import EpochTable.Proofs.Lists
import EpochTable.Reclaim.Links

namespace EpochTable

variable {α : Type} {h h' : Heap α} {head tail : Option Nat} {as bs : List Nat} {jobs js : List α}
  {b : BatchLinks} {a last x : Nat}

/-- The addresses and the jobs of the nodes met from an address on, up to the end of the list. -/
inductive Heap.Path (h : Heap α) : Option Nat → List Nat → List α → Prop
  | nil : Path h none [] []
  | cons {a : Nat} {next : Option Nat} {job : α} {as : List Nat} {jobs : List α}
      (link : h.link? a = some ⟨next, job⟩) (rest : Path h next as jobs) :
      Path h (some a) (a :: as) (job :: jobs)

theorem Heap.Path.lt (path : h.Path head as jobs) : ∀ x ∈ as, x < h.links.length := by
  induction path with
  | nil => simp
  | cons link _ ih => exact List.forall_mem_cons.mpr ⟨lt_length_of_join link, ih⟩

theorem Heap.Path.length_eq (path : h.Path head as jobs) : as.length = jobs.length := by
  induction path with
  | nil => rfl
  | cons _ _ ih => rw [List.length_cons, List.length_cons, ih]

theorem Heap.Path.eq_nil_iff (path : h.Path head as jobs) : as = [] ↔ head = none := by
  cases path <;> simp

theorem Heap.Path.exists_link (path : h.Path head as jobs) (hx : x ∈ as) :
    ∃ link, h.link? x = some link := by
  induction path with
  | nil => cases hx
  | cons link _ ih =>
    rcases List.mem_cons.mp hx with rfl | hx
    · exact ⟨_, link⟩
    · exact ih hx

/-- Only the nodes of a list matter to it. -/
theorem Heap.Path.congr (path : h.Path head as jobs) (same : ∀ x ∈ as, h'.link? x = h.link? x) :
    h'.Path head as jobs := by
  induction path with
  | nil => exact .nil
  | cons link _ ih =>
    obtain ⟨hfirst, hrest⟩ := List.forall_mem_cons.mp same
    exact .cons (hfirst.trans link) (ih hrest)

theorem Heap.link?_free (h : Heap α) (a x : Nat) :
    (h.free a).link? x = if x = a then none else h.link? x :=
  join_getElem?_set_none h.links a x

theorem Heap.setNext_eq {link : Link α} (hlink : h.link? a = some link) (next : Option Nat) :
    ∃ h', h.setNext a next = some h' ∧
      ∀ x, h'.link? x = if x = a then some { link with next := next } else h.link? x := by
  rw [Heap.setNext, hlink]
  exact ⟨_, rfl, join_getElem?_set (lt_length_of_join hlink) _⟩

/-- Joining two lists that have no node in common at the end of the first one. -/
theorem Heap.Path.splice (path : h.Path head as jobs) (other : h.Path tail bs js)
    (nodup : as.Nodup) (apart : as.Disjoint bs) (hlast : as.getLast? = some last) :
    ∃ h', h.setNext last tail = some h' ∧ (∀ x, x ≠ last → h'.link? x = h.link? x) ∧
      h'.Path head (as ++ bs) (jobs ++ js) := by
  have hmem := List.mem_of_getLast? hlast
  obtain ⟨link, hlink⟩ := path.exists_link hmem
  obtain ⟨h', hset, hlinks⟩ := Heap.setNext_eq hlink tail
  have hother : ∀ x, x ≠ last → h'.link? x = h.link? x := fun x hx => by rw [hlinks, if_neg hx]
  have hsame : h'.Path tail bs js :=
    other.congr fun x hx => hother x fun heq => apart hmem (heq ▸ hx)
  refine ⟨h', hset, hother, ?_⟩
  -- every node but the last one is as it was, so only the end of the list is new
  induction path with
  | nil => cases hmem
  | @cons a next job as jobs first rest ih =>
    obtain ⟨hnew, hnodup⟩ := List.nodup_cons.mp nodup
    cases rest with
    | nil =>
      obtain rfl : a = last := by simpa using hlast
      have hjob : link = ⟨none, job⟩ := Option.some.inj (hlink.symm.trans first)
      refine .cons ?_ hsame
      rw [hlinks, if_pos rfl, hjob]
    | @cons b next' job' as' jobs' second rest =>
      rw [List.getLast?_cons_cons] at hlast
      have hlater := List.mem_of_getLast? hlast
      have hne : a ≠ last := fun heq => hnew (heq ▸ hlater)
      refine .cons ((hother a hne).trans first) ?_
      exact ih hnodup (fun x hx => apart (List.mem_cons_of_mem _ hx)) hlast hlater

/-- Running a list runs its jobs in order, once each, and touches no nodes but its own. -/
theorem Heap.Path.runAll (path : h.Path head as jobs) (nodup : as.Nodup) :
    ∃ h', h.runAll head = some ⟨jobs, jobs.length, h'⟩ ∧
      ∀ x, x ∉ as → h'.link? x = h.link? x := by
  induction as generalizing h head jobs with
  | nil =>
    cases path
    refine ⟨h, ?_, fun _ _ => rfl⟩
    rw [Heap.runAll]
    rfl
  | cons a as ih =>
    cases path with
    | @cons _ next job _ jobs link rest =>
      obtain ⟨hnew, hnodup⟩ := List.nodup_cons.mp nodup
      have hrest : (h.free a).Path next as jobs := by
        refine rest.congr fun x hx => ?_
        have hne : x ≠ a := fun heq => hnew (heq ▸ hx)
        rw [Heap.link?_free, if_neg hne]
      obtain ⟨h', hrun, hkept⟩ := ih hrest hnodup
      refine ⟨h', ?_, fun x hx => ?_⟩
      · rw [Heap.runAll]
        split
        next hnone => rw [link] at hnone; cases hnone
        next found hfound =>
          cases Option.some.inj (link.symm.trans hfound)
          rw [hrun]
          rfl
      · obtain ⟨hxa, hxas⟩ := List.ne_and_not_mem_of_not_mem_cons hx
        rw [hkept x hxas, Heap.link?_free, if_neg hxa]

theorem Heap.alloc_setNext (h : Heap α) (job : α) (next : Option Nat) :
    ∃ h', (h.alloc job).1.setNext (h.alloc job).2 next = some h' ∧
      h'.link? h.links.length = some ⟨next, job⟩ ∧
      ∀ x, x ≠ h.links.length → h'.link? x = h.link? x := by
  have hlink (x : Nat) : (h.alloc job).1.link? x =
      if x = h.links.length then some ⟨none, job⟩ else h.link? x :=
    join_getElem?_concat h.links _ x
  have hnew : (h.alloc job).1.link? (h.alloc job).2 = some ⟨none, job⟩ := by
    rw [hlink]
    exact if_pos rfl
  obtain ⟨h', hset, hlinks⟩ := Heap.setNext_eq hnew next
  refine ⟨h', hset, (hlinks _).trans (if_pos rfl), fun x hx => ?_⟩
  exact ((hlinks x).trans (if_neg hx)).trans ((hlink x).trans (if_neg hx))

/-- Handing a batch over puts its list in front of the other one and changes no node but its last one. -/
theorem CollectorLinks.push_eq (c : CollectorLinks) (shared : h.Path c.head bs js)
    (counted : c.size = js.length) (path : h.Path b.head as jobs) (tail : b.tail = as.getLast?)
    (size : b.size = jobs.length) (nodup : as.Nodup) (apart : as.Disjoint bs) :
    ∃ c' h', c.push h b = some (c', h', (jobs ++ js).length) ∧ h'.Path c'.head (as ++ bs) (jobs ++ js) ∧
      c'.size = (jobs ++ js).length ∧ ∀ x, x ∉ as → h'.link? x = h.link? x := by
  cases hhead : b.head with
  | none =>
    have hpush : c.push h b = some (c, h, c.size) := by
      simp only [CollectorLinks.push, hhead, Option.isNone_none, ↓reduceIte]
    rw [hhead] at path
    cases path
    exact ⟨c, h, counted ▸ hpush, shared, counted, fun _ _ => rfl⟩
  | some first =>
    have hne : as ≠ [] := fun h => by simp [path.eq_nil_iff.mp h] at hhead
    have hlast := List.getLast?_eq_some_getLast hne
    obtain ⟨h', hset, hkept, hpath⟩ := path.splice shared nodup apart hlast
    have hsum : c.size + b.size = (jobs ++ js).length := by
      rw [counted, size, List.length_append, Nat.add_comm]
    have hpush : c.push h b = some (⟨b.head, c.size + b.size⟩, h', c.size + b.size) := by
      simp only [CollectorLinks.push, hhead, Option.isNone_some, Bool.false_eq_true, ↓reduceIte, tail,
        hlast, Option.bind_some, hset, Option.map_some]
    rw [hsum] at hpush
    refine ⟨_, h', hpush, hpath, rfl, fun x hx => ?_⟩
    exact hkept x fun heq => hx (heq ▸ List.mem_of_getLast? hlast)

end EpochTable
