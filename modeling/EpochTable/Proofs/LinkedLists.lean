import EpochTable.Proofs.NodeLists

namespace EpochTable

variable {α : Type} {h h' : Heap α} {as : List Nat} {jobs : List α} {b : BatchLinks} {a i : Nat}

/-- A batch has just these jobs, in the order of its list. It knows where the list ends and how long it
is, and it knows no node exactly if it is empty. -/
structure BatchLinks.Shows (b : BatchLinks) (h : Heap α) (jobs : List α) : Prop where
  list : ∃ as, h.Path b.head as jobs ∧ b.tail = as.getLast?
  size : b.size = jobs.length
  empty : b.size = 0 ↔ b.head = none ∧ b.tail = none

structure CollectorLinks.Shows (c : CollectorLinks) (h : Heap α) (jobs : List α) : Prop where
  list : ∃ as, h.Path c.head as jobs
  size : c.size = jobs.length

/-- What was done: for every batch the jobs that it got since it came to be or was taken, and for the
collector the batches that it got since the last drain, all in the order of time. -/
structure Ledger (α : Type) where
  pushed : List (Option (List α))
  handed : List (List α)

def Ledger.blank : Ledger α := ⟨[], []⟩

def Ledger.pushed? (w : Ledger α) (i : Nat) : Option (List α) := w.pushed[i]?.join

/-- The jobs of the batches handed over, the latest batch first, each with its latest job first. -/
def Ledger.shared (w : Ledger α) : List α := (w.handed.reverse.map List.reverse).flatten

def Ledger.record (w : Ledger α) : Handover.Act α → Ledger α
  | .start => { w with pushed := w.pushed ++ [some []] }
  | .push i job =>
    match w.pushed? i with
    | none => w
    | some jobs => { w with pushed := w.pushed.set i (some (jobs ++ [job])) }
  | .take i =>
    match w.pushed? i with
    | none => w
    | some jobs => { w with pushed := w.pushed.set i (some []) ++ [some jobs] }
  | .splice i =>
    match w.pushed? i with
    | none => w
    | some jobs => ⟨w.pushed.set i none, w.handed ++ [jobs]⟩
  | .drain => { w with handed := [] }

/-- What the act has to answer. -/
def Ledger.answer (w : Ledger α) : Handover.Act α → Handover.Answer α
  | .splice i =>
    match w.pushed? i with
    | none => .nothing
    | some _ => .size (w.record (.splice i)).shared.length
  | .drain => .ran w.shared w.shared.length
  | _ => .nothing

def Ledger.run (w : Ledger α) : List (Handover.Act α) → Ledger α × List (Handover.Answer α)
  | [] => (w, [])
  | act :: rest =>
    let (w', answers) := (w.record act).run rest
    (w', w.answer act :: answers)

theorem Ledger.shared_splice (w : Ledger α) (jobs : List α) :
    Ledger.shared { w with handed := w.handed ++ [jobs] } = jobs.reverse ++ w.shared := by
  simp [Ledger.shared]

/-- The addresses of the nodes of every batch, by its number, and of those of the collector. -/
abbrev Places := Option Nat → List Nat

/-- No list has a node twice, and no two lists have one in common. -/
structure Places.Apart (places : Places) : Prop where
  nodup : ∀ p, (places p).Nodup
  disjoint : ∀ p q, p ≠ q → (places p).Disjoint (places q)

/-- The list at `p` goes in front of the one at `q`. -/
def Places.move (places : Places) (p q : Option Nat) : Places :=
  Function.update (Function.update places q (places p ++ places q)) p []

theorem Places.move_source (places : Places) (p q : Option Nat) : places.move p q p = [] :=
  Function.update_self ..

theorem Places.move_target (places : Places) {p q : Option Nat} (h : q ≠ p) :
    places.move p q q = places p ++ places q := by
  rw [Places.move, Function.update_of_ne h, Function.update_self]

theorem Places.move_other (places : Places) {p q r : Option Nat} (hp : r ≠ p) (hq : r ≠ q) :
    places.move p q r = places r := by
  rw [Places.move, Function.update_of_ne hp, Function.update_of_ne hq]

theorem Places.Apart.clear {places : Places} (apart : places.Apart) (p : Option Nat) :
    Places.Apart (Function.update places p []) := by
  constructor
  · intro q
    rw [Function.update_apply]
    split
    · exact List.nodup_nil
    · exact apart.nodup q
  · intro q r hne
    rw [Function.update_apply, Function.update_apply]
    split
    · exact List.disjoint_nil_left _
    · split
      · exact List.disjoint_nil_right _
      · exact apart.disjoint q r hne

theorem Places.Apart.cons {places : Places} (apart : places.Apart) (p : Option Nat)
    (fresh : ∀ q, a ∉ places q) : Places.Apart (Function.update places p (a :: places p)) := by
  constructor
  · intro q
    rw [Function.update_apply]
    split
    · exact List.nodup_cons.mpr ⟨fresh p, apart.nodup p⟩
    · exact apart.nodup q
  · intro q r hne
    rw [Function.update_apply, Function.update_apply]
    split
    next hq =>
      rw [if_neg fun hr => hne (hq.trans hr.symm)]
      exact List.disjoint_cons_left.mpr ⟨fresh r, apart.disjoint p r (hq ▸ hne)⟩
    next =>
      split
      next hr => exact List.disjoint_cons_right.mpr ⟨fresh q, apart.disjoint q p (hr ▸ hne)⟩
      next => exact apart.disjoint q r hne

theorem Places.Apart.move {places : Places} (apart : places.Apart) {p q : Option Nat}
    (hpq : p ≠ q) : (places.move p q).Apart := by
  have hjoint (r : Option Nat) (hp : r ≠ p) (hq : r ≠ q) :
      (places.move p q q).Disjoint (places.move p q r) := by
    rw [places.move_target hpq.symm, places.move_other hp hq]
    exact List.disjoint_append_left.mpr ⟨apart.disjoint p r hp.symm, apart.disjoint q r hq.symm⟩
  constructor
  · intro r
    by_cases hp : r = p
    · rw [hp, places.move_source]
      exact List.nodup_nil
    · by_cases hq : r = q
      · rw [hq, places.move_target hpq.symm]
        exact (apart.nodup p).append (apart.nodup q) (apart.disjoint p q hpq)
      · rw [places.move_other hp hq]
        exact apart.nodup r
  · intro r s hne
    by_cases hrp : r = p
    · rw [hrp, places.move_source]
      exact List.disjoint_nil_left _
    · by_cases hsp : s = p
      · rw [hsp, places.move_source]
        exact List.disjoint_nil_right _
      · by_cases hrq : r = q
        · exact hrq ▸ hjoint s hsp fun hsq => hne (hrq.trans hsq.symm)
        · by_cases hsq : s = q
          · exact hsq ▸ (hjoint r hrp hrq).symm
          · rw [places.move_other hrp hrq, places.move_other hsp hsq]
            exact apart.disjoint r s hne

/-- A batch, the addresses of its nodes and the jobs it got; or no batch and nothing of it. -/
inductive Heap.Holds (h : Heap α) : Option BatchLinks → List Nat → Option (List α) → Prop
  | gone : Holds h none [] none
  | there {b : BatchLinks} {as : List Nat} {jobs : List α} (path : h.Path b.head as jobs.reverse)
      (tail : b.tail = as.getLast?) (size : b.size = jobs.length) : Holds h (some b) as (some jobs)

theorem Heap.Holds.congr {batch : Option BatchLinks} {got : Option (List α)}
    (holds : h.Holds batch as got) (same : ∀ x ∈ as, h'.link? x = h.link? x) :
    h'.Holds batch as got := by
  cases holds with
  | gone => exact .gone
  | there path tail size => exact .there (path.congr same) tail size

theorem Heap.Holds.lt {batch : Option BatchLinks} {got : Option (List α)}
    (holds : h.Holds batch as got) : ∀ x ∈ as, x < h.links.length := by
  cases holds with
  | gone => exact fun _ hx => nomatch hx
  | there path tail size => exact path.lt

theorem Heap.Holds.of_none {got : Option (List α)} (holds : h.Holds none as got) :
    as = [] ∧ got = none := by
  cases holds
  exact ⟨rfl, rfl⟩

theorem Heap.Holds.of_some {got : Option (List α)} (holds : h.Holds (some b) as got) :
    ∃ jobs, got = some jobs ∧ h.Path b.head as jobs.reverse ∧ b.tail = as.getLast? ∧
      b.size = jobs.length := by
  cases holds with
  | there path tail size => exact ⟨_, rfl, path, tail, size⟩

theorem Heap.Holds.not_got {batch : Option BatchLinks} (holds : h.Holds batch as none) :
    batch = none := by
  cases holds
  rfl

theorem Heap.Holds.shows {batch : Option BatchLinks} (holds : h.Holds batch as (some jobs)) :
    ∃ b, batch = some b ∧ b.Shows h jobs.reverse := by
  cases holds with
  | @there b _ _ path tail size =>
    have hlength : as.length = b.size := by rw [path.length_eq, List.length_reverse, size]
    refine ⟨b, rfl, ⟨as, path, tail⟩, size.trans List.length_reverse.symm, ?_⟩
    rw [← hlength, List.length_eq_zero_iff, tail, List.getLast?_eq_none_iff, path.eq_nil_iff]
    exact and_self_iff.symm

/-- The batches of a list and what each of them got, side by side. -/
structure Heap.HoldsAll (h : Heap α) (batches : List (Option BatchLinks)) (places : Places)
    (pushed : List (Option (List α))) : Prop where
  count : batches.length = pushed.length
  each : ∀ i, h.Holds batches[i]?.join (places (some i)) pushed[i]?.join

section

variable {batches : List (Option BatchLinks)} {pushed : List (Option (List α))}
  {places places' : Places} {batch : Option BatchLinks} {got : Option (List α)}

theorem Heap.HoldsAll.congr (all : h.HoldsAll batches places pushed)
    (kept : ∀ j, places' (some j) = places (some j))
    (same : ∀ j, ∀ x ∈ places (some j), h'.link? x = h.link? x) :
    h'.HoldsAll batches places' pushed :=
  ⟨all.count, fun j => (kept j).symm ▸ (all.each j).congr (same j)⟩

theorem Heap.HoldsAll.set (all : h.HoldsAll batches places pushed) (there : i < batches.length)
    (kept : ∀ j, j ≠ i → places' (some j) = places (some j))
    (same : ∀ j, j ≠ i → ∀ x ∈ places (some j), h'.link? x = h.link? x)
    (here : h'.Holds batch (places' (some i)) got) :
    h'.HoldsAll (batches.set i batch) places' (pushed.set i got) := by
  refine ⟨by rw [List.length_set, List.length_set, all.count], fun j => ?_⟩
  rw [join_getElem?_set there, join_getElem?_set (all.count ▸ there)]
  split
  next hj => exact hj.symm ▸ here
  next hj => exact (kept j hj).symm ▸ (all.each j).congr (same j hj)

theorem Heap.HoldsAll.concat (all : h.HoldsAll batches places pushed)
    (kept : ∀ j, j ≠ batches.length → places' (some j) = places (some j))
    (here : h.Holds (some b) (places' (some batches.length)) (some jobs)) :
    h.HoldsAll (batches ++ [some b]) places' (pushed ++ [some jobs]) := by
  refine ⟨by rw [List.length_append, List.length_append, all.count]; rfl, fun j => ?_⟩
  rw [join_getElem?_concat, join_getElem?_concat, ← all.count]
  split
  next hj => exact hj.symm ▸ here
  next hj => exact (kept j hj).symm ▸ all.each j

/-- There is nothing of the batches that are still to come. -/
theorem Heap.HoldsAll.later (all : h.HoldsAll batches places pushed) :
    places (some batches.length) = [] := by
  have hnew := all.each batches.length
  rw [List.getElem?_eq_none (Nat.le_refl _), Option.join_none] at hnew
  exact hnew.of_none.1

end

/-- The lists in memory are those of the ledger, at these places. -/
structure LinkedHandover.Lays (l : LinkedHandover α) (w : Ledger α) (places : Places) : Prop where
  batches : l.heap.HoldsAll l.batches places w.pushed
  shared : l.heap.Path l.collector.head (places none) w.shared
  size : l.collector.size = w.shared.length
  apart : places.Apart

variable {l : LinkedHandover α} {w : Ledger α} {places : Places}

theorem LinkedHandover.Lays.fresh : LinkedHandover.fresh.Lays (.blank : Ledger α) fun _ => [] where
  batches := ⟨rfl, fun _ => .gone⟩
  shared := .nil
  size := rfl
  apart := ⟨fun _ => List.nodup_nil, fun _ _ _ => List.disjoint_nil_left _⟩

theorem LinkedHandover.Lays.lt (lays : l.Lays w places) (p : Option Nat) :
    ∀ x ∈ places p, x < l.heap.links.length := by
  cases p with
  | none => exact lays.shared.lt
  | some i => exact (lays.batches.each i).lt

theorem LinkedHandover.Lays.batch? (lays : l.Lays w places) (i : Nat) :
    l.heap.Holds (l.batch? i) (places (some i)) (w.pushed? i) :=
  lays.batches.each i

/-- The act goes through, answers what the ledger says, and the lists are again those of the ledger. -/
def LinkedHandover.Keeps (l : LinkedHandover α) (w : Ledger α) (act : Handover.Act α) : Prop :=
  ∃ l' places', l.apply act = some (l', w.answer act) ∧ l'.Lays (w.record act) places'

theorem LinkedHandover.Lays.start (lays : l.Lays w places) : l.Keeps w .start := by
  refine ⟨_, places, rfl, lays.batches.concat (fun _ _ => rfl) ?_, lays.shared, lays.size, lays.apart⟩
  rw [lays.batches.later]
  exact .there .nil rfl rfl

theorem LinkedHandover.Lays.push (lays : l.Lays w places) (i : Nat) (job : α) :
    l.Keeps w (.push i job) := by
  cases hb : l.batch? i with
  | none =>
    obtain ⟨_, hw⟩ := (hb ▸ lays.batch? i).of_none
    refine ⟨l, places, by simp only [LinkedHandover.apply, hb, Ledger.answer], ?_⟩
    simpa only [Ledger.record, hw] using lays
  | some b =>
    obtain ⟨jobs, hw, path, tail, size⟩ := (hb ▸ lays.batch? i).of_some
    obtain ⟨h', hset, hnew, hkept⟩ := l.heap.alloc_setNext job b.head
    have hfresh : ∀ q, l.heap.links.length ∉ places q := fun q hq => Nat.lt_irrefl _ (lays.lt q _ hq)
    have hsame (q : Option Nat) : ∀ x ∈ places q, h'.link? x = l.heap.link? x := fun x hx =>
      hkept x fun heq => hfresh q (heq ▸ hx)
    have happly : l.apply (.push i job) =
        some (⟨h', l.batches.set i
          (some ⟨some l.heap.links.length, b.tail <|> some l.heap.links.length, b.size + 1⟩),
          l.collector⟩, .nothing) := by
      simp only [LinkedHandover.apply, hb, BatchLinks.push, hset, Option.map_some]
      rfl
    refine ⟨_, Function.update places (some i) (l.heap.links.length :: places (some i)), happly, ?_⟩
    simp only [Ledger.record, hw]
    refine ⟨lays.batches.set (lt_length_of_join hb) ?_ (fun j _ => hsame (some j)) ?_, ?_, lays.size,
      lays.apart.cons (some i) hfresh⟩
    · intro j hj
      rw [Function.update_of_ne (by simpa using hj)]
    · rw [Function.update_self]
      refine .there ?_ ?_ ?_
      · rw [List.reverse_append]
        exact .cons hnew (path.congr (hsame (some i)))
      · rw [tail, List.getLast?_cons]
        cases (places (some i)).getLast? <;> rfl
      · rw [size, List.length_append]
        rfl
    · rw [Function.update_of_ne (by simp)]
      exact lays.shared.congr (hsame none)

theorem LinkedHandover.Lays.take (lays : l.Lays w places) (i : Nat) : l.Keeps w (.take i) := by
  cases hb : l.batch? i with
  | none =>
    obtain ⟨_, hw⟩ := (hb ▸ lays.batch? i).of_none
    refine ⟨l, places, by simp only [LinkedHandover.apply, hb, Ledger.answer], ?_⟩
    simpa only [Ledger.record, hw] using lays
  | some b =>
    obtain ⟨jobs, hw, path, tail, size⟩ := (hb ▸ lays.batch? i).of_some
    have hi := lt_length_of_join hb
    have hcount : (l.batches.set i (some BatchLinks.empty)).length = l.batches.length := List.length_set
    have hne : some i ≠ some l.batches.length := fun h => Nat.ne_of_lt hi (Option.some.inj h)
    have hempty : l.heap.Holds (some .empty) (Function.update places (some i) [] (some i)) (some []) := by
      rw [Function.update_self]
      exact .there .nil rfl rfl
    have hleft := lays.batches.set hi
      (fun j hj => Function.update_of_ne (by simpa using hj) _ _) (fun _ _ _ _ => rfl) hempty
    have happly : l.apply (.take i) =
        some ({ l with batches := l.batches.set i (some .empty) ++ [some b] }, .nothing) := by
      simp only [LinkedHandover.apply, hb, BatchLinks.take]
    refine ⟨_, places.move (some i) (some l.batches.length), happly, ?_⟩
    simp only [Ledger.record, hw]
    refine ⟨hleft.concat ?_ ?_, ?_, lays.size, lays.apart.move hne⟩
    · intro j hj
      rw [hcount] at hj
      simp only [Places.move, Function.update_apply, Option.some.injEq, if_neg hj]
    · -- nothing was at the new place, so the taken list is all there is
      rw [hcount, places.move_target hne.symm, lays.batches.later, List.append_nil]
      exact .there path tail size
    · rw [places.move_other (by simp) (by simp)]
      exact lays.shared

theorem LinkedHandover.Lays.splice (lays : l.Lays w places) (i : Nat) : l.Keeps w (.splice i) := by
  cases hb : l.batch? i with
  | none =>
    obtain ⟨_, hw⟩ := (hb ▸ lays.batch? i).of_none
    refine ⟨l, places, by simp only [LinkedHandover.apply, hb, Ledger.answer, hw], ?_⟩
    simpa only [Ledger.record, hw] using lays
  | some b =>
    obtain ⟨jobs, hw, path, tail, size⟩ := (hb ▸ lays.batch? i).of_some
    obtain ⟨c, h', hpush, hpath, hsize, hkept⟩ :=
      l.collector.push_eq lays.shared lays.size path tail (size.trans List.length_reverse.symm)
        (lays.apart.nodup _) (lays.apart.disjoint _ none (by simp))
    have hshared := w.shared_splice jobs
    have happly : l.apply (.splice i) =
        some (⟨h', l.batches.set i none, c⟩, w.answer (.splice i)) := by
      simp only [LinkedHandover.apply, hb, hpush, Option.map_some, Ledger.answer, Ledger.record, hw]
      rw [← hshared]
      rfl
    refine ⟨_, places.move (some i) none, happly, ?_⟩
    simp only [Ledger.record, hw]
    refine ⟨lays.batches.set (lt_length_of_join hb) ?_ ?_ ?_, ?_, ?_, lays.apart.move (by simp)⟩
    · exact fun j hj => places.move_other (by simpa using hj) (by simp)
    · intro j hj x hx
      exact hkept x fun hmem => lays.apart.disjoint (some j) (some i) (by simpa using hj) hx hmem
    · rw [places.move_source]
      exact .gone
    · rw [places.move_target (by simp)]
      exact hshared ▸ hpath
    · exact hshared ▸ hsize

theorem LinkedHandover.Lays.drain (lays : l.Lays w places) : l.Keeps w .drain := by
  obtain ⟨h', hrun, hkept⟩ := lays.shared.runAll (lays.apart.nodup none)
  have happly : l.apply .drain =
      some (⟨h', l.batches, .empty⟩, .ran w.shared w.shared.length) := by
    simp only [LinkedHandover.apply, CollectorLinks.drain, hrun, Option.map_some]
  refine ⟨_, Function.update places none [], happly, ?_, ?_, rfl, lays.apart.clear none⟩
  · refine lays.batches.congr (fun j => Function.update_of_ne (by simp) _ _) fun j x hx => ?_
    exact hkept x fun hshared => lays.apart.disjoint (some j) none (by simp) hx hshared
  · rw [Function.update_self]
    exact .nil

theorem LinkedHandover.Lays.keeps (lays : l.Lays w places) (act : Handover.Act α) : l.Keeps w act := by
  cases act with
  | start => exact lays.start
  | push i job => exact lays.push i job
  | take i => exact lays.take i
  | splice i => exact lays.splice i
  | drain => exact lays.drain

theorem LinkedHandover.Lays.run (lays : l.Lays w places) (acts : List (Handover.Act α)) :
    ∃ l' places', l.run acts = some (l', (w.run acts).2) ∧ l'.Lays (w.run acts).1 places' := by
  induction acts generalizing l w places with
  | nil => exact ⟨l, places, rfl, lays⟩
  | cons act acts ih =>
    obtain ⟨l₁, places₁, happly, lays₁⟩ := lays.keeps act
    obtain ⟨l₂, places₂, hrun, lays₂⟩ := ih lays₁
    refine ⟨l₂, places₂, ?_, lays₂⟩
    simp only [LinkedHandover.run, happly, Option.bind_some, hrun, Option.map_some]
    rfl

theorem Batch.ofList_concat (jobs : List α) (job : α) :
    Batch.ofList (jobs ++ [job]) = (Batch.ofList jobs).push job :=
  List.foldl_concat Batch.push Batch.empty job jobs

theorem Batch.ofList_eq (jobs : List α) :
    Batch.ofList jobs = ⟨jobs.reverse, jobs.head?, jobs.length⟩ := by
  induction jobs using List.reverseRecOn with
  | nil => rfl
  | append_singleton jobs job ih =>
    rw [Batch.ofList_concat, ih, List.reverse_concat, List.length_append]
    cases jobs <;> rfl

structure Handover.Records (x : Handover α) (w : Ledger α) : Prop where
  batches : x.batches = w.pushed.map (Option.map Batch.ofList)
  nodes : x.collector.nodes = w.shared
  size : x.collector.size = w.shared.length

variable {x : Handover α}

theorem Handover.Records.batch? (records : x.Records w) (i : Nat) :
    x.batch? i = (w.pushed? i).map Batch.ofList := by
  rw [Handover.batch?, records.batches, List.getElem?_map, Ledger.pushed?]
  cases w.pushed[i]? <;> rfl

theorem Handover.Records.splice (records : x.Records w) (jobs : List α) :
    (x.collector.push (Batch.ofList jobs)).1.nodes = jobs.reverse ++ w.shared ∧
      (x.collector.push (Batch.ofList jobs)).1.size = (jobs.reverse ++ w.shared).length ∧
      (x.collector.push (Batch.ofList jobs)).2 = (jobs.reverse ++ w.shared).length := by
  rw [Batch.ofList_eq, Collector.push, Batch.isEmpty]
  cases jobs with
  | nil => exact ⟨records.nodes, records.size, records.size⟩
  | cons job jobs =>
    simp [records.nodes, records.size]
    omega

theorem Handover.Records.apply (records : x.Records w) (act : Handover.Act α) :
    (x.apply act).2 = w.answer act ∧ (x.apply act).1.Records (w.record act) := by
  have hset (i : Nat) (jobs : Option (List α)) :
      x.batches.set i (jobs.map Batch.ofList) = (w.pushed.set i jobs).map (Option.map Batch.ofList) := by
    rw [records.batches, List.map_set]
  cases act with
  | start =>
    refine ⟨rfl, ?_, records.nodes, records.size⟩
    simp only [Handover.apply, Ledger.record, List.map_append, records.batches]
    rfl
  | push i job =>
    have hb := records.batch? i
    cases hw : w.pushed? i with
    | none =>
      rw [hw, Option.map_none] at hb
      simp only [Handover.apply, Ledger.record, Ledger.answer, hb, hw]
      exact ⟨trivial, records⟩
    | some jobs =>
      rw [hw, Option.map_some] at hb
      simp only [Handover.apply, Ledger.record, Ledger.answer, hb, hw]
      refine ⟨trivial, ?_, records.nodes, records.size⟩
      rw [← Batch.ofList_concat]
      exact hset i (some (jobs ++ [job]))
  | take i =>
    have hb := records.batch? i
    cases hw : w.pushed? i with
    | none =>
      rw [hw, Option.map_none] at hb
      simp only [Handover.apply, Ledger.record, Ledger.answer, hb, hw]
      exact ⟨trivial, records⟩
    | some jobs =>
      rw [hw, Option.map_some] at hb
      simp only [Handover.apply, Ledger.record, Ledger.answer, hb, hw]
      refine ⟨trivial, ?_, records.nodes, records.size⟩
      rw [List.map_append, ← hset]
      rfl
  | splice i =>
    have hb := records.batch? i
    cases hw : w.pushed? i with
    | none =>
      rw [hw, Option.map_none] at hb
      simp only [Handover.apply, Ledger.record, Ledger.answer, hb, hw]
      exact ⟨trivial, records⟩
    | some jobs =>
      rw [hw, Option.map_some] at hb
      obtain ⟨hnodes, hsize, hanswer⟩ := records.splice jobs
      have hshared := w.shared_splice jobs
      simp only [Handover.apply, Ledger.record, Ledger.answer, hb, hw]
      refine ⟨?_, hset i none, hnodes.trans hshared.symm, ?_⟩
      · rw [hanswer, ← hshared]
        rfl
      · rw [hsize, ← hshared]
        rfl
  | drain =>
    refine ⟨?_, records.batches, rfl, rfl⟩
    simp only [Handover.apply, Ledger.answer, Collector.drain, Collector.unload, records.nodes]

theorem Handover.Records.run (records : x.Records w) (acts : List (Handover.Act α)) :
    (x.run acts).2 = (w.run acts).2 ∧ (x.run acts).1.Records (w.run acts).1 := by
  induction acts generalizing x w with
  | nil => exact ⟨rfl, records⟩
  | cons act acts ih =>
    obtain ⟨hanswer, hnext⟩ := records.apply act
    obtain ⟨hanswers, hlast⟩ := ih hnext
    exact ⟨congrArg₂ List.cons hanswer hanswers, hlast⟩

/-- Whatever is done with batches and their collector, in memory no node is used that is gone, and what
is answered is what the ledger says. A batch has the jobs that it got, the latest first, knows its last
node and its length, and knows no node exactly if it is empty. The collector has the batches handed over
since the last drain, the latest first and each in its own order, and its size is their length. The lists
without addresses are the same ones. -/
theorem Handover.lists_keep_shape (first : Bool) (acts : List (Handover.Act α)) :
    ∃ (l : LinkedHandover α) (x : Handover α) (w : Ledger α) (answers : List (Handover.Answer α)),
      Ledger.blank.run acts = (w, answers) ∧ LinkedHandover.fresh.run acts = some (l, answers) ∧
      (Handover.fresh first).run acts = (x, answers) ∧
      (∀ i, w.pushed? i = none → l.batch? i = none ∧ x.batch? i = none) ∧
      (∀ i jobs, w.pushed? i = some jobs →
        (∃ b, l.batch? i = some b ∧ b.Shows l.heap jobs.reverse) ∧
        x.batch? i = some ⟨jobs.reverse, jobs.head?, jobs.length⟩) ∧
      l.collector.Shows l.heap w.shared ∧ x.collector.nodes = w.shared ∧
      x.collector.size = w.shared.length := by
  obtain ⟨l, places, hrun, lays⟩ := LinkedHandover.Lays.fresh.run acts
  have hblank : (Handover.fresh first : Handover α).Records .blank := ⟨rfl, rfl, rfl⟩
  obtain ⟨hanswers, records⟩ := hblank.run acts
  refine ⟨l, ((Handover.fresh first).run acts).1, (Ledger.blank.run acts).1, (Ledger.blank.run acts).2,
    rfl, hrun, Prod.ext rfl hanswers, fun i hi => ?_, fun i jobs hi => ?_,
    ⟨⟨_, lays.shared⟩, lays.size⟩, records.nodes, records.size⟩
  · have hx := records.batch? i
    rw [hi] at hx
    exact ⟨(hi ▸ lays.batch? i).not_got, hx⟩
  · have hx := records.batch? i
    rw [hi, Option.map_some, Batch.ofList_eq] at hx
    exact ⟨(hi ▸ lays.batch? i).shows, hx⟩

end EpochTable
