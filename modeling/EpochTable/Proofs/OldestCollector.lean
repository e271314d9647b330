import EpochTable.Proofs.RunOrder

namespace EpochTable

variable {r : Realm} {c : Chronicle} {i g g' : Nat} {m : Member} {seat : Seat}

/-- The record of the member says that it is counted in this collector. -/
def Realm.CountedIn (r : Realm) (i : Nat) (seat : Seat) : Prop :=
  ∃ m, r.member? i = some m ∧ m.standing.seat? = some seat

/-- Nobody is counted in any collector. -/
def Realm.isQuiet (r : Realm) : Bool :=
  r.members.all fun m => (m.bind fun m => m.standing.seat?).isNone

theorem Realm.isQuiet_iff : r.isQuiet = true ↔ ∀ i seat, ¬ r.CountedIn i seat := by
  simp only [Realm.isQuiet, List.all_eq_true, Option.isNone_iff_eq_none]
  constructor
  · rintro h i seat ⟨m, hm, hseat⟩
    have hnone := h (some m) (List.mem_of_getElem? (Option.join_eq_some_iff.mp hm))
    rw [Option.bind_some, hseat] at hnone
    cases hnone
  · intro h w hw
    obtain ⟨i, hi⟩ := List.getElem?_of_mem hw
    refine Option.eq_none_iff_forall_ne_some.mpr fun seat hseat => ?_
    obtain ⟨m, rfl, hs⟩ := Option.bind_eq_some_iff.mp hseat
    exact h i seat ⟨m, Option.join_eq_some_iff.mpr hi, hs⟩

theorem Chronicle.entered_once (h : c.counted.Nodup) (hg : (i, g) ∈ c.roster)
    (hg' : (i, g') ∈ c.roster) : g = g' :=
  congrArg Prod.snd (List.inj_on_of_nodup_map h hg hg' rfl)

/-- The records of the members tell the same as the history of those who entered and left. -/
theorem Realm.Sound.countedIn_iff (h : r.Sound c []) :
    r.CountedIn i seat ↔ ∃ g, (i, g) ∈ c.roster ∧ Seat.of g = seat := by
  have hphase : Phase r c i [] := h.phase rfl
  constructor
  · rintro ⟨m, hm, hseat⟩
    have hd : m.depth ≠ 0 := by
      intro hd
      rw [(hphase.eq_fresh hm hd).1] at hseat
      cases hseat
    obtain ⟨g, hs, hg⟩ := hphase.seat_of_pinned hm hd
    exact ⟨g, hg, Option.some.inj (hs.symm.trans hseat)⟩
  · rintro ⟨g, hg, rfl⟩
    cases hphase with
    | absent _ hout => exact absurd (Chronicle.mem_counted.mpr ⟨g, hg⟩) hout
    | idle _ hout => exact absurd (Chronicle.mem_counted.mpr ⟨g, hg⟩) hout
    | pinned m g' hm _ hs hg' =>
      rw [Chronicle.entered_once h.balanced.once hg hg']
      exact ⟨m, hm, hs⟩

theorem Realm.Sound.held_eq_nil (h : r.Sound c []) (hout : ∀ i seat, ¬ r.CountedIn i seat) :
    r.held = [] := by
  refine List.flatMap_eq_nil_iff.mpr fun w hw => ?_
  obtain ⟨i, hi⟩ := List.getElem?_of_mem hw
  cases w with
  | none => rfl
  | some m =>
    have hm : r.member? i = some m := Option.join_eq_some_iff.mpr hi
    have hseat : m.standing.seat? = none :=
      Option.eq_none_iff_forall_ne_some.mpr fun seat hs => hout i seat ⟨m, hm, hs⟩
    have hphase : Phase r c i [] := h.phase rfl
    rw [hphase.eq_fresh_of_seat hm hseat]
    rfl

/-- When nobody is counted, the drains have caught up with the advances. -/
theorem Realm.Sound.ended_eq (h : r.Sound c []) (hout : ∀ i seat, ¬ r.CountedIn i seat) :
    c.ended = c.generation := by
  refine h.tail_held.resolve_right ?_
  rintro ⟨i, hi⟩
  exact hout i _ (h.countedIn_iff.mpr ⟨c.ended, hi, rfl⟩)

theorem Realm.Keeps.nodes_current (h : r.Keeps c [] []) (balanced : r.ring.Balanced c) :
    (r.ring.collector r.ring.current).nodes = (c.flushed c.generation).reverse := by
  have hended := balanced.ended_le
  have hnodes := h.nodes c.generation hended balanced.room
  rwa [List.length_nil, if_neg (by omega), ← balanced.current] at hnodes

/-- When nobody is counted, the nodes that have not run are in the current collector. -/
theorem Realm.Sound.perm_deferred (h : r.Sound c []) (keeps : r.Keeps c [] [])
    (hout : ∀ i seat, ¬ r.CountedIn i seat) :
    c.deferred.Perm (c.ran ++ (r.ring.collector r.ring.current).nodes) := by
  have horder := keeps.order
  simp only [List.length_nil, List.append_nil, Nat.add_zero] at horder
  have hhanded := keeps.handed
  rwa [h.held_eq_nil hout, List.nil_append, Chronicle.inOrder_succ, ← h.ended_eq hout, ← horder,
    h.ended_eq hout, ← keeps.nodes_current h.balanced] at hhanded

/-- In every state between two operations the oldest collector is the current one, or some member is
counted in it, however nodes are nested, pins are lost or the ring is full. So when nobody is counted,
the oldest collector is the current one, and all the nodes that have not run are in it. -/
theorem Realm.oldest_collector_held (threshold : UInt64) (acts : List Realm.Act)
    (sparse : Event.Sparse ((Realm.fresh threshold).run acts).2) :
    let r := ((Realm.fresh threshold).run acts).1
    let c := Chronicle.of ((Realm.fresh threshold).run acts).2
    (∀ i seat, r.CountedIn i seat ↔ ∃ g, (i, g) ∈ c.roster ∧ Seat.of g = seat) ∧
    (r.ring.tail = r.ring.current ∨ ∃ i, r.CountedIn i r.ring.tail) ∧
    ((∀ i seat, ¬ r.CountedIn i seat) →
      r.ring.tail = r.ring.current ∧
      (∀ seat, seat ≠ r.ring.current →
        (r.ring.collector seat).nodes = [] ∧ (r.ring.collector seat).size = 0) ∧
      r.ring.pending = (r.ring.collector r.ring.current).size ∧
      c.deferred.Perm (c.ran ++ (r.ring.collector r.ring.current).nodes)) := by
  intro r c
  obtain ⟨_, hsound, hkeeps⟩ := (Realm.valid_fresh threshold).run acts sparse
  rw [List.nil_append] at hsound hkeeps
  change r.Sound c [] at hsound
  change r.Keeps c [] [] at hkeeps
  have hcurrent := hsound.balanced.current
  have htail := hsound.balanced.tail
  refine ⟨fun i seat => hsound.countedIn_iff, ?_, fun hout => ?_⟩
  · rcases hsound.tail_held with hended | ⟨i, hi⟩
    · exact .inl (by rw [htail, hcurrent, hended])
    · exact .inr ⟨i, hsound.countedIn_iff.mpr ⟨c.ended, hi, htail.symm⟩⟩
  · have hended := hsound.ended_eq hout
    refine ⟨by rw [htail, hcurrent, hended], fun seat hseat => ?_, ?_, hsound.perm_deferred hkeeps hout⟩
    · rw [hcurrent] at hseat
      have hempty := hkeeps.nodes_eq_nil hended hseat
      exact ⟨hempty, by rw [hkeeps.sizes, hempty, List.length_nil]⟩
    · rw [← EpochRing.length_remainder hkeeps.sizes, hkeeps.remainder_eq hended, hkeeps.sizes,
        hkeeps.nodes_current hsound.balanced]

/-- The first member keeps its pin while the other one fills the ring. Then it resigns without dropping
the pin, and all collectors but the current one are drained; its batch is in that one. -/
theorem Realm.oldest_collector_held_full :
    let filling : List Realm.Act := [.register, .register, .move 0 .acquire,
      .defer 0 (.nested 1 2 false)] ++ (List.replicate 16
        [Realm.Act.move 1 .acquire, .move 1 .requestAdvance, .move 1 .release]).flatten
    let full := (Realm.fresh 8).run filling
    let leaving : List Realm.Act := filling ++ [.move 0 .resign]
    let quiet := (Realm.fresh 8).run leaving
    Event.Sparse full.2 ∧ .refused 15 ∈ full.2 ∧ full.1.ring.tail ≠ full.1.ring.current ∧
      (∃ i, full.1.CountedIn i full.1.ring.tail) ∧
    Event.Sparse quiet.2 ∧ (∀ i seat, ¬ quiet.1.CountedIn i seat) ∧
      quiet.1.ring.tail = quiet.1.ring.current ∧ quiet.1.ring.current = 15 ∧
      quiet.1.ring.pending = 1 ∧ (quiet.1.ring.collector 15).size = 1 := by
  intro filling full leaving quiet
  have hfull : Event.Sparse full.2 := Event.sparse_of_length (by decide +kernel)
  have hbehind : full.1.ring.tail ≠ full.1.ring.current := by decide +kernel
  obtain ⟨_, hheld, _⟩ := Realm.oldest_collector_held 8 filling hfull
  have hquiet : Event.Sparse quiet.2 := Event.sparse_of_length (by decide +kernel)
  have hout : ∀ i seat, ¬ quiet.1.CountedIn i seat := Realm.isQuiet_iff.mp (by decide +kernel)
  have hcurrent : quiet.1.ring.current = 15 := by decide +kernel
  have hone : quiet.1.ring.pending = 1 := by decide +kernel
  obtain ⟨_, _, hcaught⟩ := Realm.oldest_collector_held 8 leaving hquiet
  obtain ⟨htail, _, hpending, _⟩ := hcaught hout
  rw [hcurrent] at hpending
  exact ⟨hfull, by decide +kernel, hbehind, hheld.resolve_left hbehind, hquiet, hout, htail, hcurrent,
    hone, hpending.symm.trans hone⟩

end EpochTable
