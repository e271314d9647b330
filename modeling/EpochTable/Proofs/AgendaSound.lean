import EpochTable.Proofs.MemberPhases

namespace EpochTable

variable {r r' : Realm} {c d : Chronicle} {i j g : Nat} {m u : Member} {task : Task}
  {rest : List Task}

instance (c : Chronicle) : Decidable c.Vacant := inferInstanceAs (Decidable (_ ∧ _))

def Task.drained? : Task → Option Seat
  | .drain seat => some seat
  | .finish seat _ => some seat
  | _ => none

/-- What a task relies on: somebody who asked for an advance has yet to leave, a job acts through
members that nothing else is planned for, and nodes run while a drain lasts. -/
def Task.Precedes (rest : List Task) : Task → Prop
  | .advance _ => ∃ i seat, .leave i seat ∈ rest
  | .proceed own _ => ∀ i ∈ own, rest.filter (·.awaits i) = []
  | .run _ => ∃ seat executed, .finish seat executed ∈ rest
  | _ => True

def Orderly : List Task → Prop
  | [] => True
  | task :: rest => task.Precedes rest ∧ Orderly rest

structure Realm.Sound (r : Realm) (c : Chronicle) (agenda : List Task) : Prop where
  balanced : r.ring.Balanced c
  phases : ∀ i, Phase r c i (agenda.filter (·.awaits i))
  draining : agenda.filterMap Task.drained? = if c.Vacant then [Seat.of c.ended] else []
  orderly : Orderly agenda

theorem Chronicle.vacant_congr (hg : d.generation = c.generation) (he : d.ended = c.ended)
    (hr : d.roster = c.roster) : d.Vacant ↔ c.Vacant := by
  simp only [Chronicle.Vacant, Chronicle.crowd, hg, he, hr]

theorem Chronicle.vacant_joined (c : Chronicle) (i : Nat) (s : Seat) :
    (c.record (.joined i s)).Vacant ↔ c.Vacant := by
  have hcrowd := c.crowd_joined i s c.ended
  change c.ended < c.generation ∧ (c.record (.joined i s)).crowd c.ended = 0 ↔ _
  rw [hcrowd, Chronicle.Vacant]
  split <;> omega

theorem Chronicle.vacant_left (hn : c.counted.Nodup) (hp : (i, g) ∈ c.roster) (s : Seat) :
    (c.record (.left i s)).Vacant ↔
      c.ended < c.generation ∧ c.crowd c.ended = if g = c.ended then 1 else 0 := by
  have hcrowd := Chronicle.crowd_left hn hp s c.ended
  change c.ended < c.generation ∧ (c.record (.left i s)).crowd c.ended = 0 ↔ _
  rw [hcrowd]
  split <;> omega

/-- As long as somebody is counted, an advance makes no collector vacant. -/
theorem EpochRing.Balanced.vacant_advanced {ring : EpochRing} (h : ring.Balanced c)
    (hp : (i, g) ∈ c.roster) (s : Seat) : (c.record (.advanced s)).Vacant ↔ c.Vacant := by
  have hw := h.within _ hp
  change c.ended < c.generation + 1 ∧ c.crowd c.ended = 0 ↔ _
  rw [Chronicle.Vacant]
  constructor
  · rintro ⟨_, hc⟩
    have hne := Chronicle.crowd_eq_zero.mp hc _ hp
    simp only at hne hw
    exact ⟨by omega, hc⟩
  · rintro ⟨hlt, hc⟩
    exact ⟨by omega, hc⟩

theorem Orderly.exists_finish {node : Node} {tasks : List Task} (h : Orderly tasks)
    (hrun : .run node ∈ tasks) : ∃ seat executed, .finish seat executed ∈ tasks := by
  induction tasks with
  | nil => simp at hrun
  | cons task rest ih =>
    rcases List.mem_cons.mp hrun with he | ht
    · subst he
      obtain ⟨seat, executed, hmem⟩ := h.1
      exact ⟨seat, executed, List.mem_cons_of_mem _ hmem⟩
    · obtain ⟨seat, executed, hmem⟩ := ih h.2 ht
      exact ⟨seat, executed, List.mem_cons_of_mem _ hmem⟩

/-- Nodes run only while the oldest collector is vacant. -/
theorem Realm.Sound.vacant_of_run {node : Node} {agenda : List Task} (h : r.Sound c agenda)
    (hrun : .run node ∈ agenda) : c.Vacant := by
  obtain ⟨seat, executed, hmem⟩ := h.orderly.exists_finish hrun
  by_contra hv
  have hnone := h.draining
  rw [if_neg hv, List.filterMap_eq_nil_iff] at hnone
  simpa [Task.drained?] using hnone _ hmem

theorem Realm.Sound.phase (h : r.Sound c rest) (hi : rest.filter (·.awaits i) = []) :
    Phase r c i [] := by
  have hp := h.phases i
  rwa [hi] at hp

theorem Realm.Sound.not_awaited (h : r.Sound c rest) (hi : r.members.length ≤ i) :
    rest.filter (·.awaits i) = [] := by
  by_contra hne
  have := (h.phases i).lt_length hne
  omega

/-- A deed that concerns one member only leaves the phases of all others alone. -/
theorem Realm.Sound.of_member (new : List Task) (i : Nat)
    (others : ∀ j, j ≠ i → Phase r c j (rest.filter (·.awaits j)))
    (balanced : r'.ring.Balanced d) (hm : ∀ j, j ≠ i → r'.member? j = r.member? j)
    (hl : r.members.length ≤ r'.members.length)
    (hr : ∀ j, j ≠ i → ∀ g, (j, g) ∈ d.roster ↔ (j, g) ∈ c.roster)
    (hnew : ∀ j, j ≠ i → new.filter (·.awaits j) = [])
    (phase : Phase r' d i (new.filter (·.awaits i) ++ rest.filter (·.awaits i)))
    (draining : new.filterMap Task.drained? ++ rest.filterMap Task.drained?
      = if d.Vacant then [Seat.of d.ended] else [])
    (orderly : Orderly (new ++ rest)) : r'.Sound d (new ++ rest) := by
  refine ⟨balanced, ?_, ?_, orderly⟩
  · intro j
    rw [List.filter_append]
    by_cases hj : j = i
    · subst hj
      exact phase
    · rw [hnew j hj, List.nil_append]
      exact (others j hj).congr (hm j hj) hl (hr j hj)
  · rw [List.filterMap_append]
    exact draining

/-- The tasks of a member that departs, and maybe returns. -/
theorem Realm.Sound.of_planned (h : r.Sound c rest) (new : List Task) {ring : EpochRing}
    {w : Option Member} (balanced : ring.Balanced d)
    (hg : d.generation = c.generation) (he : d.ended = c.ended) (hr : d.roster = c.roster)
    (hnew : ∀ j, j ≠ i → new.filter (·.awaits j) = [])
    (phase : Phase ({ r with ring := ring }.setMember i w) d i
      (new.filter (·.awaits i) ++ rest.filter (·.awaits i)))
    (hdrains : new.filterMap Task.drained? = []) (orderly : Orderly (new ++ rest)) :
    ({ r with ring := ring }.setMember i w).Sound d (new ++ rest) := by
  refine Realm.Sound.of_member new i (fun j _ => h.phases j) balanced ?_ ?_ ?_ hnew phase ?_ orderly
  · intro j hj
    rw [Realm.member?_setMember_ne hj]
    rfl
  · exact Nat.le_of_eq (Realm.length_setMember _ _ _).symm
  · intro j _ g
    rw [hr]
  · have hv : d.Vacant ↔ c.Vacant := Chronicle.vacant_congr hg he hr
    rw [hdrains, List.nil_append, h.draining, he]
    simp only [hv]

theorem Realm.Sound.setMember (h : r.Sound c rest) (hi : rest.filter (·.awaits i) = [])
    (hm : r.member? i = some m) (hd : m.depth ≠ 0) (hu : u.depth ≠ 0)
    (hs : u.standing.seat? = m.standing.seat?) (n : Nat) {d : Chronicle}
    (hg : d.generation = c.generation) (he : d.ended = c.ended) (hr : d.roster = c.roster) :
    ({ r with issued := n }.setMember i (some u)).Sound d rest := by
  obtain ⟨g, hseat, hroster⟩ := (h.phase hi).seat_of_pinned hm hd
  have hlength := Realm.lt_length_of_member? hm
  have hbalanced : r.ring.Balanced d := h.balanced.congr rfl (fun _ => rfl) hg he hr
  refine Realm.Sound.of_member [] i (fun j _ => h.phases j) hbalanced ?_ ?_ ?_ ?_ ?_ ?_ ?_
  · intro j hj
    rw [Realm.member?_setMember_ne hj]
    rfl
  · exact Nat.le_of_eq (Realm.length_setMember _ _ _).symm
  · intro j _ g
    rw [hr]
  · simp
  · rw [hi]
    exact .pinned u g (Realm.member?_setMember hlength _) hu (hs.trans hseat) (hr ▸ hroster)
  · have hv : d.Vacant ↔ c.Vacant := Chronicle.vacant_congr hg he hr
    rw [List.filterMap_nil, List.nil_append, h.draining, he]
    simp only [hv]
  · exact h.orderly

theorem Realm.Sound.register (h : r.Sound c rest) : r.register.Sound c rest := by
  have hnew := h.not_awaited (Nat.le_refl r.members.length)
  have hmember : r.register.member? r.members.length = some .fresh := by
    simp [Realm.member?, Realm.register]
  have hout : r.members.length ∉ c.counted := by
    intro hc
    have hp := h.phase hnew
    have habsent : r.member? r.members.length = none := by simp [Realm.member?]
    cases hp with
    | absent _ h2 => exact h2 hc
    | idle h1 => simp [h1] at habsent
    | pinned m g h1 => simp [h1] at habsent
  refine Realm.Sound.of_member [] r.members.length (fun j _ => h.phases j)
    h.balanced ?_ ?_ ?_ ?_ ?_ ?_ h.orderly
  · intro j hj
    simp only [Realm.member?, Realm.register, List.getElem?_append, List.getElem?_singleton]
    split
    next => rfl
    next hlt =>
      have hne : ¬ j - r.members.length = 0 := by omega
      simp [hne, hlt]
  · simp [Realm.register]
  · simp
  · simp
  · rw [hnew]
    exact .idle hmember hout
  · rw [List.filterMap_nil, List.nil_append]
    exact h.draining

theorem Realm.Sound.join (others : ∀ j, j ≠ i → Phase r c j (rest.filter (·.awaits j)))
    (hi : rest.filter (·.awaits i) = []) (balanced : r.ring.Balanced c) (hm : r.member? i = some m)
    (hout : i ∉ c.counted)
    (draining : rest.filterMap Task.drained? = if c.Vacant then [Seat.of c.ended] else [])
    (orderly : Orderly rest) (hd : u.depth ≠ 0) (standing : Seat → Standing)
    (hs : ∀ s, (standing s).seat? = some s) :
    (r.join i u standing).realm.Sound (c.after (r.join i u standing).journal) rest := by
  have hlength := Realm.lt_length_of_member? hm
  refine Realm.Sound.of_member [] i others (balanced.enter hout) ?_ ?_ ?_ ?_ ?_ ?_ orderly
  · intro j hj
    exact Realm.member?_setMember_ne hj _
  · exact Nat.le_of_eq (Realm.length_setMember _ _ _).symm
  · intro j hj g
    exact Chronicle.mem_roster_joined hj r.ring.enter.2
  · simp
  · rw [hi]
    refine .pinned _ c.generation (Realm.member?_setMember hlength _) hd ?_ List.mem_cons_self
    rw [hs]
    exact congrArg some balanced.current
  · rw [List.filterMap_nil, List.nil_append, draining]
    have hv := c.vacant_joined i r.ring.enter.2
    change _ = if (c.record (.joined i r.ring.enter.2)).Vacant then [Seat.of c.ended] else []
    simp only [hv]

end EpochTable
