import EpochTable.Proofs.RingBalance

namespace EpochTable

variable {r r' : Realm} {c d : Chronicle} {i j g : Nat} {m : Member} {tasks : List Task}

/-- The task will take the member out of its collector or count it again. -/
def Task.awaits (i : Nat) : Task → Bool
  | .leave j _ => j = i
  | .rejoin j => j = i
  | _ => false

/-- A member with a single pin that has nothing to hand over. -/
def Member.IsRenewing (m : Member) : Prop :=
  m.depth = 1 ∧ m.batch = .empty ∧ m.promote = false

/-- Where a member stands, given the tasks that await it. -/
inductive Phase (r : Realm) (c : Chronicle) (i : Nat) : List Task → Prop
  | absent : r.member? i = none → i ∉ c.counted → Phase r c i []
  | idle : r.member? i = some .fresh → i ∉ c.counted → Phase r c i []
  | pinned (m : Member) (g : Nat) : r.member? i = some m → m.depth ≠ 0 →
      m.standing.seat? = some (Seat.of g) → (i, g) ∈ c.roster → Phase r c i []
  | leaving (g : Nat) : i < r.members.length → (∀ m, r.member? i = some m → m = .fresh) →
      (i, g) ∈ c.roster → Phase r c i [.leave i (Seat.of g)]
  | renewing (m : Member) (g : Nat) : r.member? i = some m → m.IsRenewing →
      (i, g) ∈ c.roster → Phase r c i [.leave i (Seat.of g), .rejoin i]
  | returning (m : Member) : r.member? i = some m → m.IsRenewing → i ∉ c.counted →
      Phase r c i [.rejoin i]

theorem Chronicle.mem_counted : i ∈ c.counted ↔ ∃ g, (i, g) ∈ c.roster := by
  simp [Chronicle.counted]

theorem Chronicle.not_mem_counted_left (c : Chronicle) (i : Nat) (s : Seat) :
    i ∉ (c.record (.left i s)).counted := by
  simp [Chronicle.mem_counted, Chronicle.record]

theorem Chronicle.mem_roster_left (hne : j ≠ i) (s : Seat) :
    (j, g) ∈ (c.record (.left i s)).roster ↔ (j, g) ∈ c.roster := by
  simp [Chronicle.record, hne]

theorem Chronicle.mem_roster_joined (hne : j ≠ i) (s : Seat) :
    (j, g) ∈ (c.record (.joined i s)).roster ↔ (j, g) ∈ c.roster := by
  simp [Chronicle.record, hne]

theorem Phase.congr (h : Phase r c i tasks) (hm : r'.member? i = r.member? i)
    (hl : r.members.length ≤ r'.members.length)
    (hr : ∀ g, (i, g) ∈ d.roster ↔ (i, g) ∈ c.roster) : Phase r' d i tasks := by
  have hcounted : i ∉ c.counted → i ∉ d.counted := by
    intro hn hd
    obtain ⟨g, hg⟩ := Chronicle.mem_counted.mp hd
    exact hn (Chronicle.mem_counted.mpr ⟨g, (hr g).mp hg⟩)
  cases h with
  | absent h1 h2 => exact .absent (hm.trans h1) (hcounted h2)
  | idle h1 h2 => exact .idle (hm.trans h1) (hcounted h2)
  | pinned m g h1 h2 h3 h4 => exact .pinned m g (hm.trans h1) h2 h3 ((hr g).mpr h4)
  | leaving g h1 h2 h3 =>
    exact .leaving g (Nat.lt_of_lt_of_le h1 hl) (fun m h => h2 m (hm.symm.trans h)) ((hr g).mpr h3)
  | renewing m g h1 h2 h3 => exact .renewing m g (hm.trans h1) h2 ((hr g).mpr h3)
  | returning m h1 h2 h3 => exact .returning m (hm.trans h1) h2 (hcounted h3)

theorem Realm.lt_length_of_member? (h : r.member? i = some m) : i < r.members.length :=
  lt_length_of_join h

theorem Realm.member?_setMember (hi : i < r.members.length) (u : Option Member) :
    (r.setMember i u).member? i = u := by
  simp [Realm.member?, Realm.setMember, hi]

theorem Realm.member?_setMember_ne (hne : j ≠ i) (u : Option Member) :
    (r.setMember i u).member? j = r.member? j := by
  simp [Realm.member?, Realm.setMember, List.getElem?_set_ne hne.symm]

theorem Realm.length_setMember (r : Realm) (i : Nat) (u : Option Member) :
    (r.setMember i u).members.length = r.members.length :=
  List.length_set

theorem Phase.lt_length (h : Phase r c i tasks) (hne : tasks ≠ []) : i < r.members.length := by
  cases h with
  | absent => exact absurd rfl hne
  | idle => exact absurd rfl hne
  | pinned => exact absurd rfl hne
  | leaving g h1 => exact h1
  | renewing m g h1 => exact Realm.lt_length_of_member? h1
  | returning m h1 => exact Realm.lt_length_of_member? h1

/-- A member that is not awaited and holds a pin is counted in the collector that its record tells. -/
theorem Phase.seat_of_pinned (h : Phase r c i []) (hm : r.member? i = some m) (hd : m.depth ≠ 0) :
    ∃ g, m.standing.seat? = some (Seat.of g) ∧ (i, g) ∈ c.roster := by
  cases h with
  | absent h1 => simp [h1] at hm
  | idle h1 =>
    cases Option.some.inj (h1.symm.trans hm)
    exact absurd rfl hd
  | pinned m' g h1 h2 h3 h4 =>
    cases Option.some.inj (h1.symm.trans hm)
    exact ⟨g, h3, h4⟩

theorem Phase.eq_fresh (h : Phase r c i []) (hm : r.member? i = some m) (hd : m.depth = 0) :
    m = .fresh ∧ i ∉ c.counted := by
  cases h with
  | absent h1 => simp [h1] at hm
  | idle h1 h2 => exact ⟨Option.some.inj (hm.symm.trans h1), h2⟩
  | pinned m' g h1 h2 =>
    cases Option.some.inj (h1.symm.trans hm)
    exact absurd hd h2

/-- A member that is not awaited and counted nowhere has nothing to hand over. -/
theorem Phase.eq_fresh_of_seat (h : Phase r c i []) (hm : r.member? i = some m)
    (hs : m.standing.seat? = none) : m = .fresh := by
  by_contra hne
  have hd : m.depth ≠ 0 := fun hd => hne (h.eq_fresh hm hd).1
  obtain ⟨g, hg, _⟩ := h.seat_of_pinned hm hd
  simp [hs] at hg

theorem Phase.mem_roster {s : Seat} (h : Phase r c i (.leave i s :: tasks)) :
    ∃ g, s = Seat.of g ∧ (i, g) ∈ c.roster := by
  cases h with
  | leaving g _ _ h3 => exact ⟨g, rfl, h3⟩
  | renewing m g _ _ h3 => exact ⟨g, rfl, h3⟩

theorem Phase.counted_of_leave {s : Seat} (h : Phase r c i tasks) (hmem : .leave j s ∈ tasks) :
    ∃ g, (i, g) ∈ c.roster := by
  cases h with
  | absent | idle | pinned | returning => simp at hmem
  | leaving g _ _ h3 => exact ⟨g, h3⟩
  | renewing m g _ _ h3 => exact ⟨g, h3⟩

theorem Phase.after_leave {s : Seat} (h : Phase r c i (.leave i s :: tasks))
    (hm : r'.member? i = r.member? i) : Phase r' (c.record (.left i s)) i tasks := by
  have hout := c.not_mem_counted_left i s
  cases h with
  | leaving g h1 h2 _ =>
    cases hmember : r.member? i with
    | none => exact .absent (hm.trans hmember) hout
    | some m =>
      rw [h2 m hmember] at hmember
      exact .idle (hm.trans hmember) hout
  | renewing m g h1 h2 _ => exact .returning m (hm.trans h1) h2 hout

end EpochTable
