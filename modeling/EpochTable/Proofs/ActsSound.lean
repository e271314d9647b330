import EpochTable.Proofs.AgendaSound
import EpochTable.Proofs.Settling

namespace EpochTable

variable {r : Realm} {c : Chronicle} {i g : Nat} {m : Member} {task : Task} {rest : List Task}

theorem EpochRing.word_flush (r : EpochRing) (b : Batch Node) (s : Seat) :
    ((r.flush b).1.collector s).word = (r.collector s).word := by
  rw [EpochRing.collector_flush]
  split
  next =>
    unfold Collector.push
    split <;> rfl
  next => rfl

/-- What an activity has led to is sound, if the tasks `rest` come after its own. -/
def Activity.Sound (a : Activity) (c : Chronicle) (rest : List Task) : Prop :=
  a.realm.Sound (c.after a.journal) (a.agenda ++ rest)

theorem Activity.followedBy_nil (a : Activity) : a.followedBy [] = a := by
  simp [Activity.followedBy]

theorem Realm.handOver_cases (r : Realm) (b : Batch Node) (promote : Bool) :
    (b.isEmpty = true ∧ r.handOver b promote = .still r) ∨
    ∃ tasks, (tasks = [] ∨ tasks = [.advance r.ring.current]) ∧ r.handOver b promote
      = ⟨{ r with ring := (r.ring.flush b).1 }, tasks, [.flushed r.ring.current b.nodes]⟩ := by
  unfold Realm.handOver
  split
  next h =>
    have hb : b.isEmpty = true := by
      cases hh : b.isEmpty <;> simp [hh] at h ⊢
    exact Or.inl ⟨hb, rfl⟩
  next =>
    refine Or.inr ⟨_, ?_, rfl⟩
    split
    · exact Or.inr rfl
    · exact Or.inl rfl

/-- A member that departs hands over and has to be taken out; `later` is what it does then. -/
theorem Realm.Sound.depart (h : r.Sound c rest) (hi : rest.filter (·.awaits i) = [])
    {later : List Task} (hlater : later = [] ∨ later = [.rejoin i]) (w : Option Member)
    (phase : ∀ ring d, d.roster = c.roster →
      Phase ({ r with ring := ring }.setMember i w) d i (.leave i (Seat.of g) :: later)) :
    (((r.setMember i w).depart i m (Seat.of g)).followedBy later).Sound c rest := by
  have horderly : Orderly (.leave i (Seat.of g) :: later ++ rest) := by
    rcases hlater with rfl | rfl
    · exact ⟨trivial, h.orderly⟩
    · exact ⟨trivial, trivial, h.orderly⟩
  have hothers : ∀ j, j ≠ i →
      (Task.leave i (Seat.of g) :: later).filter (·.awaits j) = [] := by
    intro j hj
    rcases hlater with rfl | rfl <;> simp [Task.awaits, Ne.symm hj]
  have hself : (Task.leave i (Seat.of g) :: later).filter (·.awaits i)
      = .leave i (Seat.of g) :: later := by
    rcases hlater with rfl | rfl <;> simp [Task.awaits]
  have hdrains : (Task.leave i (Seat.of g) :: later).filterMap Task.drained? = [] := by
    rcases hlater with rfl | rfl <;> rfl
  simp only [Realm.depart]
  rcases (r.setMember i w).handOver_cases m.batch m.promote with ⟨_, he⟩ | ⟨tasks, ht, he⟩
  · rw [he]
    have hphase : Phase (r.setMember i w) c i ((Task.leave i (Seat.of g) :: later).filter
        (·.awaits i) ++ rest.filter (·.awaits i)) := by
      rw [hself, hi, List.append_nil]
      exact phase r.ring c rfl
    exact h.of_planned _ h.balanced rfl rfl rfl hothers hphase hdrains horderly
  · rw [he]
    have hbalanced : (r.ring.flush m.batch).1.Balanced
        (c.record (.flushed r.ring.current m.batch.nodes)) :=
      h.balanced.congr rfl (r.ring.word_flush m.batch) rfl rfl rfl
    have hphase : Phase ({ r with ring := (r.ring.flush m.batch).1 }.setMember i w)
        (c.record (.flushed r.ring.current m.batch.nodes)) i
        ((Task.leave i (Seat.of g) :: later).filter (·.awaits i) ++ rest.filter (·.awaits i)) := by
      rw [hself, hi, List.append_nil]
      exact phase _ _ rfl
    rcases ht with rfl | rfl
    · exact h.of_planned _ hbalanced rfl rfl rfl hothers hphase hdrains horderly
    · exact h.of_planned (.advance r.ring.current :: .leave i (Seat.of g) :: later) hbalanced
        rfl rfl rfl hothers hphase hdrains ⟨⟨i, Seat.of g, List.mem_cons_self⟩, horderly⟩

theorem Realm.Sound.acquire (h : r.Sound c rest) (hi : rest.filter (·.awaits i) = [])
    (hm : r.member? i = some m) :
    (r.acquire i m).Sound c rest := by
  unfold Realm.acquire
  split
  next hd =>
    have hout := ((h.phase hi).eq_fresh hm hd).2
    exact Realm.Sound.join (fun j _ => h.phases j) hi h.balanced hm hout h.draining h.orderly
      (by simp) _ fun _ => rfl
  next hd =>
    exact h.setMember (u := { m with depth := m.depth + 1 }) hi hm hd (Nat.succ_ne_zero _) rfl
      r.issued rfl rfl rfl

theorem Realm.Sound.release (h : r.Sound c rest) (hi : rest.filter (·.awaits i) = [])
    (hm : r.member? i = some m) (hd : m.depth ≠ 0) :
    (r.release i m).Sound c rest := by
  obtain ⟨g, hseat, hroster⟩ := (h.phase hi).seat_of_pinned hm hd
  have hlength := Realm.lt_length_of_member? hm
  unfold Realm.release
  split
  next hone =>
    have hd' : m.depth - 1 ≠ 0 := by omega
    exact h.setMember (u := { m with depth := m.depth - 1 }) hi hm hd hd' rfl r.issued rfl rfl rfl
  next =>
    simp only [hseat]
    rw [← Activity.followedBy_nil (Realm.depart _ _ _ _)]
    refine h.depart hi (Or.inl rfl) _ ?_
    intro ring d hr
    refine .leaving g ?_ ?_ (hr ▸ hroster)
    · exact Nat.lt_of_lt_of_eq hlength (Realm.length_setMember _ _ _).symm
    · intro m' hm'
      have hmember := Realm.member?_setMember (r := { r with ring := ring }) hlength (some .fresh)
      exact Option.some.inj (hm'.symm.trans hmember)

theorem Realm.Sound.quiesce (h : r.Sound c rest) (hi : rest.filter (·.awaits i) = [])
    (hm : r.member? i = some m) (hd : m.depth ≠ 0) :
    (r.quiesce i m).Sound c rest := by
  obtain ⟨g, hseat, hroster⟩ := (h.phase hi).seat_of_pinned hm hd
  have hlength := Realm.lt_length_of_member? hm
  unfold Realm.quiesce
  split
  next => exact h
  next hone =>
    simp only [hseat]
    split
    next =>
      exact h.setMember (u := { m with standing := .quiescent (Seat.of g) }) hi hm hd hd hseat.symm
        r.issued rfl rfl rfl
    next =>
      refine h.depart hi (Or.inr rfl) _ ?_
      intro ring d hr
      have hrenewing : m.emptied.IsRenewing := ⟨Decidable.not_not.mp hone, rfl, rfl⟩
      exact .renewing m.emptied g (Realm.member?_setMember hlength _) hrenewing (hr ▸ hroster)

theorem Realm.Sound.resign (h : r.Sound c rest) (hi : rest.filter (·.awaits i) = [])
    (hm : r.member? i = some m) :
    (r.resign i m).Sound c rest := by
  have hlength := Realm.lt_length_of_member? hm
  by_cases hd : m.depth = 0
  · obtain ⟨rfl, hout⟩ := (h.phase hi).eq_fresh hm hd
    refine h.of_planned [] h.balanced rfl rfl rfl ?_ ?_ ?_ h.orderly
    · simp
    · rw [hi]
      exact .absent (Realm.member?_setMember hlength _) hout
    · rfl
  · obtain ⟨g, hseat, hroster⟩ := (h.phase hi).seat_of_pinned hm hd
    simp only [Realm.resign, hseat]
    rw [← Activity.followedBy_nil (Realm.depart _ _ _ _)]
    refine h.depart hi (Or.inl rfl) _ ?_
    intro ring d hr
    refine .leaving g ?_ ?_ (hr ▸ hroster)
    · exact Nat.lt_of_lt_of_eq hlength (Realm.length_setMember _ _ _).symm
    · intro m' hm'
      have hmember := Realm.member?_setMember (r := { r with ring := ring }) hlength none
      exact nomatch hm'.symm.trans hmember

theorem Member.depth_deferAll (m : Member) (nodes : List Node) :
    (nodes.foldl Member.defer m).depth = m.depth := by
  induction nodes generalizing m with
  | nil => rfl
  | cons node rest ih => exact ih _

theorem Standing.seat_resumed (s : Standing) : s.resumed.seat? = s.seat? := by
  cases s <;> rfl

theorem Member.seat_deferAll (m : Member) (nodes : List Node) :
    (nodes.foldl Member.defer m).standing.seat? = m.standing.seat? := by
  induction nodes generalizing m with
  | nil => rfl
  | cons node rest ih => exact (ih _).trans (Standing.seat_resumed _)

theorem Chronicle.after_deferred (c : Chronicle) (i : Nat) (nodes : List Node) :
    c.after (nodes.map (.deferred i)) = { c with deferred := c.deferred ++ nodes } := by
  induction nodes generalizing c with
  | nil => simp
  | cons node rest ih =>
    rw [List.map_cons, Chronicle.after_cons, ih]
    simp [Chronicle.record]

theorem Realm.Sound.deferAll (h : r.Sound c rest) (hi : rest.filter (·.awaits i) = [])
    (hm : r.member? i = some m) (hd : m.depth ≠ 0) {u : Member} (hu : u.depth = m.depth)
    (hs : u.standing = m.standing) (jobs : List Job) :
    (r.deferAll i u jobs).Sound c rest := by
  simp only [Activity.Sound, Realm.deferAll, Chronicle.after_deferred]
  refine h.setMember hi hm hd ?_ ?_ _ rfl rfl rfl
  · rw [Member.depth_deferAll, hu]
    exact hd
  · rw [Member.seat_deferAll, hs]

def Realm.Act.member? : Realm.Act → Option Nat
  | .register => none
  | .move i _ => some i
  | .defer i _ => some i
  | .retire i _ => some i

theorem Realm.depth_of_pinned? (h : r.pinned? i = some m) : m.depth ≠ 0 := by
  simpa using (Option.filter_eq_some_iff.mp h).2

theorem Realm.Sound.begin (h : r.Sound c rest) (act : Realm.Act)
    (hact : ∀ i, act.member? = some i → rest.filter (·.awaits i) = []) :
    (r.begin act).Sound c rest := by
  have hwith : ∀ (member : Option Member) (act : Member → Activity),
      (∀ m, member = some m → (act m).Sound c rest) → (r.withMember member act).Sound c rest :=
    fun _ _ => Realm.of_withMember (p := fun a => a.Sound c rest) h
  cases act with
  | register => exact h.register
  | move i move =>
    have hi := hact i rfl
    cases move with
    | acquire => exact hwith _ _ fun m hm => h.acquire hi hm
    | release =>
      exact hwith _ _ fun m hm =>
        h.release hi (Realm.member?_of_pinned? hm) (Realm.depth_of_pinned? hm)
    | quiesce =>
      exact hwith _ _ fun m hm =>
        h.quiesce hi (Realm.member?_of_pinned? hm) (Realm.depth_of_pinned? hm)
    | requestAdvance =>
      refine hwith _ _ fun m hm => ?_
      have hd := Realm.depth_of_pinned? hm
      exact h.setMember (u := m.requestAdvance) hi (Realm.member?_of_pinned? hm) hd hd rfl r.issued
        rfl rfl rfl
    | resign => exact hwith _ _ fun m hm => h.resign hi hm
  | defer i job =>
    exact hwith _ _ fun m hm =>
      h.deferAll (hact i rfl) (Realm.member?_of_pinned? hm) (Realm.depth_of_pinned? hm) rfl rfl _
  | retire i jobs =>
    refine hwith _ _ fun m hm => ?_
    unfold Realm.retire
    split
    · exact h
    · exact h.deferAll (u := m.requestAdvance) (hact i rfl) (Realm.member?_of_pinned? hm)
        (Realm.depth_of_pinned? hm) rfl rfl _

end EpochTable
