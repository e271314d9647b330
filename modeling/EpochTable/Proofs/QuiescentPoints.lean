import EpochTable.Proofs.Recounting

namespace EpochTable

variable {r : Realm} {ring : EpochRing} {a : Activity} {m : Member} {i : Nat} {seat : Seat}

/-- The states of a realm between the acts of a run, and those in the middle of an act. -/
def Activity.Reachable (a : Activity) (threshold : UInt64) : Prop :=
  ∃ acts, a = .still ((Realm.fresh threshold).run acts).1 ∨
    ∃ act n, a = (((Realm.fresh threshold).run acts).1.begin act).steps n

/-- The member `i` passes a quiescent point next, in an act or as the deed of a running job, and `rest`
is to be done then. -/
inductive Activity.Quiesces (i : Nat) : Activity → List Task → Prop
  | act (r : Realm) : Quiesces i (.still r) []
  | deed {a : Activity} {own : List Nat} {k : Nat} {next : Script} {tasks : List Task}
    (agenda : a.agenda = .proceed own (.move k .quiesce next) :: tasks) (known : own[k]? = some i) :
    Quiesces i a (.proceed own next :: tasks)

/-- Brings the tasks at hand to their end, and does more acts. -/
def Activity.thenRun (a : Activity) (acts : List Realm.Act) : Realm × List Event :=
  let (r, later) := a.settle.realm.run acts
  (r, a.settle.journal ++ later)

/-- The realm `r` is as `f`, but for one entry in the master word and one reference to the current
collector, and not even these once a collector has been retired in `past`. -/
structure Realm.Follows (r f : Realm) (past : List Event) : Prop where
  members : r.members = f.members
  current : r.ring.current = f.ring.current
  tail : r.ring.tail = f.ring.tail
  pending : r.ring.pending = f.ring.pending
  reclaimed : r.ring.reclaimed = f.ring.reclaimed
  close : r.close = f.close
  counts : r = f.owing past

/-- The activity `b` has the same tasks to do as `a`, and the same has happened, after the events of
`first`. Before `a`, those of `past` had happened. -/
structure Activity.Follows (b a : Activity) (first past : List Event) : Prop where
  agenda : b.agenda = a.agenda
  journal : b.journal = first ++ a.journal
  realm : b.realm.Follows a.realm (past ++ a.journal)

theorem Activity.Reachable.steady {threshold : UInt64} (h : a.Reachable threshold) : a.Steady := by
  obtain ⟨acts, rfl | ⟨act, n, rfl⟩⟩ := h
  · exact (Realm.steady_fresh threshold).run acts
  · exact (((Realm.steady_fresh threshold).run acts).begin act).steps n

theorem Realm.follows_owing (f : Realm) (past : List Event) : (f.owing past).Follows f past := by
  by_cases hpast : past.any Event.isAdvance = true
  · have hsame : f.owing past = f := if_pos hpast
    refine ⟨?_, ?_, ?_, ?_, ?_, ?_, rfl⟩ <;> rw [hsame]
  · have hrecounted : f.owing past = f.recounted := if_neg hpast
    refine ⟨?_, ?_, ?_, ?_, ?_, ?_, rfl⟩ <;> rw [hrecounted]
    · rfl
    · exact f.ring.current_recounted
    · exact f.ring.tail_recounted
    · exact f.ring.pending_recounted
    · rfl
    · exact congrArg (List.map Event.ran) f.ring.remainder_recounted

theorem Member.Housed.emptied_eq (h : m.Housed) (hup : m.isUpToDate ring seat = true) :
    m.emptied = m ∧ m.batch.isEmpty = true ∧ m.promote = false ∧ ring.current = seat := by
  have hall : (m.batch.isEmpty = true ∧ m.promote = false) ∧ ring.current = seat := by
    simpa [Member.isUpToDate] using hup
  obtain ⟨⟨hempty, hpromote⟩, hcurrent⟩ := hall
  have hbatch : m.batch = .empty := h.empty (by simpa [Batch.isEmpty] using hempty)
  refine ⟨?_, hempty, hpromote, hcurrent⟩
  rw [Member.emptied, ← hbatch, ← hpromote]

theorem Realm.setMember_self (hm : r.member? i = some m) : r.setMember i (some m) = r := by
  obtain ⟨hlt, hi⟩ := List.getElem?_eq_some_iff.mp (Option.join_eq_some_iff.mp hm)
  have hsame : r.members.set i (some m) = r.members := by
    rw [← hi, List.set_getElem_self]
  rw [Realm.setMember, hsame]

/-- A member that is up to date has nothing to hand over before it leaves. -/
theorem Realm.renew_upToDate (hm : r.member? i = some m) (hhoused : m.Housed)
    (hup : m.isUpToDate r.ring seat = true) :
    r.renew i m seat = ⟨r, [.leave i seat, .rejoin i], []⟩ := by
  obtain ⟨hemptied, hempty, hpromote, _⟩ := hhoused.emptied_eq hup
  have hhand : r.handOver m.batch m.promote = .still r := by
    rw [Realm.handOver, hempty, hpromote]
    rfl
  rw [Realm.renew, hemptied, Realm.setMember_self hm, Realm.depart, hhand]
  rfl

theorem Realm.begin_upToDate (hm : r.member? i = some m) (hd : m.depth = 1)
    (hs : m.standing.seat? = some seat) (hup : m.isUpToDate r.ring seat = true) :
    r.begin (.move i .quiesce)
      = .still (r.setMember i (some { m with standing := .quiescent seat })) := by
  have hpinned : r.pinned? i = some m := by
    rw [Realm.pinned?, hm, Option.filter_some, if_pos (by simp [hd])]
  simp [Realm.begin, hpinned, Realm.withMember, Realm.quiesce, hd, hs, hup]

theorem Activity.Steady.quiesces (h : a.Steady) {rest : List Task} (hq : a.Quiesces i rest) :
    Activity.Steady ⟨a.realm, rest, []⟩ := by
  cases hq with
  | act r => exact h
  | deed agenda _ =>
    obtain ⟨t, g, h⟩ := h
    rw [agenda] at h
    exact ⟨t, g, h.flagged, h.housed, h.course.resume⟩

/-- Leaving and entering again takes two tasks, neither of which starts a drain. -/
theorem Activity.Steady.renew (h : a.Steady) (hm : a.realm.member? i = some m)
    (hup : m.isUpToDate a.realm.ring seat = true) :
    ((a.realm.renew i m seat).followedBy a.agenda).steps 2
      = ⟨(a.realm.setMember i (some { m with standing := .quiescent seat })).recounted, a.agenda,
        [.left i seat, .joined i seat]⟩ := by
  obtain ⟨t, g, hsteady⟩ := h
  have hhoused := hsteady.housed i m hm
  obtain ⟨_, _, _, hcurrent⟩ := hhoused.emptied_eq hup
  subst hcurrent
  generalize hreleased : a.realm.ring.release a.realm.ring.current Collector.memberRef = released
  have hlast : released.2 = false := by
    rw [← hreleased]
    exact Collector.release_of_odd hsteady.flagged.odd_current rfl
  have hleave : a.realm.perform (.leave i a.realm.ring.current)
      = ⟨{ a.realm with ring := released.1 }, [], [.left i a.realm.ring.current]⟩ := by
    simp only [Realm.perform, hreleased, hlast]
    rfl
  have hmember : Realm.member? { a.realm with ring := released.1 } i = some m := hm
  have hseat : released.1.enter = (a.realm.ring.recounted, a.realm.ring.current) := by
    rw [← hreleased]
    rfl
  have hrejoin : Realm.perform { a.realm with ring := released.1 } (.rejoin i)
      = ⟨(a.realm.setMember i
          (some { m with standing := .quiescent a.realm.ring.current })).recounted, [],
        [.joined i a.realm.ring.current]⟩ := by
    simp only [Realm.perform, hmember, Realm.withMember, Realm.join, hseat]
    rfl
  rw [Realm.renew_upToDate hm hhoused hup]
  simp [Activity.steps, Activity.step, Activity.followedBy, hleave, hrejoin]

theorem Activity.Steady.stay (h : a.Steady) (hm : a.realm.member? i = some m)
    (hs : m.standing.seat? = some seat) :
    Activity.Steady ⟨a.realm.setMember i (some { m with standing := .quiescent seat }), a.agenda,
      []⟩ := by
  obtain ⟨t, g, h⟩ := h
  have hhoused : Member.Housed { m with standing := .quiescent seat } :=
    ⟨fun hnone => absurd hnone (Option.some_ne_none seat), (h.housed i m hm).empty⟩
  have htends : a.realm.Tends
      (a.realm.setMember i (some { m with standing := .quiescent seat })) := by
    refine h.housed.tends_setMember ?_
    rintro _ ⟨⟩
    exact hhoused.tended_same hm hs.symm
  exact ⟨t, g, h.tends htends h.flagged⟩

/-- After two tasks `move` is as `stay` with somebody recounted, and so it remains. -/
theorem Activity.Steady.follows {stay move : Activity} {moved : List Event} (h : stay.Steady)
    (hmove : move.steps 2 = (stay.owing []).preceded moved) :
    (∀ n, (move.steps (2 + n)).Follows (stay.steps n) moved []) ∧
    ∀ next, let f := stay.thenRun next
      let r := move.thenRun next
      r.2 = moved ++ f.2 ∧ r.1.Follows f.1 f.2 ∧
      ∀ act n, ((r.1.begin act).steps n).Follows ((f.1.begin act).steps n) [] f.2 := by
  have hsteps : ∀ n, move.steps (2 + n) = ((stay.steps n).owing []).preceded moved := by
    intro n
    rw [Activity.steps_add, hmove, Activity.steps_preceded, h.owing_steps]
  refine ⟨fun n => ?_, fun next => ?_⟩
  · rw [hsteps]
    exact ⟨rfl, rfl, Realm.follows_owing _ _⟩
  · -- Both have come to their end after the steps of both budgets.
    have hsettle : move.settle = (stay.settle.owing []).preceded moved := by
      rw [Activity.settle_eq (Nat.le_add_left move.budget (2 + stay.budget)), Nat.add_assoc, hsteps,
        Activity.settle_eq (Nat.le_add_right stay.budget move.budget)]
    have hrealm : move.settle.realm = stay.settle.realm.owing stay.settle.journal := by
      rw [hsettle]
      rfl
    have hjournal : move.settle.journal = moved ++ stay.settle.journal := by
      rw [hsettle]
      rfl
    have hrun := h.settle.owing_run stay.settle.journal next
    have hfinal := h.settle.run next
    simp only [Activity.thenRun, hrealm, hjournal, hrun, List.append_assoc, true_and]
    refine ⟨Realm.follows_owing _ _, fun act n => ?_⟩
    rw [Realm.begin_owing, (hfinal.begin act).owing_steps]
    exact ⟨rfl, rfl, Realm.follows_owing _ _⟩

/-- Suppose a member with a single pin passes a quiescent point and stays where it is, since it has
nothing to hand over and is counted in the current collector. Had it left and entered again, then nothing
would have been drained, and whatever is done from then on, the same would happen at every step: the same
members in the same state, the same collectors current and oldest, the same nodes run in the same order.
All that differs is one entry in the master word and one reference to the current collector, until that
is retired. -/
theorem Activity.quiesce_agrees_renew {threshold : UInt64} (reachable : a.Reachable threshold)
    {rest : List Task} (quiesces : a.Quiesces i rest) (member : a.realm.member? i = some m)
    (single : m.depth = 1) (counted : m.standing.seat? = some seat)
    (up : m.isUpToDate a.realm.ring seat = true) :
    let stay := (a.realm.begin (.move i .quiesce)).followedBy rest
    let move := (a.realm.renew i m seat).followedBy rest
    let moved : List Event := [.left i seat, .joined i seat]
    (∀ n, (move.steps (2 + n)).Follows (stay.steps n) moved []) ∧
    ∀ next, let f := stay.thenRun next
      let r := move.thenRun next
      r.2 = moved ++ f.2 ∧ r.1.Follows f.1 f.2 ∧
      ∀ act n, ((r.1.begin act).steps n).Follows ((f.1.begin act).steps n) [] f.2 := by
  intro stay move moved
  have hsteady := reachable.steady.quiesces quiesces
  have hstay : stay = ⟨a.realm.setMember i (some { m with standing := .quiescent seat }), rest,
      []⟩ := by
    change (a.realm.begin (.move i .quiesce)).followedBy rest = _
    rw [Realm.begin_upToDate member single counted up]
    rfl
  have hmove : move.steps 2 = (stay.owing []).preceded moved := by
    rw [hstay]
    exact hsteady.renew member up
  have hsteady' : stay.Steady := hstay ▸ hsteady.stay member counted
  exact hsteady'.follows hmove

/-- A member that deferred work has registered passes a quiescent point while the oldest collector is
drained, and then defers a note itself. Whether it stays or leaves and enters again, the note is run when
the collector it entered is retired, and the realm is the same from then on. -/
theorem Activity.quiesce_agrees_renew_nested :
    let inner : Script := .register (.move 0 .acquire (.move 0 .quiesce (.defer 0 (.note 7)
      (.move 0 .release .done))))
    let acts : List Realm.Act := [.register, .move 0 .acquire, .defer 0 (.work 6 inner),
      .move 0 .requestAdvance]
    let a := (((Realm.fresh 8).run acts).1.begin (.move 0 .release)).steps 6
    let m : Member := ⟨1, .acquired 1, .empty, false⟩
    let next : List Realm.Act := [.register, .move 2 .acquire, .move 2 .requestAdvance,
      .move 2 .release]
    ∃ rest, a.Quiesces 1 rest ∧ a.realm.member? 1 = some m ∧
      m.isUpToDate a.realm.ring 1 = true ∧
      let stay := ((a.realm.begin (.move 1 .quiesce)).followedBy rest).thenRun next
      let move := ((a.realm.renew 1 m 1).followedBy rest).thenRun next
      Event.notes stay.2 = [7] ∧ move.2 = [.left 1 1, .joined 1 1] ++ stay.2 ∧ move.1 = stay.1 := by
  intro inner acts a m next
  have hagenda : a.agenda = .proceed [1] (.move 0 .quiesce (.defer 0 (.note 7)
      (.move 0 .release .done))) :: [.finish 0 1] := by decide +kernel
  have hquiesces := Activity.Quiesces.deed (i := 1) hagenda rfl
  have hmember : a.realm.member? 1 = some m := by decide +kernel
  have hup : m.isUpToDate a.realm.ring 1 = true := by decide +kernel
  have hreachable : a.Reachable 8 := ⟨acts, .inr ⟨_, _, rfl⟩⟩
  have hagrees := (Activity.quiesce_agrees_renew hreachable hquiesces hmember rfl rfl hup).2 next
  refine ⟨_, hquiesces, hmember, hup, by decide +kernel, hagrees.1, ?_⟩
  refine hagrees.2.1.counts.trans (if_pos ?_)
  decide +kernel

end EpochTable
