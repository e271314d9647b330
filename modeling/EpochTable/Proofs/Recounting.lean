import EpochTable.Proofs.OneDrain
import EpochTable.Proofs.Reclamation

namespace EpochTable

variable {r : Realm} {ring : EpochRing} {a : Activity} {c : Collector Node} {s : Seat} {amount : UInt64}
  {task : Task} {past : List Event}

/-- Somebody has left the current collector and entered it again. -/
def EpochRing.recounted (ring : EpochRing) : EpochRing :=
  (ring.release ring.current Collector.memberRef).1.enter.1

def Realm.recounted (r : Realm) : Realm := { r with ring := r.ring.recounted }

def Activity.recounted (a : Activity) : Activity := { a with realm := a.realm.recounted }

def Event.isAdvance : Event → Bool
  | .advanced _ => true
  | _ => false

/-- The realm as it is when somebody has been recounted, before the events of `past`: as if nothing had
been, once the collector has been retired. -/
def Realm.owing (r : Realm) (past : List Event) : Realm :=
  if past.any Event.isAdvance then r else r.recounted

def Activity.owing (a : Activity) (past : List Event) : Activity :=
  { a with realm := a.realm.owing (past ++ a.journal) }

def Activity.preceded (a : Activity) (events : List Event) : Activity :=
  { a with journal := events ++ a.journal }

theorem EpochRing.ext_collector {ring ring' : EpochRing} (hm : ring.master = ring'.master)
    (ht : ring.threshold = ring'.threshold) (hr : ring.reclaimed = ring'.reclaimed)
    (hc : ∀ s : Seat, ring.collector s = ring'.collector s) : ring = ring' := by
  obtain ⟨master, collectors, threshold, reclaimed⟩ := ring
  obtain ⟨master', collectors', threshold', reclaimed'⟩ := ring'
  have hcollectors : collectors = collectors' := by
    apply Vector.ext
    intro k hk
    exact hc ⟨k, hk⟩
  cases hm
  cases ht
  cases hr
  cases hcollectors
  rfl

theorem MasterWord.advanced_joined (w : MasterWord) : w.joined.advanced = w.advanced := by
  rw [MasterWord.advanced, current_joined, tail_joined, MasterWord.advanced]

theorem MasterWord.drained_joined (w : MasterWord) : w.joined.drained = w.drained.joined := by
  have hw := w.raw.toNat_lt
  have hc := w.current.isLt
  have ht := w.tail.next.isLt
  simp only [ringSize] at hc ht
  have hraw : w.joined.drained.raw.toNat = w.drained.joined.raw.toNat := by
    rw [toNat_joined, MasterWord.drained, MasterWord.drained, toNat_make, toNat_make, current_joined,
      tail_joined, toNat_entered, toNat_entered, toNat_joined]
    omega
  exact congrArg MasterWord.mk (UInt64.toNat_inj.mp hraw)

theorem Collector.push_release (c : Collector Node) (amount : UInt64) (b : Batch Node) :
    (c.release amount).1.push b = (((c.push b).1.release amount).1, (c.push b).2) := by
  unfold Collector.push
  split <;> rfl

theorem Collector.release_comm (c : Collector Node) (x y : UInt64) :
    ((c.release x).1.release y).1 = ((c.release y).1.release x).1 := by
  have hword : c.word - x - y = c.word - y - x := by grind
  simp only [Collector.release, hword]

/-- An entry that has been counted and a reference that is missing cancel out. -/
theorem Collector.retire_release (c : Collector Node) {x y : UInt64} (h : 256 * y = 256 * x + 256) :
    (c.release Collector.memberRef).1.retire y = c.retire x := by
  have hword : c.word - memberRef + (y * memberRef - currentRef)
      = c.word + (x * memberRef - currentRef) := by
    simp only [memberRef, currentRef]
    grind
  simp only [Collector.retire, Collector.release, hword]

/-- The lowest bit is the reference of being current; while it is set, the last one is not taken. -/
theorem Collector.release_of_odd (h : c.word.toNat % 2 = 1) (ha : amount.toNat % 2 = 0) :
    (c.release amount).2 = false := by
  refine decide_eq_false fun hw => ?_
  rw [hw] at h
  omega

theorem Collector.odd_release (h : c.word.toNat % 2 = 1) :
    (c.release memberRef).1.word.toNat % 2 = 1 := by
  have hlt := c.word.toNat_lt
  simp only [Collector.release, memberRef, UInt64.toNat_sub, UInt64.toNat_ofNat, Nat.reducePow,
    Nat.reduceMod]
  omega

theorem EpochRing.entered_recounted (ring : EpochRing) :
    256 * ring.recounted.entered = 256 * ring.entered + 256 :=
  MasterWord.entered_joined _

@[simp] theorem EpochRing.current_recounted (ring : EpochRing) :
    ring.recounted.current = ring.current := MasterWord.current_joined _

@[simp] theorem EpochRing.tail_recounted (ring : EpochRing) : ring.recounted.tail = ring.tail :=
  MasterWord.tail_joined _

@[simp] theorem EpochRing.threshold_recounted (ring : EpochRing) :
    ring.recounted.threshold = ring.threshold := rfl

@[simp] theorem EpochRing.reclaimed_recounted (ring : EpochRing) :
    ring.recounted.reclaimed = ring.reclaimed := rfl

theorem EpochRing.collector_recounted (ring : EpochRing) (s : Seat) : ring.recounted.collector s =
    if ring.current = s then ((ring.collector s).release Collector.memberRef).1
    else ring.collector s :=
  ring.collector_release _ _ _

theorem EpochRing.enter_recounted (ring : EpochRing) :
    ring.recounted.enter = (ring.enter.1.recounted, ring.enter.2) := by
  refine Prod.ext (EpochRing.ext_collector rfl rfl rfl fun s => ?_) ring.current_recounted
  have hcurrent : ring.enter.1.current = ring.current := MasterWord.current_joined _
  have henter : ∀ ring : EpochRing, ring.enter.1.collector s = ring.collector s := fun _ => rfl
  rw [henter, EpochRing.collector_recounted, EpochRing.collector_recounted, hcurrent, henter]

theorem EpochRing.flush_recounted (ring : EpochRing) (b : Batch Node) :
    ring.recounted.flush b = ((ring.flush b).1.recounted, (ring.flush b).2) := by
  have hcurrent : (ring.flush b).1.current = ring.current := rfl
  refine Prod.ext (EpochRing.ext_collector rfl rfl rfl fun s => ?_) (Prod.ext ?_ ?_)
  · rw [EpochRing.collector_flush, EpochRing.current_recounted, EpochRing.collector_recounted,
      EpochRing.collector_recounted, EpochRing.collector_flush, hcurrent]
    split
    · rw [Collector.push_release]
    · rfl
  · exact ring.current_recounted
  · change ((ring.recounted.collector ring.recounted.current).push b).2
      = ((ring.collector ring.current).push b).2
    rw [EpochRing.current_recounted, EpochRing.collector_recounted, if_pos rfl,
      Collector.push_release]

theorem EpochRing.unload_recounted (ring : EpochRing) (s : Seat) :
    ring.recounted.unload s = ((ring.unload s).1.recounted, (ring.unload s).2) := by
  have hcurrent : (ring.unload s).1.current = ring.current := rfl
  refine Prod.ext (EpochRing.ext_collector rfl rfl rfl fun t => ?_) ?_
  · rw [EpochRing.collector_unload, EpochRing.collector_recounted, EpochRing.collector_recounted,
      EpochRing.collector_unload, hcurrent]
    split <;> split <;> rfl
  · change (ring.recounted.collector s).nodes = (ring.collector s).nodes
    rw [EpochRing.collector_recounted]
    split <;> rfl

theorem EpochRing.advance_recounted (ring : EpochRing) (s : Seat) :
    ring.recounted.advance s = ring.advance s := by
  unfold EpochRing.advance
  rw [EpochRing.current_recounted, EpochRing.tail_recounted]
  split
  next => rfl
  next hh =>
    have hs : ring.current = s := by
      by_contra hne
      exact hh (.inl hne)
    have hretire : (ring.recounted.collector s).retire ring.recounted.entered
        = (ring.collector s).retire ring.entered := by
      rw [EpochRing.collector_recounted, if_pos hs, Collector.retire_release _ ring.entered_recounted]
    -- The rings differ in the collector at `s` and in the master word only; both are replaced.
    have hring : ∀ k, EpochRing.setCollector
        { ring.recounted with master := ring.recounted.master.advanced } s k
          = EpochRing.setCollector { ring with master := ring.master.advanced } s k := by
      refine fun k => EpochRing.ext_collector ?_ ring.threshold_recounted ring.reclaimed_recounted
        fun t => ?_
      · exact ring.master.advanced_joined
      · rw [EpochRing.collector_setCollector, EpochRing.collector_setCollector]
        split
        next => rfl
        next hne => exact (ring.collector_recounted t).trans (if_neg (hs ▸ hne))
    rw [hretire]
    simp only [hring]

/-- Whether a release takes the last reference is the same as well. -/
theorem EpochRing.last_recounted (odd : (ring.collector ring.current).word.toNat % 2 = 1)
    (s : Seat) (ha : amount.toNat % 2 = 0) :
    ((ring.recounted.collector s).release amount).2 = ((ring.collector s).release amount).2 := by
  rw [EpochRing.collector_recounted]
  split
  next hs =>
    subst hs
    rw [Collector.release_of_odd (Collector.odd_release odd) ha, Collector.release_of_odd odd ha]
  next => rfl

theorem EpochRing.release_recounted (odd : (ring.collector ring.current).word.toNat % 2 = 1)
    (s : Seat) (ha : amount.toNat % 2 = 0) :
    ring.recounted.release s amount
      = ((ring.release s amount).1.recounted, (ring.release s amount).2) := by
  have hcurrent : (ring.release s amount).1.current = ring.current := rfl
  refine Prod.ext (EpochRing.ext_collector rfl rfl rfl fun t => ?_) ?_
  · rw [EpochRing.collector_release, EpochRing.collector_recounted, EpochRing.collector_recounted,
      EpochRing.collector_release, hcurrent]
    split <;> split <;> first | rfl | exact Collector.release_comm _ _ _
  · exact EpochRing.last_recounted odd s ha

theorem EpochRing.snd_finishDrain (ring : EpochRing) (s : Seat) (n : Nat) :
    (ring.finishDrain s n).2 = ((ring.collector s.next).release Collector.backLink).2 := by
  have hnext : (ring.setCollector s (ring.collector s).recycle).collector s.next
      = ring.collector s.next := by
    rw [EpochRing.collector_setCollector, if_neg s.next_ne.symm]
  rw [← hnext]
  rfl

theorem EpochRing.finishDrain_recounted (odd : (ring.collector ring.current).word.toNat % 2 = 1)
    (hs : s ≠ ring.current) (n : Nat) :
    ring.recounted.finishDrain s n
      = ((ring.finishDrain s n).1.recounted, (ring.finishDrain s n).2) := by
  have hcurrent : (ring.finishDrain s n).1.current = ring.current := MasterWord.current_drained _
  refine Prod.ext (EpochRing.ext_collector ?_ rfl rfl fun t => ?_) ?_
  · exact ring.master.drained_joined
  · rw [EpochRing.collector_finishDrain, EpochRing.collector_recounted,
      EpochRing.collector_recounted, EpochRing.collector_finishDrain, hcurrent]
    by_cases ht : s = t
    · rw [if_pos ht, if_pos ht, if_neg (ht ▸ hs.symm), if_neg (ht ▸ hs.symm)]
    · rw [if_neg ht, if_neg ht]
      split <;> split <;> first | rfl | exact Collector.release_comm _ _ _
  · rw [EpochRing.snd_finishDrain, EpochRing.snd_finishDrain]
    exact EpochRing.last_recounted odd s.next rfl

/-- The nodes stay where they are. -/
theorem EpochRing.map_recounted {α : Type} (ring : EpochRing) {g : Collector Node → α}
    (hg : ∀ c : Collector Node, g (c.release Collector.memberRef).1 = g c) :
    ring.recounted.collectors.toList.map g = ring.collectors.toList.map g := by
  apply List.ext_getElem (by simp)
  intro k hk hk'
  have hlt : k < ringSize := by simpa using hk'
  have hcollector := congrArg g (ring.collector_recounted ⟨k, hlt⟩)
  simp only [List.getElem_map, Vector.getElem_toList]
  refine hcollector.trans ?_
  split
  · exact hg _
  · rfl

theorem EpochRing.pending_recounted (ring : EpochRing) : ring.recounted.pending = ring.pending := by
  exact congrArg List.sum (ring.map_recounted (g := Collector.size) fun _ => rfl)

theorem EpochRing.remainder_recounted (ring : EpochRing) :
    ring.recounted.remainder = ring.remainder := by
  have hnodes := ring.map_recounted (g := Collector.nodes) fun _ => rfl
  rw [EpochRing.remainder, List.flatMap_def, hnodes, ← List.flatMap_def, EpochRing.remainder]

theorem Realm.withMember_recounted {member : Option Member} {act act' : Member → Activity}
    (h : ∀ m, act' m = (act m).recounted) :
    r.recounted.withMember member act' = (r.withMember member act).recounted := by
  cases member with
  | none => rfl
  | some m => exact h m

theorem Realm.join_recounted (r : Realm) (i : Nat) (m : Member) (standing : Seat → Standing) :
    r.recounted.join i m standing = (r.join i m standing).recounted := by
  have henter : r.recounted.ring.enter = (r.ring.enter.1.recounted, r.ring.enter.2) :=
    r.ring.enter_recounted
  simp only [Realm.join, henter]
  rfl

theorem Realm.handOver_recounted (r : Realm) (b : Batch Node) (promote : Bool) :
    r.recounted.handOver b promote = (r.handOver b promote).recounted := by
  unfold Realm.handOver
  split
  next => rfl
  next =>
    have hflush : r.recounted.ring.flush b
        = ((r.ring.flush b).1.recounted, (r.ring.flush b).2) := r.ring.flush_recounted b
    rw [hflush]
    rfl

theorem Realm.depart_recounted (r : Realm) (i : Nat) (w : Option Member) (m : Member) (seat : Seat) :
    (r.recounted.setMember i w).depart i m seat = ((r.setMember i w).depart i m seat).recounted :=
  congrArg (·.followedBy [.leave i seat]) ((r.setMember i w).handOver_recounted m.batch m.promote)

/-- No act asks how many have entered. -/
theorem Realm.begin_recounted (r : Realm) (act : Realm.Act) :
    r.recounted.begin act = (r.begin act).recounted := by
  cases act with
  | register => rfl
  | move i move =>
    cases move with
    | acquire =>
      refine Realm.withMember_recounted fun m => ?_
      unfold Realm.acquire
      split
      · exact r.join_recounted _ _ _
      · rfl
    | release =>
      refine Realm.withMember_recounted fun m => ?_
      unfold Realm.release
      split
      · rfl
      · split
        · rfl
        · exact r.depart_recounted _ _ _ _
    | quiesce =>
      refine Realm.withMember_recounted fun m => ?_
      unfold Realm.quiesce
      split
      · rfl
      · split
        · rfl
        next seat _ =>
          have hup : m.isUpToDate r.recounted.ring seat = m.isUpToDate r.ring seat := by
            have hcurrent : r.recounted.ring.current = r.ring.current := r.ring.current_recounted
            rw [Member.isUpToDate, hcurrent, Member.isUpToDate]
          rw [hup]
          split
          · rfl
          · exact congrArg (·.followedBy [.rejoin i]) (r.depart_recounted _ _ _ _)
    | requestAdvance => exact Realm.withMember_recounted fun m => rfl
    | resign =>
      refine Realm.withMember_recounted fun m => ?_
      unfold Realm.resign
      split
      · rfl
      · exact r.depart_recounted _ _ _ _
  | defer i job => exact Realm.withMember_recounted fun m => rfl
  | retire i jobs =>
    refine Realm.withMember_recounted fun m => ?_
    unfold Realm.retire
    split <;> rfl

theorem Realm.beginOwn_recounted (r : Realm) (own : List Nat) (k : Nat) (act : Nat → Realm.Act) :
    r.recounted.beginOwn own k act = (r.beginOwn own k act).recounted := by
  unfold Realm.beginOwn
  split
  · rfl
  · exact r.begin_recounted _

theorem Realm.proceed_recounted (r : Realm) (own : List Nat) (script : Script) :
    r.recounted.proceed own script = (r.proceed own script).recounted := by
  cases script with
  | done => rfl
  | register next => rfl
  | move k move next =>
    exact congrArg (·.followedBy [.proceed own next]) (r.beginOwn_recounted own k _)
  | defer k job next =>
    exact congrArg (·.followedBy [.proceed own next]) (r.beginOwn_recounted own k _)

theorem Event.any_isAdvance_of_opening {events : List Event} (h : ∀ event ∈ events, event.IsOpening) :
    events.any Event.isAdvance = false := by
  refine List.any_eq_false.mpr fun event hevent => ?_
  have hopening := h event hevent
  cases event with
  | advanced seat => cases hopening
  | _ => exact Bool.false_ne_true

theorem Activity.owing_eq (h : (past ++ a.journal).any Event.isAdvance = false) :
    a.owing past = a.recounted := by
  rw [Activity.owing, Realm.owing, if_neg (by simp [h])]
  rfl

theorem Activity.owing_nil (h : a.journal.any Event.isAdvance = false) :
    a.owing [] = a.recounted :=
  Activity.owing_eq h

theorem Activity.owing_eq_self (h : (past ++ a.journal).any Event.isAdvance = true) :
    a.owing past = a := by
  rw [Activity.owing, Realm.owing, if_pos h]

/-- A task does with a realm recounted what it does with the realm, and an advance makes the two the
same. -/
theorem Realm.perform_recounted (odd : (r.ring.collector r.ring.current).word.toNat % 2 = 1)
    (hfinish : ∀ s n, task = .finish s n → s ≠ r.ring.current) :
    r.recounted.perform task = (r.perform task).owing [] := by
  cases task with
  | advance s =>
    have hadvance : r.recounted.ring.advance s = r.ring.advance s := r.ring.advance_recounted s
    have hcurrent : r.recounted.ring.current = r.ring.current := r.ring.current_recounted
    simp only [Realm.perform, hadvance, hcurrent]
    split
    next => split <;> rfl
    next => rfl
  | leave i s =>
    have hrelease : r.ring.recounted.release s Collector.memberRef = _ :=
      EpochRing.release_recounted odd s rfl
    rw [Activity.owing_nil rfl]
    simp only [Realm.perform, Realm.recounted, hrelease]
    rfl
  | rejoin i =>
    have hjoin : (r.perform (.rejoin i)).journal.any Event.isAdvance = false :=
      Realm.of_withMember (p := fun a => a.journal.any Event.isAdvance = false) rfl fun _ _ => rfl
    rw [Activity.owing_nil hjoin]
    exact Realm.withMember_recounted fun m => r.join_recounted i m _
  | drain s =>
    have hunload := r.ring.unload_recounted s
    rw [Activity.owing_nil rfl]
    simp only [Realm.perform, Realm.recounted, hunload]
    rfl
  | run node => rfl
  | proceed own script =>
    have hproceed : (r.perform (.proceed own script)).journal.any Event.isAdvance = false :=
      Event.any_isAdvance_of_opening (r.isOpening_proceed own script)
    rw [Activity.owing_nil hproceed]
    exact r.proceed_recounted own script
  | finish s n =>
    have hdrain := EpochRing.finishDrain_recounted odd (hfinish s n rfl) n
    rw [Activity.owing_nil rfl]
    simp only [Realm.perform, Realm.recounted, hdrain]
    rfl

theorem Realm.owing_append (h : past.any Event.isAdvance = false) (r : Realm) (events : List Event) :
    r.owing (past ++ events) = r.owing events := by
  rw [Realm.owing, List.any_append, h, Bool.false_or, Realm.owing]

theorem Realm.begin_owing (r : Realm) (past : List Event) (act : Realm.Act) :
    (r.owing past).begin act = (r.begin act).owing past := by
  by_cases hpast : past.any Event.isAdvance = true
  · rw [Realm.owing, if_pos hpast, Activity.owing_eq_self (by rw [List.any_append, hpast, Bool.true_or])]
  · rw [Realm.owing, if_neg hpast, Activity.owing_eq]
    · exact r.begin_recounted act
    · rw [List.any_append, Event.any_isAdvance_of_opening (r.isOpening_begin act), Bool.or_false]
      exact Bool.eq_false_iff.mpr hpast

theorem Activity.Steady.owing_step (h : a.Steady) (past : List Event) :
    (a.owing past).step = a.step.owing past := by
  by_cases hpast : (past ++ a.journal).any Event.isAdvance = true
  · -- The two are the same already, and no later event undoes that.
    have hstep : (past ++ a.step.journal).any Event.isAdvance = true := by
      obtain ⟨later, hlater⟩ := a.journal_step
      rw [← hlater, ← List.append_assoc, List.any_append, hpast, Bool.true_or]
    rw [Activity.owing_eq_self hpast, Activity.owing_eq_self hstep]
  · have hnone := Bool.eq_false_iff.mpr hpast
    rw [Activity.owing_eq hnone]
    cases hagenda : a.agenda with
    | nil =>
      have hstep : a.step = a := by rw [Activity.step, hagenda]
      have hstep' : a.recounted.step = a.recounted := by
        unfold Activity.step
        have hagenda' : a.recounted.agenda = [] := hagenda
        rw [hagenda']
      rw [hstep, hstep', Activity.owing_eq hnone]
    | cons task rest =>
      have hfinish : ∀ s n, task = .finish s n → s ≠ a.realm.ring.current := fun s n ht =>
        h.finish_ne_current (ht ▸ hagenda)
      have hperform := Realm.perform_recounted h.odd_current hfinish
      have hagenda' : a.recounted.agenda = task :: rest := hagenda
      have hrealm : a.recounted.realm = a.realm.recounted := rfl
      rw [Activity.step, hagenda', Activity.step, hagenda]
      simp only [hrealm, hperform, Activity.owing, ← List.append_assoc, Realm.owing_append hnone]
      rfl

theorem Activity.Steady.owing_steps (h : a.Steady) (past : List Event) (n : Nat) :
    (a.owing past).steps n = (a.steps n).owing past := by
  induction n generalizing a with
  | zero => rfl
  | succ n ih =>
    have hagenda : (a.owing past).agenda = a.agenda := rfl
    rw [Activity.steps, Activity.steps, hagenda]
    split
    next => rfl
    next => rw [h.owing_step past, ih h.step]

theorem Activity.steps_add (k n : Nat) (a : Activity) : a.steps (k + n) = (a.steps k).steps n := by
  induction k generalizing a with
  | zero => rw [Nat.zero_add, Activity.steps]
  | succ k ih =>
    by_cases hempty : a.agenda = []
    · rw [Activity.steps_idle hempty, Activity.steps_idle hempty, Activity.steps_idle hempty]
    · have hagenda : ¬ a.agenda.isEmpty = true := by simpa using hempty
      rw [Nat.succ_add, Activity.steps, if_neg hagenda, Activity.steps, if_neg hagenda, ih]

/-- More steps than the budget lead no further. -/
theorem Activity.settle_eq {n : Nat} (h : a.budget ≤ n) : a.settle = a.steps n := by
  obtain ⟨k, rfl⟩ := Nat.exists_eq_add_of_le h
  rw [Activity.steps_add]
  exact (Activity.steps_idle a.settle_agenda k).symm

theorem Activity.Steady.owing_settle (h : a.Steady) (past : List Event) :
    (a.owing past).settle = a.settle.owing past := by
  rw [Activity.settle_eq (Nat.le_add_right (a.owing past).budget a.budget),
    Activity.settle_eq (Nat.le_add_left a.budget (a.owing past).budget), h.owing_steps]

theorem Activity.Steady.owing_apply (h : (Activity.still r).Steady) (past : List Event)
    (act : Realm.Act) : (r.owing past).apply act
      = ((r.apply act).1.owing (past ++ (r.apply act).2), (r.apply act).2) := by
  rw [Realm.apply, Realm.begin_owing, (h.begin act).owing_settle]
  rfl

theorem Activity.Steady.owing_run (h : (Activity.still r).Steady) (past : List Event)
    (acts : List Realm.Act) : (r.owing past).run acts
      = ((r.run acts).1.owing (past ++ (r.run acts).2), (r.run acts).2) := by
  induction acts generalizing r past with
  | nil =>
    rw [Realm.run, Realm.run, List.append_nil]
  | cons act acts ih =>
    have hrest : (Activity.still (r.apply act).1).Steady := (h.begin act).settle
    simp only [Realm.run_cons, h.owing_apply, ih hrest, List.append_assoc]

theorem Activity.step_preceded (a : Activity) (events : List Event) :
    (a.preceded events).step = a.step.preceded events := by
  obtain ⟨r, agenda, journal⟩ := a
  cases agenda with
  | nil => rfl
  | cons task rest => simp only [Activity.step, Activity.preceded, List.append_assoc]

theorem Activity.steps_preceded (a : Activity) (events : List Event) (n : Nat) :
    (a.preceded events).steps n = (a.steps n).preceded events := by
  induction n generalizing a with
  | zero => rfl
  | succ n ih =>
    have hagenda : (a.preceded events).agenda = a.agenda := rfl
    rw [Activity.steps, Activity.steps, hagenda]
    split
    next => rfl
    next => rw [a.step_preceded, ih]

end EpochTable
