import EpochTable.Proofs.Lists
import EpochTable.Proofs.RingWords

namespace EpochTable

theorem Node.effort_eq_sum (nodes : List Node) :
    Node.effort nodes = (nodes.map fun node => node.job.effort).sum :=
  rfl

theorem Realm.effort_eq_sum (r : Realm) :
    r.effort = r.ring.effort + (r.members.map fun m => (m.map Member.effort).getD 0).sum :=
  rfl

theorem Activity.budget_eq_sum (a : Activity) :
    a.budget = (a.agenda.map Task.effort).sum + a.realm.effort :=
  rfl

theorem EpochRing.effort_setCollector (r : EpochRing) (s : Seat) (c : Collector Node) :
    (r.setCollector s c).effort + (r.collector s).effort = r.effort + c.effort := by
  have hs : r.collectors.toList[s.val]? = some (r.collector s) := by
    simp [EpochRing.collector]
  simp only [EpochRing.effort, EpochRing.setCollector, Vector.toList_set]
  exact sum_map_set Collector.effort hs c

theorem EpochRing.effort_of_collectors {r r' : EpochRing} (h : r'.collectors = r.collectors) :
    r'.effort = r.effort := by
  rw [EpochRing.effort, h, EpochRing.effort]

theorem Collector.slack_le (c : Collector Node) : c.slack ≤ 2 := by
  unfold Collector.slack
  split <;> omega

theorem Collector.slack_of_ne {c : Collector Node} (h : c.word ≠ backLink) : c.slack = 0 :=
  if_neg h

theorem Collector.effort_push (c : Collector Node) (b : Batch Node) :
    (c.push b).1.effort = c.effort + Node.effort b.nodes := by
  unfold Collector.push
  split
  next h =>
    have hn : b.nodes = [] := by simpa [Batch.isEmpty] using h
    simp [Node.effort_eq_sum, hn]
  next =>
    simp only [Collector.effort, Node.effort_eq_sum, Collector.slack, List.map_append,
      List.sum_append]
    omega

/-- Taking references away may make a collector wait for its back link only, unless it is drained
at once. -/
theorem Collector.effort_release (c : Collector Node) (amount : UInt64) :
    (c.release amount).1.effort + 4 * (c.release amount).2.toNat ≤ c.effort + 4 := by
  have hs := (c.release amount).1.slack_le
  by_cases h : c.word = amount
  · have h0 : (c.release amount).1.slack = 0 := by
      apply slack_of_ne
      simp [release, h, backLink]
    simp only [effort, h0]
    simp [release, h]
  · have hf : (c.release amount).2 = false := by simpa [release] using h
    simp only [effort, hf, Bool.toNat_false]
    simp only [release] at hs ⊢
    omega

theorem Collector.effort_retire (c : Collector Node) (entered : UInt64) :
    (c.retire entered).1.effort + 4 * (c.retire entered).2.toNat ≤ c.effort + 4 := by
  have hs := (c.retire entered).1.slack_le
  by_cases h : (c.retire entered).1.word = 0
  · have h0 : (c.retire entered).1.slack = 0 := by
      apply slack_of_ne
      simp [h, backLink]
    have ht : (c.retire entered).2 = true := by simpa [retire] using h
    simp only [effort, h0, ht, Bool.toNat_true]
    simp only [retire]
    omega
  · have hf : (c.retire entered).2 = false := by simpa [retire] using h
    simp only [effort, hf, Bool.toNat_false]
    simp only [retire] at hs ⊢
    omega

/-- Taking a back link away starts a drain only where it was expected to. -/
theorem Collector.effort_release_backLink (c : Collector Node) :
    (c.release backLink).1.effort + 4 * (c.release backLink).2.toNat ≤ c.effort + 2 := by
  have hs := (c.release backLink).1.slack_le
  by_cases h : c.word = backLink
  · have h0 : (c.release backLink).1.slack = 0 := by
      apply slack_of_ne
      simp [release, h, backLink]
    have h2 : c.slack = 2 := if_pos h
    simp only [effort, h0, h2]
    simp [release, h]
  · have hf : (c.release backLink).2 = false := by simpa [release] using h
    simp only [effort, hf, Bool.toNat_false]
    simp only [release] at hs ⊢
    omega

theorem EpochRing.effort_release (r : EpochRing) (s : Seat) (amount : UInt64) :
    (r.release s amount).1.effort + 4 * (r.release s amount).2.toNat ≤ r.effort + 4 := by
  have hset := r.effort_setCollector s ((r.collector s).release amount).1
  have hc := (r.collector s).effort_release amount
  simp only [EpochRing.release]
  omega

theorem EpochRing.effort_flush (r : EpochRing) (b : Batch Node) :
    (r.flush b).1.effort = r.effort + Node.effort b.nodes := by
  have hset := r.effort_setCollector r.current ((r.collector r.current).push b).1
  have hc := (r.collector r.current).effort_push b
  simp only [EpochRing.flush]
  omega

theorem EpochRing.effort_advance {r r' : EpochRing} {s : Seat} {last : Bool}
    (h : r.advance s = some (r', last)) : r'.effort + 4 * last.toNat ≤ r.effort + 4 := by
  obtain ⟨_, _, hlast, hring⟩ := EpochRing.advance_eq_some h
  have hset := EpochRing.effort_setCollector { r with master := r.master.advanced } s
    ((r.collector s).retire r.entered).1
  have hc := (r.collector s).effort_retire r.entered
  have hm : EpochRing.effort { r with master := r.master.advanced } = r.effort :=
    EpochRing.effort_of_collectors rfl
  have hs : EpochRing.collector { r with master := r.master.advanced } s = r.collector s := rfl
  rw [← hring, hm, hs] at hset
  rw [← hlast] at hc
  omega

theorem EpochRing.effort_unload (r : EpochRing) (s : Seat) :
    (r.unload s).1.effort + Node.effort (r.unload s).2 = r.effort := by
  have hset := r.effort_setCollector s (r.collector s).unload.1
  have hc : (r.collector s).effort = (r.collector s).unload.1.effort
      + Node.effort (r.collector s).unload.2 := by
    have hslack : (r.collector s).unload.1.slack = (r.collector s).slack := rfl
    have hnone : Node.effort (r.collector s).unload.1.nodes = 0 := rfl
    simp only [Collector.effort, hslack, hnone]
    simp only [Collector.unload]
    omega
  simp only [EpochRing.unload]
  omega

/-- The end of a drain leaves no back link behind, so the next drain it starts is paid for. -/
theorem EpochRing.effort_finishDrain (r : EpochRing) (s : Seat) (n : Nat) :
    (r.finishDrain s n).1.effort + 4 * (r.finishDrain s n).2.toNat ≤ r.effort + 2 := by
  let idle := r.setCollector s (r.collector s).recycle
  let moved : EpochRing :=
    { idle with master := idle.master.drained, reclaimed := idle.reclaimed + n }
  have hrecycle : idle.effort ≤ r.effort := by
    have hset := r.effort_setCollector s (r.collector s).recycle
    have hslack : (r.collector s).recycle.slack = 0 := by
      apply Collector.slack_of_ne
      simp [Collector.recycle, Collector.idleWord, Collector.currentRef, Collector.backLink]
    have hc : (r.collector s).recycle.effort ≤ (r.collector s).effort := by
      have hnodes : (r.collector s).recycle.nodes = (r.collector s).nodes := rfl
      simp only [Collector.effort, hslack, hnodes]
      omega
    change (r.setCollector s (r.collector s).recycle).effort ≤ r.effort
    omega
  have hmoved : moved.effort = idle.effort := EpochRing.effort_of_collectors rfl
  have hset := moved.effort_setCollector s.next
    ((moved.collector s.next).release Collector.backLink).1
  have hc := (moved.collector s.next).effort_release_backLink
  have hdef : r.finishDrain s n = moved.release s.next Collector.backLink := rfl
  rw [hdef]
  simp only [EpochRing.release]
  omega

theorem Realm.effort_setMember {r : Realm} {i : Nat} {m : Member} (h : r.member? i = some m)
    (u : Option Member) :
    (r.setMember i u).effort + m.effort = r.effort + (u.map Member.effort).getD 0 := by
  have hi : r.members[i]? = some (some m) := Option.join_eq_some_iff.mp h
  have hset := sum_map_set (fun m : Option Member => (m.map Member.effort).getD 0) hi u
  simp only [Option.map_some, Option.getD_some] at hset
  simp only [Realm.effort_eq_sum, Realm.setMember]
  omega

theorem Realm.effort_withRing (r : Realm) (ring : EpochRing) :
    Realm.effort { r with ring := ring } + r.ring.effort = r.effort + ring.effort := by
  simp only [Realm.effort_eq_sum]
  omega

theorem Activity.budget_followedBy (a : Activity) (tasks : List Task) :
    (a.followedBy tasks).budget = a.budget + (tasks.map Task.effort).sum := by
  simp only [Activity.budget_eq_sum, Activity.followedBy, List.map_append, List.sum_append]
  omega

theorem Activity.budget_followedBy_singleton (a : Activity) (task : Task) :
    (a.followedBy [task]).budget = a.budget + task.effort := by
  simp [Activity.budget_followedBy]

@[simp] theorem Activity.budget_still (r : Realm) : (Activity.still r).budget = r.effort := by
  simp [Activity.budget_eq_sum, Activity.still]

theorem Realm.budget_handOver (r : Realm) (b : Batch Node) (promote : Bool) :
    (r.handOver b promote).budget ≤ r.effort + Node.effort b.nodes + 5 := by
  unfold Realm.handOver
  split
  next =>
    rw [Activity.budget_still]
    omega
  next =>
    have hflush := r.ring.effort_flush b
    have hring := r.effort_withRing (r.ring.flush b).1
    simp only [Activity.budget_eq_sum]
    split
    · simp only [List.map_cons, List.map_nil, List.sum_cons, List.sum_nil, Task.effort]
      omega
    · simp only [List.map_nil, List.sum_nil]
      omega

theorem Realm.budget_depart {r : Realm} {i : Nat} {m : Member} (h : r.member? i = some m)
    {u : Option Member} (hm : (u.map Member.effort).getD 0 = 0) (seat : Seat) :
    ((r.setMember i u).depart i m seat).budget ≤ r.effort + 10 := by
  have hset := Realm.effort_setMember h u
  have hhand := (r.setMember i u).budget_handOver m.batch m.promote
  have hmember : m.effort = Node.effort m.batch.nodes := rfl
  simp only [Realm.depart, Activity.budget_followedBy_singleton, Task.effort]
  omega

theorem Realm.budget_still_setMember {r : Realm} {i : Nat} {m u : Member} (h : r.member? i = some m)
    (hm : u.batch = m.batch) : (Activity.still (r.setMember i (some u))).budget = r.effort := by
  have hset := Realm.effort_setMember h (some u)
  have heffort : u.effort = m.effort := by rw [Member.effort, hm, Member.effort]
  simp only [Option.map_some, Option.getD_some] at hset
  rw [Activity.budget_still]
  omega

theorem Realm.budget_still_setMember_le {r : Realm} {i n : Nat} {m u : Member}
    (h : r.member? i = some m) (hm : u.batch = m.batch) :
    (Activity.still (r.setMember i (some u))).budget ≤ r.effort + n := by
  rw [Realm.budget_still_setMember h hm]
  omega

theorem Realm.budget_join {r : Realm} {i : Nat} {m u : Member} (h : r.member? i = some m)
    (hm : u.batch = m.batch) (standing : Seat → Standing) :
    (r.join i u standing).budget = r.effort := by
  have hring := r.effort_withRing r.ring.enter.1
  have henter : r.ring.enter.1.effort = r.ring.effort := EpochRing.effort_of_collectors rfl
  have hmember : Realm.member? { r with ring := r.ring.enter.1 } i = some m := h
  have hset := Realm.budget_still_setMember hmember
    (u := { u with standing := standing r.ring.enter.2 }) hm
  simp only [Activity.budget_eq_sum, Realm.join, Activity.still, List.map_nil, List.sum_nil] at hset ⊢
  omega

theorem Node.effort_number (first : Nat) (jobs : List Job) :
    Node.effort (Node.number first jobs) = (jobs.map Job.effort).sum := by
  induction jobs generalizing first with
  | nil => rfl
  | cons job rest ih =>
    have hh := ih (first + 1)
    simp only [Node.effort_eq_sum] at hh
    simp only [Node.number, Node.effort_eq_sum, List.map_cons, List.sum_cons, hh]

theorem Member.effort_defer (m : Member) (nodes : List Node) :
    (nodes.foldl Member.defer m).effort = m.effort + Node.effort nodes := by
  induction nodes generalizing m with
  | nil => simp [Node.effort_eq_sum]
  | cons node rest ih =>
    rw [List.foldl_cons, ih]
    simp only [Member.effort, Member.defer, Batch.push, Node.effort_eq_sum, List.map_cons,
      List.sum_cons]
    omega

theorem Realm.budget_deferAll {r : Realm} {i : Nat} {m u : Member} (h : r.member? i = some m)
    (hm : u.batch = m.batch) (jobs : List Job) :
    (r.deferAll i u jobs).budget = r.effort + (jobs.map Job.effort).sum := by
  have hmember : Realm.member? { r with issued := r.issued + jobs.length } i = some m := h
  have hset := Realm.effort_setMember hmember
    (some ((Node.number r.issued jobs).foldl Member.defer u))
  have heffort : u.effort = m.effort := by rw [Member.effort, hm, Member.effort]
  have hissued : Realm.effort { r with issued := r.issued + jobs.length } = r.effort := rfl
  simp only [Option.map_some, Option.getD_some, Member.effort_defer, Node.effort_number] at hset
  simp only [Activity.budget_eq_sum, Realm.deferAll, List.map_nil, List.sum_nil]
  omega

/-- What an act may add to the effort of a realm. -/
def Realm.Act.effort : Realm.Act → Nat
  | .register => 0
  | .move _ _ => 11
  | .defer _ job => job.effort
  | .retire _ jobs => (jobs.map Job.effort).sum

theorem Realm.member?_of_pinned? {r : Realm} {i : Nat} {m : Member} (h : r.pinned? i = some m) :
    r.member? i = some m :=
  (Option.filter_eq_some_iff.mp h).1

theorem Realm.of_withMember {r : Realm} {member : Option Member} {act : Member → Activity}
    {p : Activity → Prop} (still : p (.still r)) (h : ∀ m, member = some m → p (act m)) :
    p (r.withMember member act) := by
  cases member with
  | none => exact still
  | some m => exact h m rfl

theorem Realm.budget_withMember {r : Realm} {member : Option Member} {act : Member → Activity}
    {n : Nat} (h : ∀ m, member = some m → (act m).budget ≤ r.effort + n) :
    (r.withMember member act).budget ≤ r.effort + n := by
  refine Realm.of_withMember (p := fun a => a.budget ≤ r.effort + n) ?_ h
  rw [Activity.budget_still]
  omega

theorem Realm.budget_acquire {r : Realm} {i : Nat} {m : Member} (h : r.member? i = some m) :
    (r.acquire i m).budget = r.effort := by
  unfold Realm.acquire
  split
  · exact Realm.budget_join (u := { m with depth := 1 }) h rfl _
  · exact Realm.budget_still_setMember h rfl

theorem Realm.budget_release {r : Realm} {i : Nat} {m : Member} (h : r.member? i = some m) :
    (r.release i m).budget ≤ r.effort + 10 := by
  unfold Realm.release
  split
  · exact Realm.budget_still_setMember_le h rfl
  · split
    · exact Realm.budget_still_setMember_le h rfl
    · exact Realm.budget_depart h rfl _

theorem Realm.budget_quiesce {r : Realm} {i : Nat} {m : Member} (h : r.member? i = some m) :
    (r.quiesce i m).budget ≤ r.effort + 11 := by
  unfold Realm.quiesce
  split
  · rw [Activity.budget_still]
    omega
  · split
    · rw [Activity.budget_still]
      omega
    · split
      · exact Realm.budget_still_setMember_le h rfl
      · next seat _ _ =>
        have hdepart := Realm.budget_depart h (u := some m.emptied) rfl seat
        simp only [Realm.renew, Activity.budget_followedBy_singleton, Task.effort]
        omega

theorem Realm.budget_resign {r : Realm} {i : Nat} {m : Member} (h : r.member? i = some m) :
    (r.resign i m).budget ≤ r.effort + 10 := by
  unfold Realm.resign
  split
  · have hset := Realm.effort_setMember h none
    have hmember : m.effort = Node.effort m.batch.nodes := rfl
    have hruns : ((m.batch.nodes.map Task.run).map Task.effort).sum = Node.effort m.batch.nodes := by
      rw [List.map_map]
      rfl
    simp only [Option.map_none, Option.getD_none] at hset
    simp only [Activity.budget_eq_sum, hruns]
    omega
  · exact Realm.budget_depart h rfl _

theorem Realm.budget_begin (r : Realm) (act : Realm.Act) :
    (r.begin act).budget ≤ r.effort + act.effort := by
  cases act with
  | register => simp [Realm.begin, Realm.register, Realm.effort_eq_sum, Realm.Act.effort, Member.effort,
      Member.fresh, Batch.empty, Node.effort_eq_sum]
  | move i move =>
    cases move with
    | acquire =>
      exact Realm.budget_withMember fun m hm => (Realm.budget_acquire hm).le.trans (Nat.le_add_right _ _)
    | release =>
      refine Realm.budget_withMember fun m hm => ?_
      exact (Realm.budget_release (Realm.member?_of_pinned? hm)).trans (by simp [Realm.Act.effort])
    | quiesce =>
      exact Realm.budget_withMember fun m hm => Realm.budget_quiesce (Realm.member?_of_pinned? hm)
    | requestAdvance =>
      refine Realm.budget_withMember fun m hm => ?_
      exact Realm.budget_still_setMember_le (Realm.member?_of_pinned? hm) rfl
    | resign =>
      refine Realm.budget_withMember fun m hm => ?_
      exact (Realm.budget_resign hm).trans (by simp [Realm.Act.effort])
  | defer i job =>
    refine Realm.budget_withMember fun m hm => ?_
    exact (Realm.budget_deferAll (Realm.member?_of_pinned? hm) rfl [job]).le.trans
      (by simp [Realm.Act.effort])
  | retire i jobs =>
    refine Realm.budget_withMember fun m hm => ?_
    unfold Realm.retire
    split
    · rw [Activity.budget_still]
      omega
    · exact (Realm.budget_deferAll (u := m.requestAdvance) (Realm.member?_of_pinned? hm) rfl jobs).le

theorem Realm.of_beginOwn {r : Realm} {own : List Nat} {k : Nat} {act : Nat → Realm.Act}
    {p : Activity → Prop} (still : p (.still r)) (h : ∀ i, own[k]? = some i → p (r.begin (act i))) :
    p (r.beginOwn own k act) := by
  unfold Realm.beginOwn
  split
  next => exact still
  next i hi => exact h i hi

theorem Realm.budget_beginOwn (r : Realm) (own : List Nat) (k : Nat) (act : Nat → Realm.Act)
    {n : Nat} (h : ∀ i, (act i).effort ≤ n) : (r.beginOwn own k act).budget ≤ r.effort + n := by
  refine Realm.of_beginOwn (p := fun a => a.budget ≤ r.effort + n) ?_ fun i _ => ?_
  · rw [Activity.budget_still]
    omega
  · exact (r.budget_begin (act i)).trans (Nat.add_le_add_left (h i) _)

theorem Realm.budget_proceed (r : Realm) (own : List Nat) (script : Script) :
    (r.proceed own script).budget < r.effort + script.effort := by
  cases script with
  | done => simp [Realm.proceed, Script.effort]
  | register rest =>
    have hbegin := r.budget_begin .register
    simp only [Realm.Act.effort] at hbegin
    simp only [Realm.proceed, Activity.budget_followedBy_singleton, Task.effort, Script.effort]
    omega
  | move k move rest =>
    have hown := r.budget_beginOwn own k (.move · move) (n := 11) fun i => le_rfl
    simp only [Realm.proceed, Activity.budget_followedBy_singleton, Task.effort, Script.effort]
    omega
  | defer k job rest =>
    have hown := r.budget_beginOwn own k (.defer · job) (n := job.effort) fun i => le_rfl
    simp only [Realm.proceed, Activity.budget_followedBy_singleton, Task.effort, Script.effort]
    omega

theorem Task.effort_run (node : Node) :
    (Task.proceed [] node.job.script).effort < (Task.run node).effort := by
  cases h : node.job <;> simp [Task.effort, h, Job.script, Job.effort, Script.effort]

/-- Doing a task takes less effort than the task was expected to take. -/
theorem Realm.budget_perform (r : Realm) (task : Task) :
    (r.perform task).budget < r.effort + task.effort := by
  cases task with
  | advance s =>
    simp only [Realm.perform]
    cases h : r.ring.advance s with
    | none => simp [Activity.budget_eq_sum, Task.effort]
    | some advanced =>
      obtain ⟨ring, last⟩ := advanced
      have hadvance := EpochRing.effort_advance h
      have hring := r.effort_withRing ring
      cases last <;> simp [Activity.budget_eq_sum, Task.effort] at hadvance ⊢ <;> omega
  | leave i s =>
    have hrelease := r.ring.effort_release s Collector.memberRef
    have hring := r.effort_withRing (r.ring.release s Collector.memberRef).1
    simp only [Realm.perform]
    cases h : (r.ring.release s Collector.memberRef).2 <;>
      simp [Activity.budget_eq_sum, Task.effort, h] at hrelease ⊢ <;> omega
  | rejoin i =>
    have hjoin : (r.perform (.rejoin i)).budget ≤ r.effort + 0 :=
      Realm.budget_withMember fun m hm => (Realm.budget_join hm rfl _).le
    simp only [Task.effort]
    omega
  | drain s =>
    have hunload := r.ring.effort_unload s
    have hring := r.effort_withRing (r.ring.unload s).1
    have hruns : (((r.ring.unload s).2.map Task.run).map Task.effort).sum
        = Node.effort (r.ring.unload s).2 := by
      rw [List.map_map]
      rfl
    simp only [Realm.perform, Activity.budget_eq_sum, List.map_append, List.sum_append, hruns,
      List.map_cons, List.map_nil, List.sum_cons, List.sum_nil, Task.effort]
    omega
  | run node =>
    have hrun := Task.effort_run node
    simp only [Realm.perform, Activity.budget_eq_sum, List.map_cons, List.map_nil, List.sum_cons,
      List.sum_nil]
    omega
  | proceed own script => exact r.budget_proceed own script
  | finish s n =>
    have hfinish := r.ring.effort_finishDrain s n
    have hring := r.effort_withRing (r.ring.finishDrain s n).1
    simp only [Realm.perform]
    cases h : (r.ring.finishDrain s n).2 <;>
      simp [Activity.budget_eq_sum, Task.effort, h] at hfinish ⊢ <;> omega

theorem Activity.budget_step {a : Activity} (h : a.agenda ≠ []) : a.step.budget < a.budget := by
  obtain ⟨task, rest, hagenda⟩ := List.exists_cons_of_ne_nil h
  have hperform := a.realm.budget_perform task
  simp only [Activity.step, hagenda]
  simp only [Activity.budget_eq_sum, hagenda, List.map_append, List.sum_append, List.map_cons,
    List.sum_cons] at hperform ⊢
  omega

theorem Activity.steps_agenda {n : Nat} {a : Activity} (h : a.budget ≤ n) :
    (a.steps n).agenda = [] := by
  induction n generalizing a with
  | zero =>
    by_contra hne
    have := Activity.budget_step (a := a) hne
    omega
  | succ n ih =>
    unfold Activity.steps
    split
    next hempty => simpa using hempty
    next hempty =>
      have hstep := Activity.budget_step (a := a) (by simpa using hempty)
      exact ih (by omega)

/-- Whatever the state of the ring, the tasks at hand come to an end. -/
theorem Activity.settle_agenda (a : Activity) : a.settle.agenda = [] :=
  Activity.steps_agenda le_rfl

end EpochTable
