import EpochTable.Proofs.RealmHistory
import EpochTable.Proofs.Turns

namespace EpochTable

variable {r r' : Realm} {i : Nat} {m u : Member} {w : Option Member} {seat : Seat} {node : Node}
  {past new journal : List Event} {e : Event} {tasks rest : List Task} {a : Activity}

/-- A task that can wait until everything before it is done. -/
def Task.Patient : Task → Prop
  | .advance _ | .drain _ => False
  | _ => True

def Task.finished? : Task → Option Seat
  | .finish seat _ => some seat
  | _ => none

theorem Task.finished?_runs (nodes : List Node) :
    (nodes.map Task.run).filterMap Task.finished? = [] := by
  simp [List.filterMap_eq_nil_iff, Task.finished?]

theorem Task.finished?_drain_if (last : Bool) (s : Seat) (rest : List Task) :
    ((if last then [Task.drain s] else []) ++ rest).filterMap Task.finished?
      = rest.filterMap Task.finished? := by
  cases last <;> rfl

/-- How the tasks begin, as the journal tells: nothing is urgent, or a drain begins, or a member is
about to leave, maybe after the answer to its request. -/
inductive Realm.Due (r : Realm) (journal : List Event) : Stage → List Task → Prop
  | rests {t : Stage} {rest : List Task} (ht : t.Rests) (h : ∀ task ∈ rest, task.Patient) :
    r.Due journal t rest
  | drain (seat : Seat) {rest : List Task} (h : ∀ task ∈ rest, task.Patient) :
    r.Due journal (.released seat) (.drain seat :: rest)
  | advance (i : Nat) (seat : Seat) {nodes : List Node} {rest : List Task}
    (owned : ∀ node ∈ nodes, .deferred i node ∈ journal) (h : ∀ task ∈ rest, task.Patient) :
    r.Due journal (.handed r.ring.current nodes) (.advance r.ring.current :: .leave i seat :: rest)
  | leave (i : Nat) (seat : Seat) {t : Stage} {rest : List Task}
    (owned : ∀ node ∈ t.batch, .deferred i node ∈ journal) (h : ∀ task ∈ rest, task.Patient) :
    r.Due journal t (.leave i seat :: rest)

/-- The member has only nodes that it has deferred itself. -/
def Member.Owns (journal : List Event) (i : Nat) (member : Option Member) : Prop :=
  ∀ node ∈ Member.held member, .deferred i node ∈ journal

theorem Member.Owns.append (h : Member.Owns past i w) (new : List Event) :
    Member.Owns (past ++ new) i w :=
  fun node hnode => List.mem_append_left _ (h node hnode)

theorem Member.owns_of_batch (hu : u.batch = m.batch) (h : Member.Owns past i (some m)) :
    Member.Owns past i (some u) := by
  change ∀ node ∈ u.batch.nodes, _
  rw [hu]
  exact h

/-- So far everything has happened in turn; everybody has only nodes of their own; and the drain that
has begun is the first one to be finished. -/
structure Realm.InOrder (r : Realm) (journal : List Event) (agenda : List Task) : Prop where
  follows : Event.AllFollow [] journal
  owned : ∀ i, Member.Owns journal i (r.member? i)
  draining : Event.draining? journal = (agenda.filterMap Task.finished?).head?

structure Realm.TakesTurns (r : Realm) (journal : List Event) (agenda : List Task) : Prop
    extends r.InOrder journal agenda where
  due : r.Due journal (Event.stage journal) agenda

/-- Anybody may act. -/
structure Realm.Calm (r : Realm) (journal : List Event) (agenda : List Task) : Prop
    extends r.InOrder journal agenda where
  rests : (Event.stage journal).Rests
  patient : ∀ task ∈ agenda, task.Patient

def Activity.TakesTurns (a : Activity) (past : List Event) (rest : List Task) : Prop :=
  a.realm.TakesTurns (past ++ a.journal) (a.agenda ++ rest)

/-- One event more, and what is due after it. -/
theorem Realm.InOrder.follow {agenda : List Task} (h : r.InOrder past agenda)
    (hr : r'.members = r.members) (he : e.Follows past)
    (draining : Event.drainingAfter (Event.draining? past) e
      = (tasks.filterMap Task.finished?).head?)
    (due : r'.Due (past ++ [e]) ((Event.stage past).after e) tasks) :
    r'.TakesTurns (past ++ [e]) tasks := by
  refine ⟨⟨Event.allFollow_append.mpr ⟨h.follows, he, trivial⟩, fun j => ?_, ?_⟩, ?_⟩
  · rw [Realm.member?, hr]
    exact (h.owned j).append _
  · rw [Event.draining?_concat, draining]
  · rw [Event.stage_concat]
    exact due

theorem Realm.Calm.takesTurns (h : r.Calm past rest) : r.TakesTurns past rest :=
  { h with due := .rests h.rests h.patient }

theorem Realm.Calm.quiet (h : r.Calm past rest) (hnew : ∀ e ∈ new, e.Quiet)
    (owned : ∀ j, Member.Owns (past ++ new) j (r'.member? j)) : r'.Calm (past ++ new) rest := by
  obtain ⟨hfollow, hrest, hdraining⟩ := Event.allFollow_of_quiet h.rests hnew
  exact ⟨⟨Event.allFollow_append.mpr ⟨h.follows, hfollow⟩, owned, hdraining.trans h.draining⟩,
    hrest, h.patient⟩

theorem Realm.Calm.still (h : r.Calm past rest) : (Activity.still r).TakesTurns past rest := by
  simpa [Activity.TakesTurns, Activity.still] using h.takesTurns

/-- Tasks are planned that can wait and finish no drain. -/
theorem Realm.Calm.plan (h : r.Calm past rest) (tasks : List Task)
    (hnew : ∀ task ∈ tasks, task.Patient) (hfinished : tasks.filterMap Task.finished? = []) :
    r.Calm past (tasks ++ rest) := by
  refine ⟨⟨h.follows, h.owned, ?_⟩, h.rests, List.forall_mem_append.mpr ⟨hnew, h.patient⟩⟩
  rw [List.filterMap_append, hfinished]
  exact h.draining

theorem Realm.Calm.of_cons {task : Task} (h : r.Calm past (task :: rest))
    (hd : task.finished? = none) : r.Calm past rest := by
  refine ⟨⟨h.follows, h.owned, ?_⟩, h.rests, (List.forall_mem_cons.mp h.patient).2⟩
  rw [h.draining, List.filterMap_cons_none hd]

theorem Realm.Calm.setMember (h : r.Calm past rest) (hw : Member.Owns past i w) :
    (r.setMember i w).Calm past rest :=
  ⟨⟨h.follows, Realm.forall_setMember_at (p := Member.Owns past) h.owned hw, h.draining⟩,
    h.rests, h.patient⟩

/-- A member that keeps its batch. -/
theorem Realm.Calm.setMember_some (h : r.Calm past rest) (hm : r.member? i = some m)
    (hu : u.batch = m.batch) : (r.setMember i (some u)).Calm past rest :=
  h.setMember (Member.owns_of_batch hu (hm ▸ h.owned i))

theorem Realm.Calm.register (h : r.Calm past rest) : r.register.Calm past rest :=
  ⟨⟨h.follows, Realm.forall_register_at (p := Member.Owns past) h.owned
    fun _ => List.forall_mem_nil _, h.draining⟩, h.rests, h.patient⟩

theorem Realm.Calm.join (h : r.Calm past rest) (hm : r.member? i = some m)
    (hu : u.batch = m.batch) (standing : Seat → Standing) :
    (r.join i u standing).TakesTurns past rest := by
  have hset := h.setMember_some (u := { u with standing := standing r.ring.enter.2 }) hm hu
  have hcalm : (r.join i u standing).realm.Calm (past ++ [.joined i r.ring.enter.2]) rest :=
    hset.quiet (by simp [Event.Quiet]) fun j => (hset.owned j).append _
  exact hcalm.takesTurns

theorem Realm.Calm.deferAll (h : r.Calm past rest) (hm : r.member? i = some m)
    (hu : u.batch = m.batch) (jobs : List Job) : (r.deferAll i u jobs).TakesTurns past rest := by
  have hcalm : (r.deferAll i u jobs).realm.Calm
      (past ++ (Node.number r.issued jobs).map (.deferred i)) rest := by
    refine h.quiet (by simp [Event.Quiet]) (Realm.forall_setMember_at
      (r := { r with issued := r.issued + jobs.length }) (fun j => (h.owned j).append _) ?_)
    intro node hnode
    change node ∈ ((Node.number r.issued jobs).foldl Member.defer u).batch.nodes at hnode
    rw [Member.nodes_deferAll, List.mem_append, List.mem_reverse, hu] at hnode
    rcases hnode with hnew | hold
    · exact List.mem_append_right _ (List.mem_map_of_mem hnew)
    · exact ((hm ▸ h.owned i : Member.Owns past i (some m)).append _) node hold
  exact hcalm.takesTurns

/-- A member that departs has handed its own nodes over when it leaves. -/
theorem Realm.Calm.depart (h : r.Calm past rest) (hm : r.member? i = some m)
    (hw : Member.held w = []) (hcurrent : Event.draining? past ≠ some r.ring.current) (s : Seat) :
    ((r.setMember i w).depart i m s).TakesTurns past rest := by
  have hset : (r.setMember i w).Calm past rest := h.setMember (by simp [Member.Owns, hw])
  unfold Realm.depart
  rcases (r.setMember i w).handOver_cases m.batch m.promote with ⟨_, he⟩ | ⟨tasks, ht, he⟩
  · rw [he]
    exact (hset.plan [.leave i s] (by simp [Task.Patient]) rfl).still
  · rw [he]
    have howned := (hm ▸ h.owned i : Member.Owns past i (some m)).append
      [.flushed r.ring.current m.batch.nodes]
    refine hset.follow rfl ⟨h.rests, hcurrent⟩ ?_ ?_
    · rcases ht with rfl | rfl <;> exact h.draining
    · rcases ht with rfl | rfl
      · exact .leave i s howned h.patient
      · exact .advance i s howned h.patient

theorem Activity.takesTurns_followedBy :
    (a.followedBy tasks).TakesTurns past rest ↔ a.TakesTurns past (tasks ++ rest) := by
  simp [Activity.TakesTurns, Activity.followedBy]

theorem Realm.Calm.begin (h : r.Calm past rest)
    (hcurrent : Event.draining? past ≠ some r.ring.current) (act : Realm.Act) :
    (r.begin act).TakesTurns past rest := by
  have hbegun := r.begun_begin act
  generalize r.begin act = a at hbegun ⊢
  cases hbegun with
  | still => exact h.still
  | registered => exact h.register.still
  | adjusted i m u hm hu _ => exact (h.setMember_some hm hu).still
  | joined i m hm => exact h.join (u := { m with depth := 1 }) hm rfl _
  | departed i m seat w later hm hw hlater =>
    refine Activity.takesTurns_followedBy.mpr (Realm.Calm.depart ?_ hm hw.held hcurrent seat)
    rcases hlater with rfl | rfl
    · exact h
    · exact h.plan [.rejoin i] (by simp [Task.Patient]) rfl
  | dropped i m _ _ _ =>
    have hset : (r.setMember i none).Calm past rest := h.setMember (List.forall_mem_nil _)
    have hplanned := hset.plan (m.batch.nodes.map .run) (by simp [Task.Patient])
      (Task.finished?_runs _)
    simpa [Activity.TakesTurns] using hplanned.takesTurns
  | deferred i m u jobs _ hm hu _ => exact h.deferAll (Realm.member?_of_pinned? hm) hu jobs

theorem Realm.Calm.proceed {own : List Nat} {script : Script}
    (h : r.Calm past (.proceed own script :: rest))
    (hcurrent : Event.draining? past ≠ some r.ring.current) :
    (r.proceed own script).TakesTurns past rest := by
  have hrest := h.of_cons rfl
  have hplanned : ∀ own' next, r.Calm past (.proceed own' next :: rest) := fun own' next =>
    hrest.plan [.proceed own' next] (by simp [Task.Patient]) rfl
  cases script with
  | done => exact hrest.still
  | register next =>
    exact Activity.takesTurns_followedBy.mpr ((hplanned _ next).begin hcurrent .register)
  | move k move next =>
    refine Activity.takesTurns_followedBy.mpr ?_
    exact Realm.of_beginOwn (p := fun a => a.TakesTurns past _) (hplanned own next).still
      fun _ _ => (hplanned own next).begin hcurrent _
  | defer k job next =>
    refine Activity.takesTurns_followedBy.mpr ?_
    exact Realm.of_beginOwn (p := fun a => a.TakesTurns past _) (hplanned own next).still
      fun _ _ => (hplanned own next).begin hcurrent _

/-- A task before which anybody may act. -/
def Task.Idle : Task → Prop
  | .advance _ | .leave _ _ | .drain _ => False
  | _ => True

theorem Realm.TakesTurns.calm {agenda : List Task} (h : r.TakesTurns past agenda)
    (hidle : ∀ task ∈ agenda.head?, task.Idle) : r.Calm past agenda := by
  obtain ⟨horder, hdue⟩ := h
  generalize hstage : Event.stage past = t at hdue
  cases hdue with
  | rests ht hpatient => exact { horder with rests := hstage ▸ ht, patient := hpatient }
  | drain | advance | leave => exact (hidle _ rfl).elim

theorem Realm.Due.of_advance {t : Stage} (h : r.Due journal t (.advance seat :: rest)) :
    seat = r.ring.current ∧ ∃ nodes, t = .handed seat nodes ∧ ∃ i s later,
      rest = .leave i s :: later ∧ (∀ node ∈ nodes, .deferred i node ∈ journal) ∧
        ∀ task ∈ later, task.Patient := by
  cases h with
  | rests _ h => exact (h _ List.mem_cons_self).elim
  | advance i s owned h => exact ⟨rfl, _, rfl, i, s, _, rfl, owned, h⟩

theorem Realm.Due.of_leave {t : Stage} (h : r.Due journal t (.leave i seat :: rest)) :
    (∀ node ∈ t.batch, .deferred i node ∈ journal) ∧ ∀ task ∈ rest, task.Patient := by
  cases h with
  | rests ht h =>
    refine ⟨?_, (List.forall_mem_cons.mp h).2⟩
    cases t with
    | calm | released => exact List.forall_mem_nil _
    | handed | answered => exact ht.elim
  | leave _ _ owned h => exact ⟨owned, h⟩

theorem Realm.Due.of_drain {t : Stage} (h : r.Due journal t (.drain seat :: rest)) :
    t = .released seat ∧ ∀ task ∈ rest, task.Patient := by
  cases h with
  | rests _ h => exact (h _ List.mem_cons_self).elim
  | drain _ h => exact ⟨rfl, h⟩

/-- The collector that is being drained is the oldest one. -/
theorem Realm.InOrder.drained {agenda : List Task} (h : r.InOrder past agenda)
    (hs : r.Sound (Chronicle.of past) agenda) (hd : Event.draining? past = some seat) :
    seat = Seat.of (Chronicle.of past).ended ∧ (Chronicle.of past).Vacant := by
  rw [h.draining] at hd
  obtain ⟨task, htask, hfinished⟩ := List.mem_filterMap.mp (List.mem_of_head? hd)
  have hmem : seat ∈ agenda.filterMap Task.drained? := by
    refine List.mem_filterMap.mpr ⟨task, htask, ?_⟩
    cases task with
    | finish => exact hfinished
    | _ => cases hfinished
  rw [hs.draining] at hmem
  split at hmem
  next hv => exact ⟨List.mem_singleton.mp hmem, hv⟩
  next => cases hmem

/-- Whatever is handed over does not go to the collector that is being drained. -/
theorem Realm.InOrder.draining_ne_current {agenda : List Task} (h : r.InOrder past agenda)
    (hs : r.Sound (Chronicle.of past) agenda) : Event.draining? past ≠ some r.ring.current := by
  intro hd
  obtain ⟨hseat, hv⟩ := h.drained hs hd
  rw [hs.balanced.current] at hseat
  have hroom := hs.balanced.room
  have hlt := hv.1
  have heq := (Seat.of_inj hs.balanced.ended_le hroom (Nat.le_refl _) (by simp [ringSize])).mp hseat
  omega

theorem Task.filterMap_finished? {tasks : List Task} (h : tasks.filterMap Task.drained? = []) :
    tasks.filterMap Task.finished? = [] := by
  rw [List.filterMap_eq_nil_iff] at h ⊢
  intro task htask
  have hnone := h task htask
  cases task with
  | finish => cases hnone
  | _ => rfl

theorem Realm.TakesTurns.advance (h : r.TakesTurns past (.advance seat :: rest))
    (hs : r.Sound (Chronicle.of past) (.advance seat :: rest))
    (few : (Chronicle.of past).roster.length < 2 ^ 56) :
    (r.perform (.advance seat)).TakesTurns past rest := by
  obtain ⟨hcurrent, nodes, hstage, i, s, later, rfl, howned, hpatient⟩ := h.due.of_advance
  -- Whether or not the ring advances, its answer takes the place of the task.
  have hanswer : ∀ (ring : EpochRing) (answer : Event),
      (answer = .advanced seat ∨ answer = .refused seat) →
      Realm.TakesTurns { r with ring := ring } (past ++ [answer]) (.leave i s :: later) := by
    intro ring answer ha
    have hfollow : answer.Follows past := by
      rcases ha with rfl | rfl <;> exact ⟨nodes, hstage⟩
    have hafter : (Event.stage past).after answer = .answered nodes := by
      rw [hstage]
      rcases ha with rfl | rfl <;> rfl
    refine h.follow rfl hfollow ?_ ?_
    · rcases ha with rfl | rfl <;> exact h.draining
    · rw [hafter]
      exact .leave i s (fun node hnode => List.mem_append_left _ (howned node hnode)) hpatient
  simp only [Realm.perform]
  split
  next =>
    rw [if_pos hcurrent.symm]
    exact hanswer r.ring _ (.inr rfl)
  next ring last ha =>
    have hlast := hs.advance_not_last few ha
    subst hlast
    exact hanswer ring _ (.inl rfl)

/-- A drain begins at once, or not at all. -/
theorem Realm.Due.drain_if {last : Bool} (h : ∀ task ∈ rest, task.Patient) (s : Seat) :
    r.Due journal (.released s) ((if last then [.drain s] else []) ++ rest) := by
  split
  · exact .drain s h
  · exact .rests trivial h

theorem Realm.TakesTurns.leave (h : r.TakesTurns past (.leave i seat :: rest)) :
    (r.perform (.leave i seat)).TakesTurns past rest := by
  obtain ⟨howned, hpatient⟩ := h.due.of_leave
  refine h.follow rfl howned ?_ (.drain_if hpatient seat)
  simp only [Realm.perform]
  rw [Task.finished?_drain_if]
  exact h.draining

theorem Realm.TakesTurns.drain (h : r.TakesTurns past (.drain seat :: rest))
    (hs : r.Sound (Chronicle.of past) (.drain seat :: rest)) :
    (r.perform (.drain seat)).TakesTurns past rest := by
  obtain ⟨hstage, hpatient⟩ := h.due.of_drain
  obtain ⟨hseat, _, hnone⟩ := hs.only_drain rfl
  have hidle : Event.draining? past = none := by
    rw [h.draining]
    change (rest.filterMap Task.finished?).head? = none
    rw [Task.filterMap_finished? hnone]
    rfl
  refine h.follow rfl ⟨hstage, hidle, hseat⟩ ?_ (.rests trivial ?_)
  · simp only [Realm.perform]
    rw [List.append_assoc, List.filterMap_append, Task.finished?_runs]
    rfl
  · simpa [Realm.perform, Task.Patient, or_imp, forall_and] using hpatient

/-- Nodes run only while their collector is drained. -/
theorem Realm.TakesTurns.run (h : r.TakesTurns past (.run node :: rest))
    (hs : r.Sound (Chronicle.of past) (.run node :: rest)) :
    (r.perform (.run node)).TakesTurns past rest := by
  have hcalm := h.calm (by rintro _ ⟨⟩; trivial)
  -- The task that ends the drain is still to come.
  obtain ⟨s, executed, hmem⟩ := hs.orderly.1
  have hne : (Task.run node :: rest).filterMap Task.finished? ≠ [] :=
    List.ne_nil_of_mem (List.mem_filterMap.mpr ⟨_, List.mem_cons_of_mem _ hmem, rfl⟩)
  obtain ⟨first, hfirst⟩ := Option.isSome_iff_exists.mp (List.isSome_head?.mpr hne)
  have hdraining := h.draining.trans hfirst
  obtain ⟨rfl, _⟩ := h.drained hs hdraining
  refine h.follow rfl ⟨hcalm.rests, hdraining⟩ h.draining (.rests trivial ?_)
  exact List.forall_mem_cons.mpr ⟨trivial, (List.forall_mem_cons.mp hcalm.patient).2⟩

theorem Realm.TakesTurns.finish {n : Nat} (h : r.TakesTurns past (.finish seat n :: rest))
    (hs : r.Sound (Chronicle.of past) (.finish seat n :: rest)) :
    (r.perform (.finish seat n)).TakesTurns past rest := by
  have hcalm := h.calm (by rintro _ ⟨⟩; trivial)
  obtain ⟨hseat, _, hnone⟩ := hs.only_drain rfl
  refine h.follow rfl ⟨hcalm.rests, h.draining, hseat⟩ ?_
    (.drain_if (List.forall_mem_cons.mp hcalm.patient).2 _)
  simp only [Realm.perform]
  rw [Task.finished?_drain_if, Task.filterMap_finished? hnone]
  rfl

theorem Realm.TakesTurns.perform {task : Task} (h : r.TakesTurns past (task :: rest))
    (hs : r.Sound (Chronicle.of past) (task :: rest))
    (few : (Chronicle.of past).roster.length < 2 ^ 56) :
    (r.perform task).TakesTurns past rest := by
  cases task with
  | advance seat => exact h.advance hs few
  | leave i seat => exact h.leave
  | rejoin i =>
    have hcalm := h.calm (by rintro _ ⟨⟩; trivial)
    have hrest := hcalm.of_cons rfl
    exact Realm.of_withMember (p := fun a => a.TakesTurns past rest) hrest.still
      fun m hm => hrest.join hm rfl _
  | drain seat => exact h.drain hs
  | run node => exact h.run hs
  | proceed own script =>
    exact (h.calm (by rintro _ ⟨⟩; trivial)).proceed (h.draining_ne_current hs)
  | finish seat n => exact h.finish hs

theorem Activity.TakesTurns.step (h : a.TakesTurns past []) (hvalid : a.Valid past)
    (few : (Chronicle.of (past ++ a.journal)).roster.length < 2 ^ 56) :
    a.step.TakesTurns past [] := by
  unfold Activity.step
  split
  next => exact h
  next task rest hagenda =>
    rw [Activity.TakesTurns, List.append_nil, hagenda] at h
    rw [Activity.Valid, hagenda] at hvalid
    simpa [Activity.TakesTurns] using h.perform hvalid.sound few

theorem Realm.Valid.calm_apply (h : r.Valid past []) (act : Realm.Act)
    (sparse : Event.Sparse (past ++ (r.apply act).2)) (hcalm : r.Calm past []) :
    (r.apply act).1.Calm (past ++ (r.apply act).2) [] := by
  have hbegin := hcalm.begin (hcalm.draining_ne_current h.sound) act
  have hsettled := ((h.begin act).steps_induct (p := fun a => a.TakesTurns past []) hbegin
    (fun _ hb few ht => ht.step hb few) sparse).2
  have hdone := (r.begin act).settle_agenda
  rw [Activity.settle] at hdone
  rw [Activity.TakesTurns, hdone] at hsettled
  exact hsettled.calm (by simp)

theorem Realm.calm_fresh (threshold : UInt64) : (Realm.fresh threshold).Calm [] [] :=
  ⟨⟨trivial, fun _ => List.forall_mem_nil _, rfl⟩, trivial, List.forall_mem_nil _⟩

/-- In every run, also when the deferred work registers members, enters, hands over, advances and
leaves: a member that hands a batch over leaves right after the answer to its request, if any, and
before anything runs; a drain begins only where a member has just left that collector or the drain of
the one before has just ended, while no drain is going on, and with the oldest collector; nodes run
while it lasts, and batches go to other collectors. In the middle of an operation, too, the oldest
collector is the tail of the ring. At the end no drain is going on, and the collectors have been
drained in the order of the ring, once for every generation. -/
theorem Realm.drains_in_turn (threshold : UInt64) (acts : List Realm.Act)
    (sparse : Event.Sparse ((Realm.fresh threshold).run acts).2) :
    let (r, journal) := (Realm.fresh threshold).run acts
    (∀ before e after, journal = before ++ e :: after → e.InTurn before after) ∧
    (∀ act n, let a := (r.begin act).steps n
      Event.Sparse (journal ++ a.journal) →
        a.realm.ring.tail = Seat.of (Chronicle.of (journal ++ a.journal)).ended) ∧
    Event.draining? journal = none ∧
    journal.filterMap Event.begun? = (List.range (Chronicle.of journal).ended).map Seat.of := by
  obtain ⟨hvalid, hcalm⟩ := (Realm.valid_fresh threshold).run_induct
    (p := fun r journal => r.Calm journal []) (Realm.calm_fresh threshold)
    (fun _ _ act hr sparse => hr.calm_apply act sparse) acts sparse
  rw [List.nil_append] at hvalid hcalm
  generalize (Realm.fresh threshold).run acts = run at hvalid hcalm ⊢
  obtain ⟨r, journal⟩ := run
  dsimp only at hvalid hcalm ⊢
  have hnone : Event.draining? journal = none := hcalm.draining
  have hbegun := (Event.begun_of_follows hcalm.follows).1
  rw [hnone, Option.toList_none, List.append_nil] at hbegun
  refine ⟨fun _ _ _ => Event.inTurn_of_follows hcalm.follows hcalm.rests, ?_, hnone, hbegun⟩
  exact fun act n hsparse => ((hvalid.begin act).steps hsparse).sound.balanced.tail

/-- The node that is drained first registers a member, which hands another node over, advances and
leaves; that node is drained in the same operation, but only when the first drain has ended. -/
theorem Realm.drains_in_turn_nested :
    let acts : List Realm.Act := [.register, .move 0 .acquire, .defer 0 (.nested 1 2 true),
      .move 0 .requestAdvance, .move 0 .release]
    let (r, journal) := (Realm.fresh 8).run acts
    Event.Sparse journal ∧
      (∀ before e after, journal = before ++ e :: after → e.InTurn before after) ∧
      r.ring.tail = 2 ∧ journal.filterMap Event.begun? = [0, 1] := by
  have hsparse : Event.Sparse ((Realm.fresh 8).run [.register, .move 0 .acquire,
      .defer 0 (.nested 1 2 true), .move 0 .requestAdvance, .move 0 .release]).2 :=
    Event.sparse_of_length (by decide +kernel)
  exact ⟨hsparse, (Realm.drains_in_turn 8 _ hsparse).1, by decide +kernel, by decide +kernel⟩

end EpochTable
