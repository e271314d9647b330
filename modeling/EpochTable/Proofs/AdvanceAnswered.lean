import EpochTable.Proofs.NodesMoved

namespace EpochTable

variable {r : Realm} {node : Node} {i : Nat} {m u : Member} {seat : Seat}
  {past first later : List Event} {rest : List Task}

/-- Every batch with the node was followed by an advance or by the refusal of one. -/
def Event.Answered (node : Node) (journal : List Event) : Prop :=
  ∀ before seat nodes after, journal = before ++ .flushed seat nodes :: after → node ∈ nodes →
    ∃ rest, after = .advanced seat :: rest ∨ after = .refused seat :: rest

/-- Where the event happened: in the first history, or in what came later. -/
theorem Event.eq_append_cons {e : Event} {before after : List Event}
    (h : first ++ later = before ++ e :: after) :
    (∃ middle, first = before ++ e :: middle ∧ after = middle ++ later) ∨
      ∃ middle, later = middle ++ e :: after := by
  rcases List.append_eq_append_iff.mp h with ⟨middle, _, hlater⟩ | ⟨middle, hfirst, hmiddle⟩
  · exact .inr ⟨middle, hlater⟩
  · cases middle with
    | nil => exact .inr ⟨[], hmiddle.symm⟩
    | cons other middle =>
      obtain ⟨rfl, rfl⟩ := List.cons.inj hmiddle
      exact .inl ⟨middle, hfirst, rfl⟩

theorem Event.Answered.append (h : Event.Answered node first)
    (hlater : ∀ seat nodes, .flushed seat nodes ∈ later → node ∉ nodes) :
    Event.Answered node (first ++ later) := by
  intro before seat nodes after heq hnode
  rcases Event.eq_append_cons heq with ⟨middle, hfirst, rfl⟩ | ⟨middle, rfl⟩
  · obtain ⟨rest, hrest⟩ := h before seat nodes middle hfirst hnode
    refine ⟨rest ++ later, ?_⟩
    rcases hrest with rfl | rfl
    · exact .inl rfl
    · exact .inr rfl
  · exact absurd hnode (hlater seat nodes (by simp))

theorem Event.Answered.reply (h : Event.Answered node first) {nodes : List Node}
    {answer : Event} (ha : answer = .advanced seat ∨ answer = .refused seat) :
    Event.Answered node (first ++ [.flushed seat nodes, answer]) := by
  intro before seat' nodes' after heq hnode
  rcases Event.eq_append_cons heq with ⟨middle, hfirst, rfl⟩ | ⟨middle, hlast⟩
  · obtain ⟨rest, hrest⟩ := h before seat' nodes' middle hfirst hnode
    refine ⟨rest ++ [.flushed seat nodes, answer], ?_⟩
    rcases hrest with rfl | rfl
    · exact .inl rfl
    · exact .inr rfl
  · cases middle with
    | nil =>
      cases hlast
      refine ⟨[], ?_⟩
      rcases ha with rfl | rfl
      · exact .inl rfl
      · exact .inr rfl
    | cons _ middle =>
      have hmem : .flushed seat' nodes' ∈ [answer] := by
        rw [(List.cons.inj hlast).2]
        simp
      rcases ha with rfl | rfl <;> simp at hmem

/-- If the member has the node, it has asked for an advance. -/
def Member.Asks (node : Node) (member : Option Member) : Prop :=
  ∀ m, member = some m → node ∈ m.batch.nodes → m.promote = true

theorem Member.asks_of_batch (hu : u.batch = m.batch) (hp : m.promote = true → u.promote = true)
    (h : Member.Asks node (some m)) : Member.Asks node (some u) := by
  intro m' hm' hnode
  cases Option.some.inj hm'
  rw [hu] at hnode
  exact hp (h m rfl hnode)

theorem Member.asks_of_promote (hp : u.promote = true) : Member.Asks node (some u) := by
  intro m' hm' _
  cases Option.some.inj hm'
  exact hp

theorem Member.asks_of_held {w : Option Member} (hw : Member.held w = []) : Member.Asks node w := by
  rintro m rfl hnode
  rw [show m.batch.nodes = [] from hw] at hnode
  cases hnode

/-- The node has been deferred, whoever has it has asked for an advance, and wherever it was handed
over, the ring has answered. -/
structure Realm.Pledged (r : Realm) (node : Node) (journal : List Event) : Prop where
  issued : node.ticket < r.issued
  asks : ∀ i, Member.Asks node (r.member? i)
  answered : Event.Answered node journal

/-- What an activity has led to keeps the pledge, but for a batch that was handed over just now and
awaits the answer to its request. -/
def Activity.Pledged (a : Activity) (node : Node) (past : List Event) (rest : List Task) : Prop :=
  a.realm.Pledged node (past ++ a.journal) ∨ ∃ first nodes later, a.realm.Pledged node first ∧
    past ++ a.journal = first ++ [.flushed a.realm.ring.current nodes] ∧
    a.agenda ++ rest = .advance a.realm.ring.current :: later

theorem Realm.Pledged.append (h : r.Pledged node past)
    (hlater : ∀ seat nodes, .flushed seat nodes ∈ later → node ∉ nodes) :
    r.Pledged node (past ++ later) :=
  ⟨h.issued, h.asks, h.answered.append hlater⟩

theorem Realm.Pledged.setMember (h : r.Pledged node past) (i : Nat) {w : Option Member}
    (hw : Member.Asks node w) : (r.setMember i w).Pledged node past :=
  ⟨h.issued, Realm.forall_setMember h.asks hw i, h.answered⟩

theorem Realm.Pledged.withRing (h : r.Pledged node past) (ring : EpochRing) :
    Realm.Pledged { r with ring := ring } node past :=
  ⟨h.issued, h.asks, h.answered⟩

theorem Realm.Pledged.still (h : r.Pledged node past) (rest : List Task) :
    (Activity.still r).Pledged node past rest :=
  .inl (h.append (by simp [Activity.still]))

/-- A member that keeps its batch and its request. -/
theorem Realm.Pledged.still_setMember (h : r.Pledged node past) (hm : r.member? i = some m)
    (hu : u.batch = m.batch) (hp : m.promote = true → u.promote = true) (rest : List Task) :
    (Activity.still (r.setMember i (some u))).Pledged node past rest :=
  (h.setMember i (Member.asks_of_batch hu hp (hm ▸ h.asks i))).still rest

theorem Realm.Pledged.join (h : r.Pledged node past) (hm : r.member? i = some m)
    (hu : u.batch = m.batch) (hp : u.promote = m.promote) (standing : Seat → Standing)
    (rest : List Task) : (r.join i u standing).Pledged node past rest := by
  have hmember : Member.Asks node (some { u with standing := standing r.ring.enter.2 }) :=
    Member.asks_of_batch (m := m) hu hp.trans (hm ▸ h.asks i)
  exact .inl (((h.withRing r.ring.enter.1).setMember i hmember).append (by simp [Realm.join]))

theorem Realm.handOver_promote (r : Realm) (b : Batch Node) : r.handOver b true
    = ⟨{ r with ring := (r.ring.flush b).1 }, [.advance r.ring.current],
      [.flushed r.ring.current b.nodes]⟩ := by
  simp [Realm.handOver, EpochRing.flush]

/-- A member that departs with the node hands its request over as well. -/
theorem Realm.Pledged.depart (h : r.Pledged node past) (hm : r.member? i = some m)
    {w : Option Member} (hempty : Member.held w = []) (s : Seat) (rest : List Task) :
    ((r.setMember i w).depart i m s).Pledged node past rest := by
  have hasks : Member.Asks node w := Member.asks_of_held hempty
  have hset := h.setMember i hasks
  unfold Realm.depart
  by_cases hnode : node ∈ m.batch.nodes
  · rw [h.asks i m hm hnode, Realm.handOver_promote]
    exact .inr ⟨past, m.batch.nodes, _, hset.withRing _, rfl, rfl⟩
  · rcases (r.setMember i w).handOver_cases m.batch m.promote with ⟨_, he⟩ | ⟨tasks, _, he⟩
    · rw [he]
      exact .inl (hset.append (by simp [Activity.still, Activity.followedBy]))
    · rw [he]
      refine .inl ((hset.withRing _).append fun seat nodes hmem => ?_)
      cases List.mem_singleton.mp hmem
      exact hnode

theorem Activity.pledged_followedBy {a : Activity} {tasks : List Task} :
    (a.followedBy tasks).Pledged node past rest ↔ a.Pledged node past (tasks ++ rest) := by
  simp [Activity.Pledged, Activity.followedBy]

theorem Node.ticket_of_mem_number {first : Nat} {jobs : List Job} (h : node ∈ Node.number first jobs) :
    first ≤ node.ticket ∧ node.ticket < first + jobs.length := by
  have hmem := List.mem_map_of_mem (f := Node.ticket) h
  rwa [Node.ticket_number, List.mem_range'_1] at hmem

theorem Realm.Pledged.deferAll (h : r.Pledged node past) (hu : Member.Asks node (some u))
    (jobs : List Job) (rest : List Task) : (r.deferAll i u jobs).Pledged node past rest := by
  have hissued : Realm.Pledged { r with issued := r.issued + jobs.length } node past :=
    ⟨Nat.lt_add_right _ h.issued, h.asks, h.answered⟩
  refine .inl ((hissued.setMember i ?_).append (by simp [Realm.deferAll]))
  intro m hm hnode
  cases Option.some.inj hm
  rw [Member.nodes_deferAll, List.mem_append, List.mem_reverse] at hnode
  rw [Member.promote_deferAll]
  refine hu u rfl (hnode.resolve_left fun hnew => ?_)
  have hold := h.issued
  have hlate := (Node.ticket_of_mem_number hnew).1
  omega

theorem Realm.Pledged.begin (h : r.Pledged node past) (act : Realm.Act) (rest : List Task) :
    (r.begin act).Pledged node past rest := by
  have hbegun := r.begun_begin act
  generalize r.begin act = a at hbegun ⊢
  cases hbegun with
  | still => exact h.still rest
  | registered =>
    have hregister : r.register.Pledged node past :=
      ⟨h.issued, Realm.forall_register h.asks (Member.asks_of_held rfl), h.answered⟩
    exact hregister.still rest
  | adjusted i m u hm hu hp => exact h.still_setMember hm hu hp rest
  | joined i m hm => exact h.join (u := { m with depth := 1 }) hm rfl rfl _ rest
  | departed i m seat w later hm hw _ =>
    exact Activity.pledged_followedBy.mpr (h.depart hm hw.held seat _)
  | dropped i m _ _ _ =>
    exact .inl ((h.setMember i (Member.asks_of_held rfl)).append (by simp))
  | deferred i m u jobs _ hm hu hp =>
    have hasks : Member.Asks node (some m) := Realm.member?_of_pinned? hm ▸ h.asks i
    exact h.deferAll (Member.asks_of_batch hu hp hasks) jobs rest

theorem Realm.Pledged.proceed (h : r.Pledged node past) (own : List Nat) (script : Script)
    (rest : List Task) : (r.proceed own script).Pledged node past rest := by
  cases script with
  | done => exact h.still rest
  | register next => exact Activity.pledged_followedBy.mpr (h.begin .register _)
  | move k move next =>
    refine Activity.pledged_followedBy.mpr ?_
    exact Realm.of_beginOwn (p := fun a => a.Pledged node past _) (h.still _) fun _ _ => h.begin _ _
  | defer k job next =>
    refine Activity.pledged_followedBy.mpr ?_
    exact Realm.of_beginOwn (p := fun a => a.Pledged node past _) (h.still _) fun _ _ => h.begin _ _

theorem Realm.Pledged.perform (h : r.Pledged node past) (task : Task) (rest : List Task) :
    (r.perform task).Pledged node past rest := by
  cases task with
  | advance s =>
    simp only [Realm.perform]
    split
    · refine .inl (h.append ?_)
      split <;> simp
    · exact .inl ((h.withRing _).append (by simp))
  | leave i s => exact .inl ((h.withRing _).append (by simp [Realm.perform]))
  | rejoin i =>
    refine Realm.of_withMember (p := fun a => a.Pledged node past rest) (h.still rest) fun m hm => ?_
    exact h.join hm rfl rfl _ rest
  | drain s => exact .inl ((h.withRing _).append (by simp [Realm.perform]))
  | run node => exact .inl (h.append (by simp [Realm.perform]))
  | proceed own script => exact h.proceed own script rest
  | finish s n => exact .inl ((h.withRing _).append (by simp [Realm.perform]))

/-- The request that has just been handed over finds its collector still current. -/
theorem Realm.Pledged.reply (h : r.Pledged node past) (nodes : List Node) (rest : List Task) :
    (r.perform (.advance r.ring.current)).Pledged node (past ++ [.flushed r.ring.current nodes]) rest := by
  simp only [Realm.perform, if_true]
  split
  · refine .inl ⟨h.issued, h.asks, ?_⟩
    rw [List.append_assoc]
    exact h.answered.reply (.inr rfl)
  · refine .inl ⟨h.issued, h.asks, ?_⟩
    rw [List.append_assoc]
    exact h.answered.reply (.inl rfl)

theorem Activity.Pledged.step {a : Activity} (h : a.Pledged node past []) :
    a.step.Pledged node past [] := by
  unfold Activity.step
  split
  next => exact h
  next task rest hagenda =>
    have hstep : (a.realm.perform task).Pledged node (past ++ a.journal) rest := by
      rcases h with h | ⟨first, nodes, later, h, hjournal, htasks⟩
      · exact h.perform task rest
      · rw [hagenda, List.append_nil] at htasks
        obtain ⟨rfl, _⟩ := List.cons.inj htasks
        rw [hjournal]
        exact h.reply nodes rest
    simpa [Activity.Pledged] using hstep

theorem Activity.Pledged.steps {a : Activity} (h : a.Pledged node past []) (n : Nat) :
    (a.steps n).Pledged node past [] := by
  induction n generalizing a with
  | zero => exact h
  | succ n ih =>
    unfold Activity.steps
    split
    · exact h
    · exact ih h.step

theorem Realm.Pledged.apply (h : r.Pledged node past) (act : Realm.Act) :
    (r.apply act).1.Pledged node (past ++ (r.apply act).2) := by
  have hsettled : (r.begin act).settle.Pledged node past [] := (h.begin act []).steps _
  rcases hsettled with hdone | ⟨_, _, _, _, _, htasks⟩
  · exact hdone
  · rw [Activity.settle_agenda] at htasks
    cases htasks

end EpochTable
