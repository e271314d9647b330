import EpochTable.Proofs.RealmHistory

namespace EpochTable

variable {r r' : Realm} {ring ring' : EpochRing} {c : Chronicle} {threshold : UInt64} {i : Nat}
  {m : Member} {seat : Seat} {past later : List Event} {rest : List Task} {pending : List Node}
  {finishing : List Nat}

def EpochRing.currentSize (ring : EpochRing) : Nat := (ring.collector ring.current).size

/-- No more nodes than the threshold lie in the current collector. -/
structure EpochRing.Within (ring : EpochRing) (threshold : UInt64) : Prop where
  size : ring.currentSize = (ring.collector ring.current).nodes.length
  le : ring.currentSize ≤ threshold.toNat

/-- The same collector is current, and none has got more nodes. -/
structure EpochRing.NoFuller (ring ring' : EpochRing) : Prop where
  threshold : ring'.threshold = ring.threshold
  current : ring'.current = ring.current
  size : ∀ s : Seat, (ring'.collector s).size ≤ (ring.collector s).size

/-- The current collector holds no more than the threshold, unless the ring has been found full. -/
structure Realm.Contained (r : Realm) (threshold : UInt64) (journal : List Event) : Prop where
  limit : r.ring.threshold = threshold
  size : (∃ seat, .refused seat ∈ journal) ∨ r.ring.currentSize ≤ threshold.toNat

/-- What an activity has led to is contained, or it is an advance that comes next. -/
def Activity.Contained (a : Activity) (threshold : UInt64) (past : List Event) (rest : List Task) :
    Prop :=
  a.realm.Contained threshold (past ++ a.journal) ∨ a.realm.ring.threshold = threshold ∧
    ∃ later, a.agenda ++ rest = .advance a.realm.ring.current :: later

theorem EpochRing.noFuller_enter (ring : EpochRing) : ring.NoFuller ring.enter.1 :=
  ⟨rfl, MasterWord.current_joined _, fun _ => Nat.le_refl _⟩

theorem EpochRing.noFuller_release (ring : EpochRing) (s : Seat) (amount : UInt64) :
    ring.NoFuller (ring.release s amount).1 :=
  ⟨rfl, rfl, fun t => (ring.nodes_release s t amount).2.le⟩

theorem EpochRing.noFuller_unload (ring : EpochRing) (s : Seat) :
    ring.NoFuller (ring.unload s).1 := by
  refine ⟨rfl, rfl, fun t => ?_⟩
  rw [(ring.nodes_unload s t).2]
  split
  · exact Nat.zero_le _
  · exact Nat.le_refl _

theorem EpochRing.noFuller_finishDrain (ring : EpochRing) (s : Seat) (n : Nat) :
    ring.NoFuller (ring.finishDrain s n).1 :=
  ⟨rfl, MasterWord.current_drained _, fun t => (ring.nodes_finishDrain s t n).2.le⟩

/-- A batch makes the current collector as long as the hand-over tells. -/
theorem EpochRing.currentSize_flush (ring : EpochRing) (b : Batch Node) :
    (ring.flush b).1.currentSize = (ring.flush b).2.2 := by
  have hpush : ((ring.collector ring.current).push b).1.size
      = ((ring.collector ring.current).push b).2 := by
    unfold Collector.push
    split <;> rfl
  have hcurrent : (ring.flush b).1.current = ring.current := rfl
  rw [EpochRing.currentSize, hcurrent, EpochRing.collector_flush, if_pos rfl, hpush]
  rfl

theorem Realm.Contained.of_noFuller (h : r.Contained threshold past)
    (hring : r.ring.NoFuller r'.ring) : r'.Contained threshold past := by
  refine ⟨hring.threshold.trans h.limit, h.size.imp_right fun hsize => ?_⟩
  rw [EpochRing.currentSize, hring.current]
  exact (hring.size _).trans hsize

theorem Realm.Contained.append (h : r.Contained threshold past) (later : List Event) :
    r.Contained threshold (past ++ later) := by
  refine ⟨h.limit, h.size.imp_left ?_⟩
  rintro ⟨seat, hseat⟩
  exact ⟨seat, List.mem_append_left _ hseat⟩

theorem Realm.Contained.still (h : r.Contained threshold past) (rest : List Task) :
    (Activity.still r).Contained threshold past rest :=
  .inl (h.append [])

theorem Realm.Contained.join (h : r.Contained threshold past) (i : Nat) (m : Member)
    (standing : Seat → Standing) (rest : List Task) :
    (r.join i m standing).Contained threshold past rest := by
  have hjoined : (r.join i m standing).realm.Contained threshold past :=
    h.of_noFuller r.ring.noFuller_enter
  exact .inl (hjoined.append _)

theorem Activity.contained_followedBy {a : Activity} {tasks : List Task} :
    (a.followedBy tasks).Contained threshold past rest ↔
      a.Contained threshold past (tasks ++ rest) := by
  simp [Activity.Contained, Activity.followedBy]

/-- A batch that is not followed by an advance did not go beyond the threshold. -/
theorem Realm.Contained.handOver (h : r.Contained threshold past) (b : Batch Node) (promote : Bool)
    (rest : List Task) : (r.handOver b promote).Contained threshold past rest := by
  unfold Realm.handOver
  split
  next => exact h.still rest
  next =>
    by_cases hdue : (promote || (r.ring.flush b).2.2 > r.ring.threshold.toNat) = true
    · refine .inr ⟨h.limit, rest, ?_⟩
      change (if (promote || (r.ring.flush b).2.2 > r.ring.threshold.toNat) = true then _ else _)
        ++ rest = _
      rw [if_pos hdue]
      rfl
    · refine .inl ⟨h.limit, .inr ?_⟩
      have hsize : (r.ring.flush b).2.2 ≤ r.ring.threshold.toNat := by
        simp only [Bool.or_eq_true, not_or, decide_eq_true_eq, Nat.not_lt] at hdue
        exact hdue.2
      rw [h.limit, ← EpochRing.currentSize_flush] at hsize
      exact hsize

theorem Realm.current_begin (r : Realm) (act : Realm.Act) :
    (r.begin act).realm.ring.current = r.ring.current := by
  have hbegun := r.begun_begin act
  generalize r.begin act = a at hbegun ⊢
  cases hbegun with
  | joined i m _ => exact r.ring.noFuller_enter.current
  | departed i m seat w later _ _ _ =>
    simp only [Realm.depart, Activity.followedBy]
    rcases (r.setMember i w).handOver_cases m.batch m.promote with ⟨_, he⟩ | ⟨_, _, he⟩ <;>
      rw [he] <;> rfl
  | _ => rfl

/-- Only an advance makes another collector current. -/
theorem Realm.current_perform (r : Realm) (task : Task) :
    (r.perform task).realm.ring.current = r.ring.current ∨ ∃ seat ring last,
      r.ring.advance seat = some (ring, last) ∧ (r.perform task).realm.ring = ring := by
  cases task with
  | advance seat =>
    cases ha : r.ring.advance seat with
    | none =>
      left
      simp only [Realm.perform, ha]
    | some advanced =>
      obtain ⟨ring, last⟩ := advanced
      right
      refine ⟨seat, ring, last, ha, ?_⟩
      simp only [Realm.perform, ha]
  | leave i s => exact .inl rfl
  | rejoin i =>
    exact .inl (Realm.of_withMember (p := fun a => a.realm.ring.current = r.ring.current) rfl
      fun _ _ => r.ring.noFuller_enter.current)
  | drain s => exact .inl rfl
  | run node => exact .inl rfl
  | proceed own script =>
    exact .inl (Realm.of_proceed (p := fun a => a.realm.ring.current = r.ring.current) rfl
      r.current_begin (fun _ _ _ => id) own script)
  | finish s n => exact .inl (r.ring.noFuller_finishDrain s n).current

theorem Realm.Contained.begin (h : r.Contained threshold past) (act : Realm.Act)
    (rest : List Task) : (r.begin act).Contained threshold past rest := by
  have hset : ∀ i w, (r.setMember i w).Contained threshold past := fun _ _ => ⟨h.limit, h.size⟩
  have hbegun := r.begun_begin act
  generalize r.begin act = a at hbegun ⊢
  cases hbegun with
  | still => exact h.still rest
  | registered =>
    have hregister : r.register.Contained threshold past := ⟨h.limit, h.size⟩
    exact hregister.still rest
  | adjusted i m u _ _ _ => exact (hset i _).still rest
  | joined i m _ => exact h.join i _ _ rest
  | departed i m seat w later _ _ _ =>
    exact Activity.contained_followedBy.mpr
      (Activity.contained_followedBy.mpr ((hset i w).handOver m.batch m.promote _))
  | dropped i m _ _ _ => exact .inl ((hset i none).append _)
  | deferred i m u jobs _ _ _ _ =>
    have hissued : (r.deferAll i u jobs).realm.Contained threshold past := ⟨h.limit, h.size⟩
    exact .inl (hissued.append _)

theorem Realm.Contained.proceed (h : r.Contained threshold past) (own : List Nat) (script : Script)
    (rest : List Task) : (r.proceed own script).Contained threshold past rest :=
  Realm.of_proceed (p := fun a => ∀ rest, a.Contained threshold past rest) h.still h.begin
    (fun _ _ _ ha _ => Activity.contained_followedBy.mpr (ha _)) own script rest

/-- Nothing has been handed over yet in the generation that an advance begins. -/
theorem Realm.Keeps.nodes_advanced (h : r.Keeps c pending finishing) (balanced : r.ring.Balanced c)
    {last : Bool} (ha : r.ring.advance seat = some (ring', last)) :
    (ring'.collector ring'.current).nodes = [] ∧ ring'.currentSize = 0 := by
  have hbalanced := balanced.advance ha
  have hcollector : (ring'.collector ring'.current).nodes
        = (r.ring.collector ring'.current).nodes ∧
      (ring'.collector ring'.current).size = (r.ring.collector ring'.current).size := by
    rw [EpochRing.collector_advance ha]
    split <;> exact ⟨rfl, rfl⟩
  have hempty : (r.ring.collector ring'.current).nodes = [] := by
    have hnodes := h.nodes (c.generation + 1) (Nat.le_succ_of_le balanced.ended_le) hbalanced.room
    rw [h.unborn _ (Nat.lt_succ_self _), List.reverse_nil, ite_self] at hnodes
    rw [hbalanced.current]
    exact hnodes
  refine ⟨hcollector.1.trans hempty, hcollector.2.trans ?_⟩
  rw [h.sizes, hempty]
  rfl

/-- An advance that comes next is answered at once: the new collector is empty, or the ring is full. -/
theorem Realm.Valid.contained_advance {agenda : List Task} (h : r.Valid past agenda)
    (hthreshold : r.ring.threshold = threshold) (hcurrent : seat = r.ring.current)
    (rest : List Task) : (r.perform (.advance seat)).Contained threshold past rest := by
  simp only [Realm.perform]
  split
  next =>
    refine .inl ⟨hthreshold, .inl ⟨seat, ?_⟩⟩
    simp [hcurrent]
  next ring' last ha =>
    have hempty := (Realm.Keeps.nodes_advanced h.keeps h.sound.balanced ha).2
    obtain ⟨_, _, _, hring⟩ := EpochRing.advance_eq_some ha
    have hkept : ring'.threshold = threshold := by
      rw [hring]
      exact hthreshold
    exact .inl ⟨hkept, .inr (hempty.le.trans (Nat.zero_le _))⟩

theorem Realm.Valid.contained_perform {agenda : List Task} (h : r.Valid past agenda)
    (hc : r.Contained threshold past) (task : Task) (rest : List Task) :
    (r.perform task).Contained threshold past rest := by
  cases task with
  | advance seat =>
    by_cases hcurrent : seat = r.ring.current
    · exact h.contained_advance hc.limit hcurrent rest
    · have hnone : r.ring.advance seat = none := if_pos (.inl (Ne.symm hcurrent))
      simp only [Realm.perform, hnone]
      exact .inl (hc.append _)
  | leave i s => exact .inl ((hc.of_noFuller (r.ring.noFuller_release s _)).append _)
  | rejoin i =>
    exact Realm.of_withMember (p := fun a => a.Contained threshold past rest) (hc.still rest)
      fun m _ => hc.join i m _ rest
  | drain s => exact .inl ((hc.of_noFuller (r.ring.noFuller_unload s)).append _)
  | run node => exact .inl (hc.append _)
  | proceed own script => exact hc.proceed own script rest
  | finish s n => exact .inl ((hc.of_noFuller (r.ring.noFuller_finishDrain s n)).append _)

theorem Activity.Contained.step {a : Activity} (h : a.Contained threshold past [])
    (hvalid : a.Valid past) : a.step.Contained threshold past [] := by
  unfold Activity.step
  split
  next => exact h
  next task rest hagenda =>
    have hstep : (a.realm.perform task).Contained threshold (past ++ a.journal) rest := by
      rcases h with hc | ⟨hthreshold, later, hnext⟩
      · exact Realm.Valid.contained_perform hvalid hc task rest
      · rw [hagenda, List.append_nil] at hnext
        obtain ⟨rfl, _⟩ := List.cons.inj hnext
        exact Realm.Valid.contained_advance hvalid hthreshold rfl rest
    simpa [Activity.Contained] using hstep

theorem Realm.Valid.contained_steps (h : r.Valid past []) (hc : r.Contained threshold past)
    (act : Realm.Act) (n : Nat) (sparse : Event.Sparse (past ++ ((r.begin act).steps n).journal)) :
    ((r.begin act).steps n).Valid past ∧ ((r.begin act).steps n).Contained threshold past [] :=
  (h.begin act).steps_induct (p := fun a => a.Contained threshold past []) (hc.begin act [])
    (fun _ hb _ hcb => hcb.step hb) sparse

theorem Realm.Valid.contained_apply (h : r.Valid past []) (act : Realm.Act)
    (sparse : Event.Sparse (past ++ (r.apply act).2)) (hc : r.Contained threshold past) :
    (r.apply act).1.Contained threshold (past ++ (r.apply act).2) := by
  have hsettled := (h.contained_steps hc act _ sparse).2
  have hdone := (r.begin act).settle_agenda
  rcases hsettled with hdone' | ⟨_, later, hnext⟩
  · exact hdone'
  · rw [Activity.settle] at hdone
    rw [hdone] at hnext
    cases hnext

theorem Realm.contained_fresh (threshold : UInt64) :
    (Realm.fresh threshold).Contained threshold [] := by
  have hempty : (Realm.fresh threshold).ring.currentSize = 0 :=
    ((Realm.keeps_fresh threshold).sizes _).trans rfl
  exact ⟨rfl, .inr (hempty.le.trans (Nat.zero_le _))⟩

theorem Realm.Contained.within (h : r.Contained threshold past) {agenda : List Task}
    (hvalid : r.Valid past agenda) (hroom : ∀ seat, .refused seat ∉ past) :
    r.ring.Within threshold := by
  refine ⟨hvalid.keeps.sizes _, h.size.resolve_left ?_⟩
  rintro ⟨seat, hseat⟩
  exact hroom seat hseat

theorem Activity.Valid.current_step {a : Activity} (h : a.Valid past)
    (hmoved : a.step.realm.ring.current ≠ a.realm.ring.current) :
    (a.step.realm.ring.collector a.step.realm.ring.current).nodes = [] ∧
      a.step.realm.ring.currentSize = 0 := by
  unfold Activity.step at hmoved ⊢
  split at hmoved
  next => exact absurd rfl hmoved
  next task rest hagenda =>
    rcases a.realm.current_perform task with hsame | ⟨seat, ring, last, ha, hring⟩
    · exact absurd hsame hmoved
    · simp only [hring]
      exact Realm.Keeps.nodes_advanced h.keeps h.sound.balanced ha

/-- Whatever the threshold, in every run in which the ring has not been found full so far, no more nodes
than the threshold lie in the current collector after an operation. The same holds in the middle of one,
also while deferred work acts itself, except for the moment between a hand-over and the advance that
follows it at once. A collector that becomes current has no nodes. -/
theorem Realm.current_within_threshold (threshold : UInt64) (acts : List Realm.Act)
    (sparse : Event.Sparse ((Realm.fresh threshold).run acts).2) :
    let (r, journal) := (Realm.fresh threshold).run acts
    ((∀ seat, .refused seat ∉ journal) → r.ring.Within threshold) ∧
    ∀ act n, let a := (r.begin act).steps n
      Event.Sparse (journal ++ a.journal) →
      ((∀ seat, .refused seat ∉ journal ++ a.journal) →
        (∀ seat, a.agenda.head? ≠ some (.advance seat)) → a.realm.ring.Within threshold) ∧
      (a.step.realm.ring.current ≠ a.realm.ring.current →
        (a.step.realm.ring.collector a.step.realm.ring.current).nodes = [] ∧
          a.step.realm.ring.currentSize = 0) := by
  obtain ⟨hvalid, hcontained⟩ := (Realm.valid_fresh threshold).run_induct
    (p := fun r journal => r.Contained threshold journal) (Realm.contained_fresh threshold)
    (fun _ _ act hr sparse hc => hr.contained_apply act sparse hc) acts sparse
  rw [List.nil_append] at hvalid hcontained
  generalize (Realm.fresh threshold).run acts = run at hvalid hcontained ⊢
  obtain ⟨r, journal⟩ := run
  dsimp only at hvalid hcontained ⊢
  refine ⟨hcontained.within hvalid, fun act n hsparse => ?_⟩
  obtain ⟨ha, hca⟩ := hvalid.contained_steps hcontained act n hsparse
  refine ⟨fun hroom hidle => ?_, ha.current_step⟩
  rcases hca with hca | ⟨_, later, hnext⟩
  · exact hca.within ha hroom
  · rw [List.append_nil] at hnext
    exact absurd (congrArg List.head? hnext) (hidle _)

/-- With a threshold of one, a member defers two nodes, the second of which hands over two more while it
is drained. Each of these batches is followed by an advance to an empty collector: the first at once, the
second as the tenth task. In between and in the end no more than one node lies in the current one. -/
theorem Realm.current_within_threshold_nested :
    let inner : Script := .register (.move 0 .acquire (.defer 0 (.note 7) (.defer 0 (.note 8)
      (.move 0 .release .done))))
    let acts : List Realm.Act := [.register, .move 0 .acquire, .defer 0 (.note 5),
      .defer 0 (.work 6 inner)]
    let (r, journal) := (Realm.fresh 1).run acts
    let during := (r.begin (.move 0 .release)).steps 8
    let before := (r.begin (.move 0 .release)).steps 9
    Event.Sparse journal ∧ r.ring.Within 1 ∧
      Event.Sparse (journal ++ during.journal) ∧ during.realm.ring.current = 1 ∧
      during.realm.ring.Within 1 ∧
      Event.Sparse (journal ++ before.journal) ∧ before.agenda.head? = some (.advance 1) ∧
      before.realm.ring.currentSize = 2 ∧ before.step.realm.ring.currentSize = 0 := by
  intro inner acts
  have hsparse : Event.Sparse ((Realm.fresh 1).run acts).2 :=
    Event.sparse_of_length (by decide +kernel)
  have hbound := Realm.current_within_threshold 1 acts hsparse
  have hduring : Event.Sparse (((Realm.fresh 1).run acts).2 ++
      ((((Realm.fresh 1).run acts).1.begin (.move 0 .release)).steps 8).journal) :=
    Event.sparse_of_length (by decide +kernel)
  have hbefore : Event.Sparse (((Realm.fresh 1).run acts).2 ++
      ((((Realm.fresh 1).run acts).1.begin (.move 0 .release)).steps 9).journal) :=
    Event.sparse_of_length (by decide +kernel)
  refine ⟨hsparse, hbound.1 (by decide +kernel), hduring, by decide +kernel,
    (hbound.2 (.move 0 .release) 8 hduring).1 (by decide +kernel) (by decide +kernel), hbefore,
    by decide +kernel, by decide +kernel, ?_⟩
  exact ((hbound.2 (.move 0 .release) 9 hbefore).2 (by decide +kernel)).2

end EpochTable
