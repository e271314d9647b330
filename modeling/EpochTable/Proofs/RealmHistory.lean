import EpochTable.Proofs.JournalAllowed
import EpochTable.Proofs.NodesRun

namespace EpochTable

variable {r : Realm} {c : Chronicle} {i : Nat} {m : Member} {task : Task} {rest : List Task}
  {pending : List Node} {finishing : List Nat} {past : List Event} {a : Activity} {act : Realm.Act}

theorem Realm.Keeps.allows_depart (h : r.Keeps c pending finishing) (hm : r.member? i = some m)
    (r' : Realm) (s : Seat) : c.Allows (r'.depart i m s).journal := by
  have hflush : ∀ t : Seat, c.Allows [.flushed t m.batch.nodes] :=
    fun _ => ⟨⟨fun _ hnode => h.mem_deferred hm hnode, (h.batches i m hm).latest_first⟩, trivial⟩
  simp only [Realm.depart, Activity.followedBy]
  rcases r'.handOver_cases m.batch m.promote with ⟨_, he⟩ | ⟨_, _, he⟩
  · rw [he]
    trivial
  · rw [he]
    exact hflush _

theorem Chronicle.allows_deferred (jobs : List Job) {first : Nat} (hi : i ∈ c.counted)
    (hnew : ∀ node ∈ c.deferred, node.ticket < first) :
    c.Allows ((Node.number first jobs).map (.deferred i)) := by
  induction jobs generalizing first c with
  | nil => trivial
  | cons job rest ih =>
    refine ⟨⟨hi, fun hmem => Nat.lt_irrefl _ (hnew _ hmem)⟩, ih hi ?_⟩
    intro node hnode
    rcases List.mem_append.mp hnode with hold | hlast
    · exact Nat.lt_succ_of_lt (hnew node hold)
    · rw [List.mem_singleton.mp hlast]
      exact Nat.lt_succ_self _

theorem Realm.Keeps.allows_deferAll (h : r.Keeps c pending finishing) (hi : i ∈ c.counted)
    (u : Member) (jobs : List Job) : c.Allows (r.deferAll i u jobs).journal := by
  refine Chronicle.allows_deferred jobs hi ?_
  intro node hnode
  have hmem := List.mem_map_of_mem (f := Node.ticket) hnode
  rwa [h.tickets, List.mem_range] at hmem

theorem Phase.counted (h : Phase r c i []) (hm : r.pinned? i = some m) : i ∈ c.counted := by
  obtain ⟨g, _, hg⟩ := h.seat_of_pinned (Realm.member?_of_pinned? hm) (Realm.depth_of_pinned? hm)
  exact Chronicle.mem_counted.mpr ⟨g, hg⟩

theorem Realm.Keeps.allows_begin (h : r.Keeps c pending finishing) (act : Realm.Act)
    (hact : ∀ i, act.member? = some i → Phase r c i []) : c.Allows (r.begin act).journal := by
  have hbegun := r.begun_begin act
  generalize r.begin act = a at hbegun ⊢
  cases hbegun with
  | joined i m _ => exact ⟨trivial, trivial⟩
  | departed i m seat w later hm _ _ => exact h.allows_depart hm _ seat
  | deferred i m u jobs hi hm _ _ => exact h.allows_deferAll ((hact i hi).counted hm) u jobs
  | _ => trivial

theorem Realm.KeepsFor.allows_perform (h : r.KeepsFor c (task :: rest))
    (hs : r.Sound c (task :: rest)) : c.Allows (r.perform task).journal := by
  cases task with
  | advance s =>
    simp only [Realm.perform]
    split
    · split <;> exact ⟨trivial, trivial⟩
    · exact ⟨trivial, trivial⟩
  | leave i s => exact ⟨trivial, trivial⟩
  | rejoin i =>
    simp only [Realm.perform, Realm.withMember]
    split
    · trivial
    · exact ⟨trivial, trivial⟩
  | drain s => exact ⟨trivial, trivial⟩
  | run node =>
    refine ⟨⟨h.due node List.mem_cons_self, ?_⟩, trivial⟩
    intro p hp
    have hv := hs.vacant_of_run List.mem_cons_self
    have hne := Chronicle.crowd_eq_zero.mp hv.2 p hp
    have hle := (hs.balanced.within p hp).1
    omega
  | proceed own script =>
    simp only [Realm.perform]
    rcases hs.proceed_cases with he | ⟨b, own', next, he, hsound, hb⟩
    · rw [he]
      trivial
    · rw [he]
      rcases hb with rfl | ⟨act, rfl, hact⟩
      · trivial
      · exact h.allows_begin act fun i hi => hsound.phase (hact i hi)
  | finish s n => exact ⟨trivial, trivial⟩

/-- The journal is an allowed history, and the realm is as it tells. -/
structure Realm.Valid (r : Realm) (journal : List Event) (agenda : List Task) : Prop where
  allowed : Chronicle.empty.Allows journal
  sound : r.Sound (Chronicle.of journal) agenda
  keeps : r.KeepsFor (Chronicle.of journal) agenda

def Activity.Valid (a : Activity) (past : List Event) : Prop :=
  a.realm.Valid (past ++ a.journal) a.agenda

theorem Realm.valid_fresh (threshold : UInt64) : (Realm.fresh threshold).Valid [] [] :=
  ⟨trivial, Realm.sound_fresh threshold, Realm.keeps_fresh threshold⟩

theorem Realm.Valid.extend {agenda : List Task} (h : r.Valid past agenda) (rest : List Task)
    (allowed : (Chronicle.of past).Allows a.journal) (sound : a.Sound (Chronicle.of past) rest)
    (keeps : a.Keeps (Chronicle.of past) (rest.filterMap Task.node?)
      (rest.filterMap Task.executed?)) :
    a.realm.Valid (past ++ a.journal) (a.agenda ++ rest) := by
  refine ⟨Chronicle.allows_append.mpr ⟨h.allowed, allowed⟩, ?_, ?_⟩
  · rw [Chronicle.of_append]
    exact sound
  · rw [Chronicle.of_append, Realm.KeepsFor, List.filterMap_append, List.filterMap_append]
    exact keeps

theorem Realm.Valid.begin (h : r.Valid past []) (act : Realm.Act) :
    (r.begin act).Valid past := by
  have hphase : ∀ i, act.member? = some i → Phase r (Chronicle.of past) i [] :=
    fun i _ => h.sound.phase rfl
  have hvalid := h.extend [] (h.keeps.allows_begin act hphase)
    (h.sound.begin act fun _ _ => rfl)
    (Realm.Keeps.begin h.keeps act h.sound.balanced h.sound.finishing_le hphase)
  rwa [List.append_nil] at hvalid

theorem Activity.Valid.step (h : a.Valid past)
    (few : (Chronicle.of (past ++ a.journal)).roster.length < 2 ^ 56) : a.step.Valid past := by
  unfold Activity.step
  split
  next => exact h
  next task rest hagenda =>
    have hh := h
    rw [Activity.Valid, hagenda] at hh
    have hvalid := hh.extend rest (hh.keeps.allows_perform hh.sound) (hh.sound.perform few)
      (hh.keeps.perform hh.sound)
    rwa [List.append_assoc] at hvalid

theorem Activity.journal_step (a : Activity) : a.journal <+: a.step.journal := by
  unfold Activity.step
  split
  · exact List.prefix_rfl
  · exact List.prefix_append _ _

theorem Activity.journal_steps (n : Nat) (a : Activity) : a.journal <+: (a.steps n).journal := by
  induction n generalizing a with
  | zero => exact List.prefix_rfl
  | succ n ih =>
    unfold Activity.steps
    split
    · exact List.prefix_rfl
    · exact a.journal_step.trans (ih a.step)

/-- What every single task keeps is kept by all that follows from an act. -/
theorem Activity.Valid.steps_induct {p : Activity → Prop} {n : Nat} (h : a.Valid past) (hp : p a)
    (hstep : ∀ b : Activity, b.Valid past →
      (Chronicle.of (past ++ b.journal)).roster.length < 2 ^ 56 → p b → p b.step)
    (sparse : Event.Sparse (past ++ (a.steps n).journal)) :
    (a.steps n).Valid past ∧ p (a.steps n) := by
  induction n generalizing a with
  | zero => exact ⟨h, hp⟩
  | succ n ih =>
    unfold Activity.steps at sparse ⊢
    split at sparse
    next hempty =>
      rw [if_pos hempty]
      exact ⟨h, hp⟩
    next hempty =>
      rw [if_neg hempty]
      have hprefix := a.journal_step.trans (a.step.journal_steps n)
      have hpast : past ++ a.journal <+: past ++ (a.step.steps n).journal :=
        (List.prefix_append_right_inj past).mpr hprefix
      have few := (sparse.of_prefix hpast).self
      exact ih (h.step few) (hstep a h few hp) sparse

theorem Activity.Valid.steps {n : Nat} (h : a.Valid past)
    (sparse : Event.Sparse (past ++ (a.steps n).journal)) : (a.steps n).Valid past :=
  (h.steps_induct (p := fun _ => True) trivial (fun _ _ _ _ => trivial) sparse).1

theorem Realm.Valid.apply (h : r.Valid past []) (act : Realm.Act)
    (sparse : Event.Sparse (past ++ (r.apply act).2)) :
    (r.apply act).1.Valid (past ++ (r.apply act).2) [] := by
  have hvalid := (h.begin act).steps sparse
  rw [Activity.Valid] at hvalid
  have hdone := (r.begin act).settle_agenda
  rw [Activity.settle] at hdone
  rwa [hdone] at hvalid

theorem Realm.run_cons (r : Realm) (act : Realm.Act) (acts : List Realm.Act) :
    r.run (act :: acts) = (((r.apply act).1.run acts).1,
      (r.apply act).2 ++ ((r.apply act).1.run acts).2) := rfl

/-- What every single act keeps is kept by a run. -/
theorem Realm.Valid.run_induct {p : Realm → List Event → Prop} (h : r.Valid past []) (hp : p r past)
    (hact : ∀ (r : Realm) (past : List Event) (act : Realm.Act), r.Valid past [] →
      Event.Sparse (past ++ (r.apply act).2) → p r past →
      p (r.apply act).1 (past ++ (r.apply act).2))
    (acts : List Realm.Act) (sparse : Event.Sparse (past ++ (r.run acts).2)) :
    (r.run acts).1.Valid (past ++ (r.run acts).2) [] ∧
      p (r.run acts).1 (past ++ (r.run acts).2) := by
  induction acts generalizing r past with
  | nil =>
    rw [Realm.run, List.append_nil]
    exact ⟨h, hp⟩
  | cons act acts ih =>
    rw [Realm.run_cons, ← List.append_assoc] at sparse ⊢
    exact ih (h.apply act sparse.left) (hact r past act h sparse.left hp) sparse

theorem Realm.Valid.run (h : r.Valid past []) (acts : List Realm.Act)
    (sparse : Event.Sparse (past ++ (r.run acts).2)) :
    (r.run acts).1.Valid (past ++ (r.run acts).2) [] :=
  (h.run_induct (p := fun _ _ => True) trivial (fun _ _ _ _ _ _ => trivial) acts sparse).1

end EpochTable
