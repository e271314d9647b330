import EpochTable.Proofs.BlocksRetired
import EpochTable.Proofs.RunOrder

namespace EpochTable

variable {r : Realm} {c : Chronicle} {past : List Event} {nodes : List Node} {node : Node}
  {i j : Nat} {s : Store}

/-- What is left to happen: the realm is dropped once everybody has resigned. -/
def Realm.ending (r : Realm) : List Event := if r.isDeserted then r.close else []

theorem Chronicle.allows_runs (hroster : c.roster = [])
    (h : ∀ node ∈ nodes, node ∈ c.flushed c.ended) : c.Allows (nodes.map .ran) := by
  induction nodes generalizing c with
  | nil => trivial
  | cons node rest ih =>
    obtain ⟨hnode, hrest⟩ := List.forall_mem_cons.mp h
    refine ⟨⟨hnode, ?_⟩, ih hroster hrest⟩
    rw [hroster]
    exact List.forall_mem_nil _

theorem Realm.Valid.ending (h : r.Valid past []) : Chronicle.empty.Allows (past ++ r.ending) := by
  refine Chronicle.allows_append.mpr ⟨h.allowed, ?_⟩
  unfold Realm.ending
  split
  next hdeserted =>
    obtain ⟨hroster, hended⟩ := h.sound.deserted hdeserted
    refine Chronicle.allows_runs hroster fun node hnode => ?_
    rw [Realm.Keeps.remainder_eq h.keeps hended] at hnode
    change node ∈ (Chronicle.of past).flushed (Chronicle.of past).ended
    rw [hended]
    exact List.mem_reverse.mp hnode
  next => trivial

/-- Between operations those members are counted that hold a pin; one that was lost is held for good. -/
theorem Realm.Valid.mem_counted_iff (h : r.Valid past []) :
    i ∈ (Chronicle.of past).counted ↔ (r.pinned? i).isSome = true := by
  have hphase : Phase r (Chronicle.of past) i [] := h.sound.phase rfl
  constructor
  · intro hi
    cases hphase with
    | absent _ hout => exact absurd hi hout
    | idle _ hout => exact absurd hi hout
    | pinned m g hm hdepth => simp [Realm.pinned?, hm, hdepth]
  · intro hi
    obtain ⟨m, hm⟩ := Option.isSome_iff_exists.mp hi
    exact hphase.counted hm

theorem Activity.steps_idle {a : Activity} (h : a.agenda = []) (n : Nat) : a.steps n = a := by
  cases n with
  | zero => rfl
  | succ n => rw [Activity.steps, h, List.isEmpty_nil, if_pos rfl]

theorem Realm.apply_retire_nil (r : Realm) (i : Nat) : r.apply (.retire i []) = (r, []) := by
  have hstill : r.begin (.retire i []) = .still r := by
    rw [Realm.begin]
    exact Realm.of_withMember (p := fun a => a = .still r) rfl fun _ _ => rfl
  rw [Realm.apply, hstill, Activity.settle, Activity.steps_idle rfl]
  rfl

/-- Retiring is done at once. -/
theorem Realm.apply_retire {m : Member} (hm : r.pinned? i = some m) {jobs : List Job}
    (hjobs : jobs ≠ []) : r.apply (.retire i jobs) = ((r.deferAll i m.requestAdvance jobs).realm,
      (Node.number r.issued jobs).map (.deferred i)) := by
  have hbegin : r.begin (.retire i jobs) = r.deferAll i m.requestAdvance jobs := by
    rw [Realm.begin, hm, Realm.withMember, Realm.retire, if_neg (by simpa using hjobs)]
  rw [Realm.apply, hbegin, Activity.settle, Activity.steps_idle rfl]
  rfl

theorem Realm.events_retire {m : Member} (hm : r.pinned? i = some m) (jobs : List Job) :
    (r.apply (.retire i jobs)).2 = (Node.number r.issued jobs).map (.deferred i) := by
  by_cases hjobs : jobs = []
  · rw [hjobs, r.apply_retire_nil]
    rfl
  · rw [Realm.apply_retire hm hjobs]

theorem Member.requestAdvance_deferAll (m : Member) (nodes : List Node) :
    (nodes.foldl Member.defer m.requestAdvance).requestAdvance
      = nodes.foldl Member.defer m.requestAdvance := by
  have hpromote : (nodes.foldl Member.defer m.requestAdvance).promote = true :=
    Member.promote_deferAll _ _
  generalize nodes.foldl Member.defer m.requestAdvance = u at hpromote ⊢
  rw [Member.requestAdvance, ← hpromote]

theorem Realm.pinned?_deferAll {m : Member} (hm : r.pinned? i = some m) (jobs : List Job) :
    (r.deferAll i m.requestAdvance jobs).realm.pinned? i
      = some ((Node.number r.issued jobs).foldl Member.defer m.requestAdvance) := by
  have hlt := Realm.lt_length_of_member? (Realm.member?_of_pinned? hm)
  have hmember : (r.deferAll i m.requestAdvance jobs).realm.member? i = _ :=
    Realm.member?_setMember hlt _
  have hdepth : decide (m.depth ≠ 0) = true := decide_eq_true (Realm.depth_of_pinned? hm)
  rw [Realm.pinned?, hmember, Option.filter_some, Member.depth_deferAll]
  exact if_pos hdepth

/-- Retiring some blocks and then some others is retiring them all. -/
theorem Realm.apply_retire_append (hpin : (r.pinned? i).isSome = true) (jobs more : List Job) :
    let once := r.apply (.retire i jobs)
    (once.1.pinned? i).isSome = true ∧
      r.apply (.retire i (jobs ++ more)) = ((once.1.apply (.retire i more)).1,
        once.2 ++ (once.1.apply (.retire i more)).2) := by
  intro once
  obtain ⟨m, hm⟩ := Option.isSome_iff_exists.mp hpin
  by_cases hjobs : jobs = []
  · subst hjobs
    have honce : once = (r, []) := r.apply_retire_nil i
    rw [honce]
    exact ⟨hpin, rfl⟩
  have honce : once = _ := Realm.apply_retire hm hjobs
  have hpinned := Realm.pinned?_deferAll hm jobs
  rw [honce]
  refine ⟨by rw [hpinned, Option.isSome_some], ?_⟩
  by_cases hmore : more = []
  · rw [hmore, Realm.apply_retire_nil, List.append_nil, List.append_nil]
    exact honce
  have hall : jobs ++ more ≠ [] := fun h => hjobs (List.append_eq_nil_iff.mp h).1
  rw [Realm.apply_retire hm hall, Realm.apply_retire hpinned hmore, Node.number_append]
  simp [Realm.deferAll, Realm.setMember, Node.number_append, Member.requestAdvance_deferAll,
    Nat.add_assoc]

/-- Nodes that are deferred one after another are all guarded by those who are counted before. -/
theorem Event.Guarded.of_deferred {later x y : List Event}
    (h : Event.Guarded (past ++ nodes.map (.deferred i) ++ later)) (hnode : node ∈ nodes)
    (hx : later = x ++ .ran node :: y) (hj : j ∈ (Chronicle.of past).counted) :
    ∃ seat, .left j seat ∈ x := by
  obtain ⟨first, rest, rfl⟩ := List.append_of_mem hnode
  obtain ⟨_, hleft⟩ := h (past ++ first.map (.deferred i)) i node (rest.map (.deferred i) ++ x) y
    (by simp [hx])
  have hcounted : (Chronicle.of (past ++ first.map (.deferred i))).counted
      = (Chronicle.of past).counted := by
    rw [Chronicle.of_append, Chronicle.after_deferred]
    rfl
  obtain ⟨seat, hmem⟩ := hleft j (hcounted ▸ hj)
  refine ⟨seat, (List.mem_append.mp hmem).resolve_left fun hin => ?_⟩
  obtain ⟨_, _, he⟩ := List.mem_map.mp hin
  cases he

theorem Store.call_cases (s : Store) (i : Nat) (call : Call) :
    ((s.apply (.call i call)).1 = s ∧ (s.apply (.call i call)).2.2 = []) ∨
    ∃ m done, s.realm.pinned? i = some m ∧ s.table.call call = some done ∧
      (s.apply (.call i call)).1.table = done.table ∧
      (s.apply (.call i call)).1.realm = (s.realm.apply (.retire i done.retired)).1 ∧
      (s.apply (.call i call)).2.2 = (s.realm.apply (.retire i done.retired)).2 := by
  cases hpin : s.realm.pinned? i with
  | none => exact .inl (by simp [Store.apply, hpin])
  | some m =>
    cases hcall : s.table.call call with
    | none => exact .inl (by simp [Store.apply, hpin, hcall])
    | some done => exact .inr ⟨m, done, rfl, rfl, by simp [Store.apply, hpin, hcall]⟩

/-- On its realm an act of a store is an act of a member, or nothing at all. -/
theorem Store.realm_apply (s : Store) (act : Store.Act) :
    ((s.apply act).1.realm = s.realm ∧ (s.apply act).2.2 = []) ∨
    ∃ a, (s.apply act).1.realm = (s.realm.apply a).1 ∧ (s.apply act).2.2 = (s.realm.apply a).2 := by
  cases act with
  | realm act => exact .inr ⟨act, rfl, rfl⟩
  | call i call =>
    rcases s.call_cases i call with ⟨hstore, hevents⟩ | ⟨m, done, _, _, _, hrealm, hevents⟩
    · exact .inl ⟨congrArg Store.realm hstore, hevents⟩
    · exact .inr ⟨_, hrealm, hevents⟩
  | updateHeld j value =>
    simp only [Store.apply]
    cases s.hold? j <;> exact .inl ⟨rfl, rfl⟩
  | releaseHeld j =>
    simp only [Store.apply]
    cases s.hold? j <;> exact .inl ⟨rfl, rfl⟩
  | setMemory memory => exact .inl ⟨rfl, rfl⟩

theorem Store.realm_run (s : Store) (acts : List Store.Act) : ∃ own : List Realm.Act,
    (s.run acts).1.realm = (s.realm.run own).1 ∧ (s.run acts).2.2 = (s.realm.run own).2 := by
  induction acts generalizing s with
  | nil => exact ⟨[], rfl, rfl⟩
  | cons act acts ih =>
    obtain ⟨own, hrealm, hevents⟩ := ih (s.apply act).1
    have hrun : (s.run (act :: acts)).2.2
        = (s.apply act).2.2 ++ ((s.apply act).1.run acts).2.2 := rfl
    have hstore : (s.run (act :: acts)).1 = ((s.apply act).1.run acts).1 := rfl
    rw [hrun, hstore, hrealm, hevents]
    rcases s.realm_apply act with ⟨hfirst, hnone⟩ | ⟨a, hfirst, hnow⟩
    · rw [hfirst, hnone]
      exact ⟨own, rfl, rfl⟩
    · rw [hfirst, hnow]
      exact ⟨a :: own, rfl, rfl⟩

theorem Store.valid_apply (h : s.realm.Valid past []) (act : Store.Act)
    (sparse : Event.Sparse (past ++ (s.apply act).2.2)) :
    (s.apply act).1.realm.Valid (past ++ (s.apply act).2.2) [] := by
  rcases s.realm_apply act with ⟨hrealm, hevents⟩ | ⟨a, hrealm, hevents⟩
  · rwa [hrealm, hevents, List.append_nil]
  · rw [hevents] at sparse
    rw [hrealm, hevents]
    exact h.apply a sparse

theorem Store.valid_run (h : s.realm.Valid past []) (acts : List Store.Act)
    (sparse : Event.Sparse (past ++ (s.run acts).2.2)) :
    (s.run acts).1.realm.Valid (past ++ (s.run acts).2.2) [] := by
  obtain ⟨own, hrealm, hevents⟩ := s.realm_run acts
  rw [hevents] at sparse
  rw [hrealm, hevents]
  exact h.run own sparse

theorem Store.valid_make {settings : Settings} {hash : UInt64 → UInt64} {memory : Memory}
    (h : Store.make settings hash memory = .ok s) : s.realm.Valid [] [] := by
  unfold Store.make at h
  cases hmake : Table.make settings hash memory with
  | error fault => simp [hmake, Except.map] at h
  | ok table =>
    simp only [hmake, Except.map, Except.ok.injEq] at h
    subst h
    exact Realm.valid_fresh _

theorem Node.exists_number {job : Job} {jobs : List Job} (h : job ∈ jobs) (first : Nat) :
    ∃ ticket, ⟨ticket, job⟩ ∈ Node.number first jobs := by
  induction jobs generalizing first with
  | nil => simp at h
  | cons other rest ih =>
    rcases List.mem_cons.mp h with rfl | hrest
    · exact ⟨first, List.mem_cons_self⟩
    · obtain ⟨ticket, hticket⟩ := ih hrest (first + 1)
      exact ⟨ticket, List.mem_cons_of_mem _ hticket⟩

theorem Store.defers_discard (s : Store) (i : Nat) (call : Call)
    (hne : (s.apply (.call i call)).1.table.block.cellCount ≠ s.table.block.cellCount) :
    ∃ ticket, .deferred i ⟨ticket, .discard s.table.block.cellCount⟩ ∈ (s.apply (.call i call)).2.2 := by
  rcases s.call_cases i call with ⟨hstore, _⟩ | ⟨m, done, hm, hdone, htable, _, hevents⟩
  · rw [hstore] at hne
    exact absurd rfl hne
  · rw [htable] at hne
    obtain ⟨ticket, hticket⟩ := Node.exists_number (Table.retires_call hdone hne) s.realm.issued
    refine ⟨ticket, ?_⟩
    rw [hevents, Realm.events_retire hm]
    exact List.mem_map_of_mem hticket

/-- What a call retires waits for everybody who held a pin when the block was replaced. -/
theorem Store.guards_pinned {later : List Event} (h : s.realm.Valid past []) {call : Call}
    (hg : Event.Guarded (past ++ (s.apply (.call i call)).2.2 ++ later))
    (hnode : .deferred i node ∈ (s.apply (.call i call)).2.2) {x y : List Event}
    (hx : later = x ++ .ran node :: y) (hj : (s.realm.pinned? j).isSome = true) :
    ∃ seat, .left j seat ∈ x := by
  rcases s.call_cases i call with ⟨_, hevents⟩ | ⟨m, done, hm, _, _, _, hevents⟩
  · rw [hevents] at hnode
    simp at hnode
  · rw [hevents, Realm.events_retire hm] at hg hnode
    obtain ⟨other, hmem, he⟩ := List.mem_map.mp hnode
    cases he
    exact hg.of_deferred hmem hx (h.mem_counted_iff.mpr hj)

/-- In every run of a realm, and in every run of a store on its realm, a node runs only after everybody
has left who was counted when it was deferred. A call that replaces the block of the store defers the
drop of the old block, which so outlives every pin held at the moment of the replacement, unless its
holder leaves the collector in between. -/
theorem Store.reclaims_safely :
    (∀ (threshold : UInt64) (acts : List Realm.Act),
      let (r, journal) := (Realm.fresh threshold).run acts
      Event.Sparse journal →
        (∀ j, j ∈ (Chronicle.of journal).counted ↔ (r.pinned? j).isSome = true) ∧
        Event.Guarded (journal ++ r.ending)) ∧
    (∀ (settings : Settings) (hash : UInt64 → UInt64) (memory : Memory) (s₀ : Store),
      Store.make settings hash memory = .ok s₀ →
      ∀ (before : List Store.Act) (i : Nat) (call : Call) (after : List Store.Act),
        let s := (s₀.run before).1
        let earlier := (s₀.run before).2.2
        let s' := (s.apply (.call i call)).1
        let now := (s.apply (.call i call)).2.2
        let later := (s'.run after).2.2
        let ending := (s'.run after).1.realm.ending
        Event.Sparse (earlier ++ now ++ later) →
          Event.Guarded (earlier ++ now ++ later ++ ending) ∧
          (s'.table.block.cellCount ≠ s.table.block.cellCount →
            ∃ ticket, .deferred i ⟨ticket, .discard s.table.block.cellCount⟩ ∈ now) ∧
          ∀ node, .deferred i node ∈ now →
            ∀ x y, later ++ ending = x ++ .ran node :: y →
              ∀ j, (s.realm.pinned? j).isSome = true → ∃ seat, .left j seat ∈ x) := by
  constructor
  · intro threshold acts sparse
    have hvalid := (Realm.valid_fresh threshold).run acts sparse
    rw [List.nil_append] at hvalid
    exact ⟨fun j => hvalid.mem_counted_iff, Event.guarded_of_allows hvalid.ending⟩
  · intro settings hash memory s₀ hmake before i call after s earlier s' now later ending sparse
    have hpast := Store.valid_run (Store.valid_make hmake) before sparse.left.left
    rw [List.nil_append] at hpast
    have hnow := Store.valid_apply hpast (.call i call) sparse.left
    have hlater := Store.valid_run hnow after sparse
    have hguarded := Event.guarded_of_allows hlater.ending
    refine ⟨hguarded, Store.defers_discard _ i call, ?_⟩
    intro node hnode x y hx j hj
    rw [List.append_assoc] at hguarded
    exact Store.guards_pinned hpast hguarded hnode hx hj

/-- The fourth entry replaces a block of one cell. The other member keeps its pin and passes a
quiescent point, which lets the old block go. -/
theorem Store.reclaims_safely_quiescent :
    let s₀ : Store := ⟨⟨⟨1, 128, 64, .standard, 128⟩, id, fun _ => true, Block.empty 1 0, false⟩,
      Realm.fresh 128, []⟩
    let before : List Store.Act := [.realm .register, .realm .register, .realm (.move 0 .acquire),
      .realm (.move 1 .acquire), .call 0 (.insert ⟨1, 10⟩), .call 0 (.insert ⟨2, 20⟩),
      .call 0 (.insert ⟨3, 30⟩)]
    let after : List Store.Act := [.realm (.move 0 .release), .realm (.move 1 .quiesce)]
    let x : List Event := [.flushed 0 [⟨0, .discard 1⟩], .advanced 0, .left 0 0, .left 1 0,
      .drainBegan 0]
    let s := (s₀.run before).1
    let earlier := (s₀.run before).2.2
    let s' := (s.apply (.call 0 (.insert ⟨4, 40⟩))).1
    let now := (s.apply (.call 0 (.insert ⟨4, 40⟩))).2.2
    let later := (s'.run after).2.2
    let ending := (s'.run after).1.realm.ending
    Store.make ⟨1, 128, 64, .standard, 128⟩ id (fun _ => true) = .ok s₀ ∧
      Event.Sparse (earlier ++ now ++ later) ∧
      now = [.deferred 0 ⟨0, .discard 1⟩] ∧ (s.realm.pinned? 1).isSome = true ∧
      later ++ ending = x ++ .ran ⟨0, .discard 1⟩ :: [.drainEnded 0 1, .joined 1 1] ∧
      ∃ seat, .left 1 seat ∈ x := by
  intro s₀ before after x s earlier s' now later ending
  have hmake : Store.make ⟨1, 128, 64, .standard, 128⟩ id (fun _ => true) = .ok s₀ := rfl
  have hsafe := Store.reclaims_safely.2 _ id _ s₀ hmake before 0 (.insert ⟨4, 40⟩) after
  dsimp only at hsafe
  obtain ⟨_, _, hguarded⟩ := hsafe (Event.sparse_of_length (by decide +kernel))
  have hleft := hguarded ⟨0, .discard 1⟩ (by decide +kernel) x [.drainEnded 0 1, .joined 1 1]
    (by decide +kernel) 1 (by decide +kernel)
  exact ⟨hmake, Event.sparse_of_length (by decide +kernel), by decide +kernel, by decide +kernel,
    by decide +kernel, hleft⟩

end EpochTable
