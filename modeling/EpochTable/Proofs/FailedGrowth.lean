import EpochTable.Proofs.Reclamation
import EpochTable.Proofs.Refinement

namespace EpochTable

variable {t t' full : Table} {d : Dict} {e : Entry} {update : Bool} {fault : Fault}
  {retired : List Job} {hash : UInt64 → UInt64} {s : Store}

theorem Table.replaceBlock_error (h : t.replaceBlock = some ⟨.error fault, t', retired⟩) :
    t' = t ∧ retired = [] := by
  unfold Table.replaceBlock at h
  split at h
  next => cases h
  next hfree =>
    rw [Bool.not_eq_true] at hfree
    simp only at h
    split at h
    next =>
      cases h
      rw [Block.forceUnlockAll_lockAll hfree]
      exact ⟨rfl, rfl⟩
    next => cases h

theorem Table.grow_error (idle : t.growing = false)
    (h : t.grow = some ⟨.error fault, t', retired⟩) : t' = t ∧ retired = [] := by
  rw [Table.grow, idle, if_neg Bool.false_ne_true] at h
  obtain ⟨⟨result, grown, jobs⟩, hreplace, heq⟩ := Option.map_eq_some_iff.mp h
  cases heq
  obtain ⟨rfl, rfl⟩ := Table.replaceBlock_error hreplace
  refine ⟨?_, rfl⟩
  rw [← idle]

theorem Table.Represents.of_full (h : t.Represents d) (ha : t.attempt e update = .full full) :
    full = t ∧ t.Crowded d e.key := by
  have hattempt := h.attempt e update
  rw [ha] at hattempt
  cases hattempt with
  | full _ crowded => exact ⟨rfl, crowded⟩

/-- No growth changes what is stored; each one multiplies the cells and retires one block. -/
theorem Table.Represents.passes (h : t.Represents d) (hp : t.Passes e update t' retired) :
    t'.Represents d ∧ t.Respects t' ∧
      t.block.cellCount * growthFactor ^ retired.length ≤ t'.block.cellCount := by
  induction hp with
  | start t =>
    refine ⟨h, Table.Respects.refl t, ?_⟩
    rw [List.length_nil, pow_zero, Nat.mul_one]
  | grown attempt grow _ ih =>
    obtain ⟨rfl, _⟩ := h.of_full attempt
    cases h.grow grow with
    | grew _ represents respects _ larger =>
      obtain ⟨hlast, hrespects, hcells⟩ := ih represents
      refine ⟨hlast, respects.trans hrespects, Nat.le_trans ?_ hcells⟩
      rw [List.length_append, List.length_singleton, Nat.add_comm, pow_succ', ← Nat.mul_assoc]
      exact Nat.mul_le_mul_right _ larger

theorem Table.Represents.cells_passes (h : t.Represents d) (hp : t.Passes e update t' retired)
    (hne : retired ≠ []) : t.block.cellCount * growthFactor ≤ t'.block.cellCount := by
  have hfactor : growthFactor ^ 1 ≤ growthFactor ^ retired.length :=
    Nat.pow_le_pow_right (by decide) (List.length_pos_iff.mpr hne)
  exact Nat.le_trans (Nat.mul_le_mul_left _ hfactor) (h.passes hp).2.2

theorem Table.Passes.eq_of_nil (h : t.Represents d) (hp : t.Passes e update t' []) : t' = t := by
  generalize hretired : ([] : List Job) = retired at hp
  cases hp with
  | start => rfl
  | grown attempt grow =>
    obtain ⟨rfl, _⟩ := h.of_full attempt
    cases h.grow grow with
    | grew => cases hretired

/-- An attempt that ends a storing call leaves the size of the block alone. -/
theorem Table.Represents.alike_settles {stored : Stored Bool} (h : t.Represents d)
    (hs : t.Settles e update stored) : t.Alike stored.table := by
  cases hs with
  | done inserted t' attempt => exact Table.alike_attempt (by rw [attempt]; rfl)
  | failed fault full t' retired attempt grow =>
    obtain ⟨rfl, _⟩ := h.of_full attempt
    obtain ⟨rfl, _⟩ := Table.grow_error h.idle grow
    exact Table.Alike.refl t'

/-- A storing call fails in a growth of the table that its earlier growths have led to. -/
theorem Table.Represents.store_error (h : t.Represents d)
    (hs : t.store e update = some ⟨.error fault, t', retired⟩) :
    t.Passes e update t' retired ∧ t'.grow = some ⟨.error fault, t', []⟩ := by
  obtain ⟨last, before, final, hpasses, hsettles, heq⟩ := Table.exists_passes hs
  cases hsettles with
  | done => cases heq
  | failed _ full _ jobs attempt grow =>
    cases heq
    obtain ⟨hlast, _, _⟩ := h.passes hpasses
    obtain ⟨rfl, _⟩ := hlast.of_full attempt
    obtain ⟨rfl, rfl⟩ := Table.grow_error hlast.idle grow
    rw [List.append_nil]
    exact ⟨hpasses, grow⟩

theorem Store.Simulates.hasLock_eq_false {w : Ideal} (h : s.Simulates hash w)
    (free : ∀ j, s.hold? j = none) : s.table.block.hasLock = false := by
  refine Block.hasLock_eq_false.mpr fun i => Bool.eq_false_iff.mpr fun hlocked => ?_
  obtain ⟨j, hold, hj, _⟩ := h.locked i hlocked
  rw [free j] at hj
  cases hj

theorem Table.Respects.hasLock_eq_false (h : t.Respects t') (free : t.block.hasLock = false) :
    t'.block.hasLock = false := by
  rw [Block.hasLock_eq_false] at free ⊢
  intro i
  refine Bool.eq_false_iff.mpr fun hlocked => ?_
  have hbefore := h.released i hlocked
  rw [free i] at hbefore
  cases hbefore

/-- Whatever the reason why a growth fails, between two calls or in the middle of a storing call after
other growths: the cell of the call is given back before, and then the table is again what it was, with
every word, slot, chain and free item, and nobody has to take anything over. -/
theorem Store.failed_growth_undone {settings : Settings} {memory : Memory} {s₀ : Store}
    (hmake : Store.make settings hash memory = .ok s₀) (acts : List Store.Act)
    (honest : ∀ act ∈ acts, Store.Act.Honest hash act) :
    let s := (s₀.run acts).1
    ∀ e update t retired, s.table.Passes e update t retired →
      (∀ full, t.attempt e update = .full full → full = t) ∧
      ((∀ j, s.hold? j = none) → ∃ stored, t.grow = some stored) ∧
      (∀ fault t' jobs, Table.replaceBlock { t with growing := true } = some ⟨.error fault, t', jobs⟩ →
        t' = { t with growing := true } ∧ jobs = []) ∧
      ∀ fault t' jobs, t.grow = some ⟨.error fault, t', jobs⟩ →
        t' = t ∧ t.growing = false ∧ (∀ i, (t.block.cell i).word.isLocked = false) ∧
          ∀ (r : Realm) (i : Nat), r.apply (.retire i jobs) = (r, []) := by
  intro s e update t retired hpasses
  obtain ⟨w, _, h⟩ := (Store.simulates_make hmake).run honest
  obtain ⟨ht, hrespects, _⟩ := h.table.passes hpasses
  refine ⟨fun full hfull => (ht.of_full hfull).1, fun free => ?_,
    fun fault t' jobs hreplace => Table.replaceBlock_error hreplace, ?_⟩
  · have hunlocked := hrespects.hasLock_eq_false (h.hasLock_eq_false free)
    refine Option.ne_none_iff_exists'.mp fun hnone => ?_
    rw [Table.grow_eq_none ht, hunlocked] at hnone
    cases hnone
  · intro fault t' jobs hgrow
    obtain ⟨rfl, rfl⟩ := Table.grow_error ht.idle hgrow
    have hunlocked : t'.block.hasLock = false := by
      rw [← Bool.not_eq_true, ← Table.grow_eq_none ht, hgrow]
      exact Option.some_ne_none _
    exact ⟨rfl, ht.idle, Block.hasLock_eq_false.mp hunlocked, Realm.apply_retire_nil⟩

/-- Thirteen entries of four cells: the memory has no room for a block of sixteen cells. -/
theorem Store.failed_growth_undone_without_memory :
    let memory : Memory := fun bytes => decide (bytes < 1024)
    let acts : List Store.Act := [.realm .register, .realm (.move 0 .acquire)]
      ++ (List.range 12).map fun k => .call 0 (.insert ⟨UInt64.ofNat k, 1⟩)
    ∃ s₀, Store.make ⟨4, 128, 64, .standard, 128⟩ id memory = .ok s₀ ∧
      (∀ act ∈ acts, Store.Act.Honest id act) ∧
      ∃ t' jobs, (s₀.run acts).1.table.grow = some ⟨.error (.allocation 1024), t', jobs⟩ ∧
        t' = (s₀.run acts).1.table ∧
        (∀ i, ((s₀.run acts).1.table.block.cell i).word.isLocked = false) ∧
        (s₀.run acts).1.realm.apply (.retire 0 jobs) = ((s₀.run acts).1.realm, []) := by
  intro memory acts
  have honest : ∀ act ∈ acts, Store.Act.Honest id act := by
    simp [acts, Store.Act.Honest, Call.Honest, Call.query?, Query.Honest, Query.of]
  refine ⟨_, rfl, honest, ?_⟩
  obtain ⟨_, _, _, hundone⟩ := @Store.failed_growth_undone id ⟨4, 128, 64, .standard, 128⟩ memory _ rfl
    acts honest ⟨12, 1⟩ false _ _ (.start _)
  generalize hs : (Store.run _ acts).1 = s at hundone ⊢
  have hresult : s.table.grow.map Stored.result = some (.error (.allocation 1024)) := by
    rw [← hs]
    decide +kernel
  obtain ⟨⟨result, t', jobs⟩, hgrow, heq⟩ := Option.map_eq_some_iff.mp hresult
  cases heq
  obtain ⟨hsame, _, hfree, htaken⟩ := hundone _ _ _ hgrow
  exact ⟨t', jobs, hgrow, hsame, hfree, htaken _ 0⟩

/-- The call that stores an entry; `update` says whether a key that is there gets the new value. -/
def Call.store (e : Entry) (update : Bool) : Call := if update then .upsert e else .insert e

theorem Table.call_store (t : Table) (e : Entry) (update : Bool) :
    t.call (.store e update) = (t.store e update).map Stored.finished := by
  cases update <;> rfl

theorem Store.table_of_fault {i : Nat} {call : Call}
    (fails : (s.apply (.call i call)).2.1 = .result (.fault fault)) :
    ∃ done, s.table.call call = some done ∧ done.result = .fault fault ∧
      (s.apply (.call i call)).1
        = ⟨done.table, (s.realm.apply (.retire i done.retired)).1, s.holds⟩ := by
  unfold Store.apply at fails ⊢
  simp only at fails ⊢
  split at fails
  next => cases fails
  next hpin =>
    rw [if_neg hpin]
    split at fails
    next => cases fails
    next done hdone =>
      have hresult := Store.Answer.result.inj fails
      refine ⟨done, hdone, hresult, ?_⟩
      simp [hresult, CallResult.hold?]

/-- A failed call leaves the growths behind that it made before the one that failed. -/
theorem Store.Simulates.storing_fault {w : Ideal} (h : s.Simulates hash w) {i : Nat}
    (fails : (s.apply (.call i (.store e update))).2.1 = .result (.fault fault)) :
    ∃ t retired, s.table.Passes e update t retired ∧ t.grow = some ⟨.error fault, t, []⟩ ∧
      (s.apply (.call i (.store e update))).1
        = ⟨t, (s.realm.apply (.retire i retired)).1, s.holds⟩ := by
  obtain ⟨done, hcall, hresult, hafter⟩ := Store.table_of_fault fails
  rw [Table.call_store] at hcall
  obtain ⟨⟨result, t, retired⟩, hstore, rfl⟩ := Option.map_eq_some_iff.mp hcall
  cases result with
  | ok inserted => cases hresult
  | error reason =>
    cases hresult
    obtain ⟨hpasses, hgrow⟩ := h.table.store_error hstore
    exact ⟨t, retired, hpasses, hgrow, hafter⟩

theorem Table.Passes.of_failing (h : t.Represents d) (hp : t.Passes e update t' retired)
    (hgrow : t.grow = some ⟨.error fault, full, []⟩) : t' = t ∧ retired = [] := by
  cases hp with
  | start => exact ⟨rfl, rfl⟩
  | grown attempt grow =>
    obtain ⟨rfl, _⟩ := h.of_full attempt
    rw [hgrow] at grow
    cases grow

/-- A storing call that fails leaves the whole store as it was, table, members and all, exactly if the
first growth it attempts is the one that fails. Otherwise the table keeps what is stored in it but has
more cells than before, and the caller's member has taken over the old block. -/
theorem Store.failed_storing_undone_iff {settings : Settings} {memory : Memory} {s₀ : Store}
    (hmake : Store.make settings hash memory = .ok s₀) (before : List Store.Act)
    (honest : ∀ act ∈ before, Store.Act.Honest hash act) (i : Nat) (e : Entry) (update : Bool)
    (fault : Fault)
    (fails : ((s₀.run before).1.apply (.call i (.store e update))).2.1 = .result (.fault fault)) :
    let s := (s₀.run before).1
    let s' := (s.apply (.call i (.store e update))).1
    (s' = s ↔ ∃ reason, s.table.grow = some ⟨.error reason, s.table, []⟩) ∧
    (∀ q : Query, q.Honest hash → s'.table.find q = s.table.find q) ∧
    (s' ≠ s → s.table.block.cellCount * growthFactor ≤ s'.table.block.cellCount ∧
      ∃ ticket, .deferred i ⟨ticket, .discard s.table.block.cellCount⟩
        ∈ (s.apply (.call i (.store e update))).2.2) := by
  intro s s'
  obtain ⟨w, _, h⟩ := (Store.simulates_make hmake).run honest
  obtain ⟨t, retired, hpasses, hgrow, hafter⟩ := h.storing_fault fails
  obtain ⟨ht, hrespects, _⟩ := h.table.passes hpasses
  have hnothing : retired = [] → s' = s := by
    rintro rfl
    refine hafter.trans ?_
    rw [Realm.apply_retire_nil, hpasses.eq_of_nil h.table]
  have htable : s'.table = t := congrArg Store.table hafter
  refine ⟨⟨fun hsame => ⟨fault, ?_⟩, fun ⟨reason, hfirst⟩ => ?_⟩, fun q hq => ?_, fun hchanged => ?_⟩
  · rw [hsame] at htable
    rwa [← htable] at hgrow
  · exact hnothing (hpasses.of_failing h.table hfirst).2
  · rw [← h.hash] at hq
    rw [htable, h.table.find hq, ht.find (hrespects.hash ▸ hq)]
  · have hlarger : s.table.block.cellCount * growthFactor ≤ s'.table.block.cellCount := by
      rw [htable]
      exact h.table.cells_passes hpasses fun he => hchanged (hnothing he)
    refine ⟨hlarger, Store.defers_discard s i _ (Nat.ne_of_gt ?_)⟩
    exact Nat.lt_of_lt_of_le (lt_mul_of_one_lt_right h.table.nonempty (by decide)) hlarger

/-- Where no block of more than four cells is allowed, the first growth fails and nothing changes. -/
theorem Store.failed_storing_undone_at_limit :
    let before : List Store.Act := [.realm .register, .realm (.move 0 .acquire)]
      ++ (List.range 12).map fun k => .call 0 (.insert ⟨UInt64.ofNat k, 1⟩)
    ∃ s₀, Store.make ⟨4, 128, 4, .standard, 128⟩ id (fun _ => true) = .ok s₀ ∧
      (∀ act ∈ before, Store.Act.Honest id act) ∧
      ((s₀.run before).1.apply (.call 0 (.store ⟨12, 1⟩ false))).2.1
        = .result (.fault (.capacityOverflow 16)) ∧
      ((s₀.run before).1.apply (.call 0 (.store ⟨12, 1⟩ false))).1 = (s₀.run before).1 := by
  intro before
  have honest : ∀ act ∈ before, Store.Act.Honest id act := by
    simp [before, Store.Act.Honest, Call.Honest, Call.query?, Query.Honest, Query.of]
  refine ⟨_, rfl, honest, by decide +kernel, ?_⟩
  obtain ⟨hiff, _, hgrown⟩ := @Store.failed_storing_undone_iff id ⟨4, 128, 4, .standard, 128⟩
    (fun _ => true) _ rfl before honest 0 ⟨12, 1⟩ false (.capacityOverflow 16) (by decide +kernel)
  by_contra hchanged
  have hlarger := (hgrown hchanged).1
  exact absurd hlarger (by decide +kernel)

/-- Keys that hash alike: growing makes no room for the fourth entry, and the second growth is over the
limit. The call fails, but the table has four cells now instead of one, and the member holds the old
block. -/
theorem Store.failed_storing_leaves_growth :
    let before : List Store.Act := [.realm .register, .realm (.move 0 .acquire),
      .call 0 (.insert ⟨1, 10⟩), .call 0 (.insert ⟨2, 20⟩), .call 0 (.insert ⟨3, 30⟩)]
    ∃ s₀, Store.make ⟨1, 128, 4, .standard, 128⟩ (fun _ => 0) (fun _ => true) = .ok s₀ ∧
      let s := (s₀.run before).1
      let s' := (s.apply (.call 0 (.insert ⟨4, 40⟩))).1
      (s.apply (.call 0 (.insert ⟨4, 40⟩))).2.1 = .result (.fault (.capacityOverflow 16)) ∧
      (∀ j, s.hold? j = none) ∧
      s.table.block.cellCount = 1 ∧ s'.table.block.cellCount = 4 ∧
      s.table.block.capacity = 3 ∧ s'.table.block.capacity = 12 ∧
      s.realm.localPending = 0 ∧ s'.realm.localPending = 1 ∧ s' ≠ s := by
  intro before
  refine ⟨_, rfl, ?_⟩
  refine ⟨by decide +kernel, fun j => rfl, by decide +kernel, by decide +kernel, by decide +kernel,
    by decide +kernel, by decide +kernel, by decide +kernel, fun hsame => ?_⟩
  have hcells := congrArg (fun s : Store => s.table.block.cellCount) hsame
  exact absurd hcells (by decide +kernel)

end EpochTable
