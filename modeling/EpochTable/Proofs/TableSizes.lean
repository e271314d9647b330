import EpochTable.Store
import EpochTable.Proofs.PoolItems

namespace EpochTable

variable {t t' t'' : Table} {q : Query} {e : Entry} {update : Bool}

/-- The tables have the same settings and blocks of the same size. -/
structure Table.Alike (t t' : Table) : Prop where
  settings : t'.settings = t.settings
  cells : t'.block.cellCount = t.block.cellCount
  shelves : t'.block.shelfCount = t.block.shelfCount

theorem Table.Alike.refl (t : Table) : t.Alike t := ⟨rfl, rfl, rfl⟩

theorem Table.Alike.trans (h : t.Alike t') (h' : t'.Alike t'') : t.Alike t'' :=
  ⟨h'.settings.trans h.settings, h'.cells.trans h.cells, h'.shelves.trans h.shelves⟩

theorem Table.alike_setCell (t : Table) (i : Nat) (c : Cell) : t.Alike (t.setCell i c) :=
  ⟨rfl, Array.size_setIfInBounds, rfl⟩

theorem Table.alike_releaseItem (t : Table) (item : Item) : t.Alike (t.releaseItem item) :=
  ⟨rfl, rfl, Array.size_modify⟩

theorem Table.alike_lent {item : Item} {pool : Pool} {hash : UInt64}
    (h : t.block.pool.alloc hash = some (item, pool)) (i : Nat) (c : Cell) :
    t.Alike { t.setCell i c with block := { (t.setCell i c).block with pool := pool } } :=
  ⟨rfl, Array.size_setIfInBounds, (Pool.lends_of_alloc h).size⟩

def Attempt.table? : Attempt → Option Table
  | .waits => none
  | .done _ t => some t
  | .full t => some t

theorem Table.alike_attempt (h : (t.attempt e update).table? = some t') : t.Alike t' := by
  unfold Table.attempt at h
  split at h
  next => cases h
  next =>
    split at h <;> cases Option.some.inj h <;> exact t.alike_setCell _ _
  next =>
    split at h
    · cases Option.some.inj h
      exact t.alike_setCell _ _
    · split at h
      next halloc =>
        cases Option.some.inj h
        exact Table.alike_lent halloc _ _
      next =>
        cases Option.some.inj h
        exact t.alike_setCell _ _

theorem Table.alike_remove {flag : Bool} (h : t.remove q = some (flag, t')) : t.Alike t' := by
  unfold Table.remove at h
  split at h
  next => cases h
  next =>
    cases Option.some.inj h
    exact t.alike_setCell _ _
  next =>
    simp only at h
    split at h <;> cases Option.some.inj h
    · exact t.alike_setCell _ _
    · exact (t.alike_setCell _ _).trans (Table.alike_releaseItem _ _)

theorem Table.alike_hold {hold : Option Hold} (h : t.hold q = some (hold, t')) : t.Alike t' := by
  unfold Table.hold at h
  split at h
  next => cases h
  next =>
    cases Option.some.inj h
    exact t.alike_setCell _ _
  next =>
    cases Option.some.inj h
    exact t.alike_setCell _ _

theorem Table.alike_len {n : Nat} (h : t.len = some (n, t')) : t.Alike t' := by
  unfold Table.len at h
  split at h
  next => cases h
  next =>
    cases Option.some.inj h
    exact ⟨rfl, Array.size_map .., rfl⟩

/-- A call stores an entry, or it leaves the size of the block alone and retires nothing. -/
theorem Table.alike_call {call : Call} {done : Finished} (h : t.call call = some done) :
    (∃ e update stored, t.store e update = some stored ∧ done = stored.finished) ∨
      t.Alike done.table ∧ done.retired = [] := by
  cases call with
  | insert e =>
    obtain ⟨stored, hstored, rfl⟩ := Option.map_eq_some_iff.mp h
    exact .inl ⟨e, false, stored, hstored, rfl⟩
  | upsert e =>
    obtain ⟨stored, hstored, rfl⟩ := Option.map_eq_some_iff.mp h
    exact .inl ⟨e, true, stored, hstored, rfl⟩
  | remove q =>
    obtain ⟨_, hremove, rfl⟩ := Option.map_eq_some_iff.mp h
    exact .inr ⟨Table.alike_remove hremove, rfl⟩
  | hold q =>
    obtain ⟨_, hhold, rfl⟩ := Option.map_eq_some_iff.mp h
    exact .inr ⟨Table.alike_hold hhold, rfl⟩
  | len =>
    obtain ⟨_, hlen, rfl⟩ := Option.map_eq_some_iff.mp h
    exact .inr ⟨Table.alike_len hlen, rfl⟩
  | isEmpty =>
    obtain ⟨_, hempty, rfl⟩ := Option.map_eq_some_iff.mp h
    obtain ⟨_, hlen, rfl⟩ := Option.map_eq_some_iff.mp hempty
    exact .inr ⟨Table.alike_len hlen, rfl⟩
  | _ =>
    cases Option.some.inj h
    exact .inr ⟨Table.Alike.refl t, rfl⟩

end EpochTable
