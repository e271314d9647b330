import EpochTable.Proofs.Reclamation
import EpochTable.Proofs.Refinement

namespace EpochTable

variable {t : Table} {d : Dict} {q : Query} {s : Store} {w : Ideal} {hash : UInt64 → UInt64}

/-- Wherever a query finds its key, an honest query for that key finds it too. -/
theorem Table.Represents.lockAndLocate_stray (h : t.Represents d) {i : Nat} {c : Cell}
    {held : CellWord} {place : Place} (hq : t.lockAndLocate q = some (i, c, held, some place)) :
    t.lockAndLocate (.of q.key) = some (i, c, held, some place) := by
  obtain ⟨rfl, _, rfl, rfl, hlocate⟩ := Table.lockAndLocate_eq_some hq
  have hi : t.indexOf q < t.block.cellCount := Block.indexOf_lt h.nonempty _
  have hopens := Block.opens_seize hi
  obtain ⟨value, _, hlies⟩ := h.holds.locate_eq_some hopens hlocate
  have hmem : ⟨q.key, value⟩ ∈ t.block.contents (t.indexOf q) := hopens.entries ▸ hlies.mem
  have hindex : t.indexOf (.of q.key) = t.indexOf q := ((h.holds.lists _ hi).mem _ |>.mp hmem).2
  rw [← hq, Table.lockAndLocate, Table.lockAndLocate, hindex]
  rfl

/-- Every call comes to what an honest one does, or it waits, or it leaves the table alone. -/
theorem Table.Represents.call_stray (h : t.Represents d) (call : Call) :
    (∃ other, other.Honest t.hash ∧ t.call call = t.call other) ∨ t.call call = none ∨
      ∃ result, t.call call = some ⟨result, t, []⟩ ∧ result.hold? = none := by
  have hself : ∀ key, (Query.of key).Honest t.hash := fun _ => rfl
  cases call with
  | find q => exact .inr (.inr ⟨_, rfl, rfl⟩)
  | contains q => exact .inr (.inr ⟨_, rfl, rfl⟩)
  | remove q =>
    cases hfound : t.lockAndLocate q with
    | none => exact .inr (.inl (by simp [Table.call, Table.remove, hfound]))
    | some found =>
      obtain ⟨i, c, held, _ | place⟩ := found
      · obtain ⟨rfl, hfree, rfl, rfl, _⟩ := Table.lockAndLocate_eq_some hfound
        refine .inr (.inr ⟨.flag false, ?_, rfl⟩)
        simp [Table.call, Table.remove, hfound, Table.setCell_unlock hfree]
      · refine .inl ⟨.remove (.of q.key), fun _ hq => Option.some.inj hq ▸ hself q.key, ?_⟩
        simp only [Table.call, Table.remove, hfound, h.lockAndLocate_stray hfound]
  | hold q =>
    cases hfound : t.lockAndLocate q with
    | none => exact .inr (.inl (by simp [Table.call, Table.hold, hfound]))
    | some found =>
      obtain ⟨i, c, held, _ | place⟩ := found
      · obtain ⟨rfl, hfree, rfl, rfl, _⟩ := Table.lockAndLocate_eq_some hfound
        refine .inr (.inr ⟨.held none, ?_, rfl⟩)
        simp [Table.call, Table.hold, hfound, Table.setCell_unlock hfree]
      · refine .inl ⟨.hold (.of q.key), fun _ hq => Option.some.inj hq ▸ hself q.key, ?_⟩
        simp only [Table.call, Table.hold, hfound, h.lockAndLocate_stray hfound]
  | insert e => exact .inl ⟨.insert e, fun _ hq => Option.some.inj hq ▸ hself e.key, rfl⟩
  | upsert e => exact .inl ⟨.upsert e, fun _ hq => Option.some.inj hq ▸ hself e.key, rfl⟩
  | len => exact .inl ⟨.len, fun _ hq => (by cases hq), rfl⟩
  | isEmpty => exact .inl ⟨.isEmpty, fun _ hq => (by cases hq), rfl⟩
  | cellCount => exact .inl ⟨.cellCount, fun _ hq => (by cases hq), rfl⟩
  | capacity => exact .inl ⟨.capacity, fun _ hq => (by cases hq), rfl⟩

theorem Store.apply_call_congr {call other : Call} (h : s.table.call call = s.table.call other)
    (i : Nat) : (s.apply (.call i call)).1 = (s.apply (.call i other)).1 := by
  unfold Store.apply
  simp only [h]

theorem Store.apply_call_idle {call : Call} (h : s.table.call call = none ∨
      ∃ result, s.table.call call = some ⟨result, s.table, []⟩ ∧ result.hold? = none) (i : Nat) :
    (s.apply (.call i call)).1 = s := by
  unfold Store.apply
  simp only
  split
  · rfl
  · rcases h with hnone | ⟨result, hsome, hhold⟩
    · simp [hnone]
    · simp [hsome, hhold, Realm.apply_retire_nil]

/-- Whatever is asked, the store stands for some dictionary afterwards. -/
theorem Store.Simulates.apply_any (h : s.Simulates hash w) (act : Store.Act) :
    ∃ w', (s.apply act).1.Simulates hash w' := by
  have honest : ∀ other, Store.Act.Honest hash other → ∃ w', (s.apply other).1.Simulates hash w' :=
    fun other ho => (h.apply ho).imp fun _ hw => hw.2
  cases act with
  | call i call =>
    rcases h.table.call_stray call with ⟨other, ho, hsame⟩ | hidle
    · rw [Store.apply_call_congr hsame]
      exact honest _ (h.hash ▸ ho)
    · rw [Store.apply_call_idle hidle]
      exact ⟨w, h⟩
  | realm act => exact honest _ trivial
  | updateHeld i value => exact honest _ trivial
  | releaseHeld i => exact honest _ trivial
  | setMemory memory => exact honest _ trivial

end EpochTable
