import EpochTable.Proofs.Packing
import EpochTable.Table.Growth

namespace EpochTable

variable {b b' : Block} {hash : UInt64 → UInt64} {d : Dict} {cells : Nat}

/-- A block that is being filled: nobody else sees it, so none of its cells is locked. -/
structure Block.Filling (b : Block) (hash : UInt64 → UInt64) (cells : Nat) (d : Dict) : Prop where
  holds : b.Holds hash d
  size : b.cellCount = cells
  unlocked : ∀ i, b.isLockedAt i = false

/-- Entries with distinct keys, all in the cells that they belong in, are a dictionary. -/
theorem Block.Packed.filling {xs : List Entry} (h : b.Packed hash cells xs)
    (hl : d.Lists (fun _ => True) xs) : b.Filling hash cells d := by
  obtain ⟨rfl, hproper, hcontents, hunlocked, _, hitems, hcounted⟩ := h
  refine ⟨⟨hproper, fun i hi => ?_, hitems, hcounted⟩, rfl, hunlocked⟩
  have hperm : (b.contents i).Perm (xs.filter (Entry.belongs hash b.cellCount i)) :=
    Multiset.coe_eq_coe.mp (hcontents i hi)
  refine ⟨?_, fun e => ?_⟩
  · rw [(hperm.map Entry.key).nodup_iff]
    exact hl.nodup.sublist (List.filter_sublist.map Entry.key)
  · rw [hperm.mem_iff, List.mem_filter, hl.mem, and_true, decide_eq_true_iff]
    rfl

theorem Block.filling_empty (cells shelves : Nat) (hash : UInt64 → UInt64) :
    (Block.empty cells shelves).Filling hash cells ∅ := by
  have hpacked := Block.packed_empty cells shelves hash
  rw [← Multiset.coe_nil] at hpacked
  exact hpacked.filling Dict.lists_nil

/-- A fresh block that took all entries of another one holds what that one holds. -/
theorem Block.Holds.absorbed (h : b.Holds hash d) (hsource : 0 < b.cellCount) (hpos : 0 < cells)
    {shelves : Nat} (hb : (Block.empty cells shelves).absorb b hash = (true, b')) :
    b'.Filling hash cells d := by
  have hpacked := ((Block.packed_empty cells shelves hash).placeAll hpos b.entries).2
  rw [← Block.absorb, hb, add_zero] at hpacked
  exact (hpacked rfl).filling (h.entries hsource)

theorem Block.eq_empty_of_allocate {f : Footprint} {memory : Memory} {shelves : Nat}
    (h : Block.allocate f memory cells shelves = .ok b) : b = Block.empty cells shelves := by
  unfold Block.allocate at h
  cases hres : f.reserve memory cells shelves with
  | error fault => simp [hres, Except.map] at h
  | ok _ => simpa [hres, Except.map, eq_comm] using h

/-- However many attempts it takes, the block that comes next holds the same entries in more
cells. -/
theorem Block.Holds.successor {settings : Settings} {memory : Memory} (h : b.Holds hash d)
    (hsource : 0 < b.cellCount) {rounds start : Nat} (hstart : 0 < start)
    (hb : b.successor settings hash memory rounds start = .ok b') :
    ∃ cells, b'.Filling hash cells d ∧ start * growthFactor ≤ cells ∧ cells < cellLimit := by
  induction rounds generalizing start with
  | zero => cases hb
  | succ rounds ih =>
    have hgrowth : start ≤ start * growthFactor := Nat.le_mul_of_pos_right _ (by decide)
    unfold Block.successor at hb
    simp only at hb
    split at hb
    next hlimit =>
      split at hb
      next => cases hb
      next candidate halloc =>
        cases Block.eq_empty_of_allocate halloc
        split at hb
        next block habsorb =>
          cases hb
          exact ⟨_, h.absorbed hsource (by omega) habsorb, Nat.le_refl _, hlimit.1⟩
        next =>
          obtain ⟨cells, hfill, hle, hlt⟩ := ih (by omega) hb
          refine ⟨cells, hfill, Nat.le_trans ?_ hle, hlt⟩
          exact Nat.mul_le_mul_right _ hgrowth
    next => cases hb

theorem Block.cell_lockAll (b : Block) {i : Nat} (hi : i < b.cellCount) :
    b.lockAll.cell i = (b.cell i).seize := by
  have hlt : i < b.cells.size := hi
  simp [Block.cell, Block.lockAll, hlt]

theorem Block.cellCount_lockAll (b : Block) : b.lockAll.cellCount = b.cellCount := Array.size_map ..

theorem Block.Holds.lockAll {b : Block} {hash : UInt64 → UInt64} (h : b.Holds hash d) :
    b.lockAll.Holds hash d := by
  have hindex : ∀ x, b.lockAll.indexOf x = b.indexOf x := fun x => by
    rw [Block.indexOf, Block.cellCount_lockAll, Block.indexOf]
  refine ⟨fun i hi => ?_, fun i hi => ?_, ?_, h.counted⟩
  · rw [Block.cellCount_lockAll] at hi
    rw [Block.cell_lockAll b hi]
    exact (h.proper i hi).seize
  · rw [Block.cellCount_lockAll] at hi
    simp only [hindex, Block.contents]
    rw [Block.cell_lockAll b hi, (b.cell i).agrees_seize.entries]
    exact h.lists i hi
  · have hspilled : b.lockAll.spilled = b.spilled := by
      rw [Block.spilled, Block.spilled, Block.cellCount_lockAll]
      refine List.flatMap_congr fun i hi => ?_
      rw [Block.cell_lockAll b (List.mem_range.mp hi), (b.cell i).agrees_seize.items]
    rw [hspilled]
    exact h.items

theorem Block.forceUnlockAll_lockAll {b : Block} (h : b.hasLock = false) :
    b.lockAll.forceUnlockAll = b := by
  rw [Block.hasLock, Array.any_eq_false] at h
  have hcells : (b.cells.map Cell.seize).map Cell.forceUnlock = b.cells := by
    apply Array.ext
    · rw [Array.size_map, Array.size_map]
    · intro k _ hk
      rw [Array.getElem_map, Array.getElem_map]
      exact Cell.forceUnlock_seize (by simpa using h k hk)
  rw [Block.forceUnlockAll, Block.lockAll, hcells]

end EpochTable
