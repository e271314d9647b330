import EpochTable.Block
import EpochTable.Proofs.CellContents
import EpochTable.Proofs.Dictionary
import EpochTable.Proofs.PoolItems

namespace EpochTable

variable {b b' : Block} {hash : UInt64 → UInt64} {d d' : Dict} {c : Cell} {pool : Pool}
  {e : Entry} {i j : Nat} {key : UInt64}

def Block.contents (b : Block) (i : Nat) : List Entry := (b.cell i).entries (b.cell i).word

def Block.spilled (b : Block) : List Item :=
  (List.range b.cellCount).flatMap fun i => (b.cell i).items

/-- Every entry of the dictionary lies in the cell its hash points to, and nothing else lies there.
The items of the pool are either free or in use in one of the chains, never both. -/
structure Block.Holds (b : Block) (hash : UInt64 → UInt64) (d : Dict) : Prop where
  proper : ∀ i < b.cellCount, (b.cell i).Proper
  lists : ∀ i < b.cellCount, d.Lists (fun k => b.indexOf (hash k) = i) (b.contents i)
  items : (b.pool.freeItems ++ b.spilled).Perm (Item.all b.shelfCount)
  counted : b.pool.Counted

def Block.revise (b : Block) (i : Nat) (c : Cell) (pool : Pool) : Block :=
  ⟨b.cells.setIfInBounds i c, pool⟩

def Block.isLockedAt (b : Block) (i : Nat) : Bool := (b.cell i).word.isLocked

theorem Block.cellCount_revise : (b.revise i c pool).cellCount = b.cellCount :=
  Array.size_setIfInBounds

theorem Block.indexOf_revise (h : UInt64) : (b.revise i c pool).indexOf h = b.indexOf h := by
  rw [Block.indexOf, Block.cellCount_revise, Block.indexOf]

theorem Block.indexOf_lt (h : 0 < b.cellCount) (x : UInt64) : b.indexOf x < b.cellCount :=
  Nat.mod_lt _ h

theorem Block.cell_revise_self (h : i < b.cellCount) : (b.revise i c pool).cell i = c := by
  have hlt : i < b.cells.size := h
  simp [Block.cell, Block.revise, hlt]

theorem Block.cell_revise_of_ne (h : j ≠ i) : (b.revise i c pool).cell j = b.cell j := by
  simp [Block.cell, Block.revise, Array.getElem?_setIfInBounds_ne h.symm]

/-- What holds of the new cell and of all others that stay holds of every cell. -/
theorem Block.forall_cell_revise {P : Nat → Cell → Prop} (pool : Pool) (hi : i < b.cellCount)
    (h : ∀ j, j ≠ i → P j (b.cell j)) (hc : P i c) (j : Nat) :
    P j ((b.revise i c pool).cell j) := by
  by_cases he : j = i
  · rw [he, Block.cell_revise_self hi]
    exact hc
  · rw [Block.cell_revise_of_ne he]
    exact h j he

theorem Block.revise_cell (b : Block) (i : Nat) : b.revise i (b.cell i) b.pool = b := by
  have hcells : b.cells.setIfInBounds i (b.cell i) = b.cells := by
    apply Array.ext_getElem?
    intro k
    rw [Array.getElem?_setIfInBounds]
    split
    next he =>
      subst he
      split
      next hlt => simp [Block.cell, hlt]
      next hge => simp [hge]
    next => rfl
  rw [Block.revise, hcells]

theorem Block.cell_of_le (h : b.cellCount ≤ i) : b.cell i = Cell.empty := by
  have hle : b.cells.size ≤ i := h
  simp [Block.cell, hle]

theorem Block.toList_cells (b : Block) :
    b.cells.toList = (List.range b.cellCount).map b.cell := by
  apply List.ext_getElem?
  intro k
  rw [Array.getElem?_toList, List.getElem?_map]
  by_cases hk : k < b.cellCount
  · have hlt : k < b.cells.size := hk
    simp [Block.cell, List.getElem?_range hk, hlt]
  · have hge : b.cells.size ≤ k := Nat.le_of_not_lt hk
    rw [List.getElem?_eq_none (by simpa using Nat.le_of_not_lt hk)]
    simp [hge]

theorem Block.entries_eq (b : Block) :
    b.entries = (List.range b.cellCount).flatMap b.contents := by
  rw [Block.entries, Block.toList_cells, List.flatMap_map]
  rfl

theorem Block.hasLock_eq_false : b.hasLock = false ↔ ∀ i, b.isLockedAt i = false := by
  rw [Block.hasLock, ← Array.any_toList, Block.toList_cells, List.any_map, List.any_eq_false]
  constructor
  · intro h i
    by_cases hi : i < b.cellCount
    · simpa [Block.isLockedAt] using h i (List.mem_range.mpr hi)
    · rw [Block.isLockedAt, Block.cell_of_le (Nat.le_of_not_lt hi)]
      decide
  · exact fun h i _ => by simpa [Block.isLockedAt] using h i

/-- A change to one cell trades the items of that cell for those of the new one. -/
theorem Block.spilled_revise (hi : i < b.cellCount) (c : Cell) (pool : Pool) :
    ((b.cell i).items ++ (b.revise i c pool).spilled).Perm (c.items ++ b.spilled) := by
  have hperm := flatMap_perm_of_forall_ne (f := fun j => (b.cell j).items)
    (g := fun j => ((b.revise i c pool).cell j).items) (a := i) List.nodup_range
    (List.mem_range.mpr hi) fun j _ hj => by rw [Block.cell_revise_of_ne hj]
  rw [Block.cell_revise_self hi] at hperm
  rw [Block.spilled, Block.cellCount_revise]
  exact hperm

theorem Block.items_revise (hi : i < b.cellCount)
    (hitems : (pool.freeItems ++ c.items).Perm (b.pool.freeItems ++ (b.cell i).items)) :
    (pool.freeItems ++ (b.revise i c pool).spilled).Perm (b.pool.freeItems ++ b.spilled) := by
  have hspilled := Block.spilled_revise hi c pool
  -- As multisets, the items of the old cell can be cancelled.
  rw [← Multiset.coe_eq_coe] at hitems hspilled ⊢
  simp only [← Multiset.coe_add] at hitems hspilled ⊢
  generalize (b.revise i c pool).spilled = spilled' at hspilled ⊢
  have hsum : ((b.cell i).items + (pool.freeItems + spilled') : Multiset Item)
      = (b.cell i).items + (b.pool.freeItems + b.spilled) := by
    calc ((b.cell i).items + (pool.freeItems + spilled') : Multiset Item)
        = pool.freeItems + ((b.cell i).items + spilled') := by abel
      _ = (pool.freeItems + c.items) + b.spilled := by rw [hspilled]; abel
      _ = (b.cell i).items + (b.pool.freeItems + b.spilled) := by rw [hitems]; abel
  exact add_left_cancel hsum

/-- What a change to cell `i` owes to the rest of the block: the cell is at rest again, the items it
gained or gave up come from the pool or went there, and the shelves are still in order. -/
structure Block.Fits (b : Block) (i : Nat) (c : Cell) (pool : Pool) : Prop where
  inside : i < b.cellCount
  proper : c.Proper
  items : (pool.freeItems ++ c.items).Perm (b.pool.freeItems ++ (b.cell i).items)
  size : pool.shelves.size = b.pool.shelves.size
  counted : pool.Counted

theorem Block.Holds.revise (h : b.Holds hash d) (hf : b.Fits i c pool)
    (hl : d'.Lists (fun k => b.indexOf (hash k) = i) (c.entries c.word))
    (hoff : ∀ k, b.indexOf (hash k) ≠ i → d'.lookup k = d.lookup k) :
    (b.revise i c pool).Holds hash d' := by
  have hproper := Block.forall_cell_revise (P := fun j c => j < b.cellCount → c.Proper) pool
    hf.inside (fun j _ => h.proper j) fun _ => hf.proper
  have hlists := Block.forall_cell_revise
    (P := fun j c => j < b.cellCount → d'.Lists (fun k => b.indexOf (hash k) = j) (c.entries c.word))
    pool hf.inside (fun j hne hj => (h.lists j hj).congr fun k hk =>
      hoff k fun hki => hne (hk.symm.trans hki)) fun _ => hl
  have hshelves : (b.revise i c pool).shelfCount = b.shelfCount := hf.size
  refine ⟨fun j hj => ?_, fun j hj => ?_, ?_, hf.counted⟩
  · exact hproper j (Block.cellCount_revise ▸ hj)
  · simp only [Block.indexOf_revise]
    exact hlists j (Block.cellCount_revise ▸ hj)
  · rw [hshelves]
    exact (Block.items_revise hf.inside hf.items).trans h.items

theorem Block.Holds.gain (h : b.Holds hash d) (hi : b.indexOf (hash e.key) = i)
    (hf : b.Fits i c pool) (hd : d.lookup e.key = none)
    (hc : (c.entries c.word).Perm (e :: b.contents i)) :
    (b.revise i c pool).Holds hash (d.insert e.key e.value) := by
  refine h.revise hf ((h.lists i hf.inside).insert hi hd hc) fun k hk => ?_
  exact Finmap.lookup_insert_of_ne _ fun he => hk (he ▸ hi)

theorem Block.Holds.lose (h : b.Holds hash d) (hi : b.indexOf (hash e.key) = i)
    (hf : b.Fits i c pool) (hc : (b.contents i).Perm (e :: c.entries c.word)) :
    (b.revise i c pool).Holds hash (d.erase e.key) := by
  refine h.revise hf ((h.lists i hf.inside).erase hc) fun k hk => ?_
  exact Finmap.lookup_erase_ne fun he => hk (he ▸ hi)

theorem Block.Holds.rewrite (h : b.Holds hash d) (hi : b.indexOf (hash e.key) = i)
    (hf : b.Fits i c pool) (he : e ∈ b.contents i) {value : UInt64}
    (hc : (e :: c.entries c.word).Perm (e.withValue value :: b.contents i)) :
    (b.revise i c pool).Holds hash (d.insert e.key value) := by
  refine h.revise hf ((h.lists i hf.inside).write he hc) fun k hk => ?_
  exact Finmap.lookup_insert_of_ne _ fun he => hk (he ▸ hi)

theorem Block.Holds.mem_contents (h : b.Holds hash d) (hpos : 0 < b.cellCount) :
    e ∈ b.contents (b.indexOf (hash e.key)) ↔ d.lookup e.key = some e.value := by
  rw [(h.lists _ (Block.indexOf_lt hpos _)).mem]
  simp

theorem Block.Holds.entries (h : b.Holds hash d) (hpos : 0 < b.cellCount) :
    d.Lists (fun _ => True) b.entries := by
  rw [Block.entries_eq]
  refine ⟨?_, fun e => ?_⟩
  · rw [List.map_flatMap, List.nodup_flatMap]
    refine ⟨fun i hi => (h.lists i (List.mem_range.mp hi)).nodup, ?_⟩
    refine List.nodup_range.pairwise_of_forall_ne fun i hi j hj hij => ?_
    rw [Function.onFun, List.disjoint_left]
    intro k hk hk'
    obtain ⟨e, he, rfl⟩ := List.mem_map.mp hk
    obtain ⟨e', he', hkey⟩ := List.mem_map.mp hk'
    have hin := ((h.lists i (List.mem_range.mp hi)).mem e).mp he
    have hin' := ((h.lists j (List.mem_range.mp hj)).mem e').mp he'
    rw [hkey] at hin'
    exact hij (hin.2.symm.trans hin'.2)
  · rw [List.mem_flatMap, and_true, ← h.mem_contents hpos]
    constructor
    · rintro ⟨i, hi, he⟩
      have hin := ((h.lists i (List.mem_range.mp hi)).mem e).mp he
      rwa [hin.2]
    · exact fun he => ⟨_, List.mem_range.mpr (Block.indexOf_lt hpos _), he⟩

theorem Block.Holds.length_chain_le (h : b.Holds hash d) (hi : i < b.cellCount) :
    (b.cell i).chain.length ≤ b.itemCount := by
  have hlen := h.items.length_eq
  rw [List.length_append, Item.length_all] at hlen
  have hsub : ((b.cell i).items).Sublist b.spilled :=
    List.sublist_flatten_of_mem (List.mem_map.mpr ⟨i, List.mem_range.mpr hi, rfl⟩)
  have hle := hsub.length_le
  rw [Cell.items, List.length_map] at hle
  have hcount : b.itemCount = b.shelfCount * shelfItems := rfl
  omega

/-- The items that are not free are those of the chains. -/
theorem Block.available_add (hitems : (b.pool.freeItems ++ b.spilled).Perm (Item.all b.shelfCount))
    (hcounted : b.pool.Counted) :
    b.pool.available + ∑ i ∈ Finset.range b.cellCount, (b.cell i).chain.length
      = b.pool.itemCount := by
  have hlength := hitems.length_eq
  rw [List.length_append, Item.length_all, ← Pool.available_eq hcounted, Block.spilled,
    List.length_flatMap] at hlength
  simp only [Cell.items, List.length_map] at hlength
  exact hlength

theorem Block.cell_empty (cells shelves i : Nat) : (Block.empty cells shelves).cell i = Cell.empty := by
  simp only [Block.cell, Block.empty, Array.getD_eq_getD_getElem?, Array.getElem?_replicate]
  split <;> rfl

theorem Block.items_empty (cells shelves : Nat) :
    ((Block.empty cells shelves).pool.freeItems ++ (Block.empty cells shelves).spilled).Perm
      (Item.all (Block.empty cells shelves).shelfCount) := by
  have hspilled : (Block.empty cells shelves).spilled = [] := by
    rw [Block.spilled, List.flatMap_eq_nil_iff]
    intro i _
    rw [Block.cell_empty]
    rfl
  have hshelves : (Block.empty cells shelves).shelfCount = shelves := Array.size_replicate
  have hpool : (Block.empty cells shelves).pool = Pool.full shelves := rfl
  rw [hspilled, List.append_nil, hshelves, hpool, Pool.freeItems_full]

end EpochTable
