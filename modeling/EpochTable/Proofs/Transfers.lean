import EpochTable.Block.Transfer
import EpochTable.Proofs.Migration

namespace EpochTable

variable {b : Block} {x : Transfer} {hash : UInt64 → UInt64} {cells shelves i : Nat}
  {xs : Multiset Entry}

/-- The cell was filled with these entries, the slots first, and nothing else was done to it. -/
structure Cell.FilledWith (c : Cell) (xs : List Entry) : Prop where
  entries : (c.entries c.word).Perm xs
  count : c.word.count = min inlineSlots xs.length
  chain : c.chain.length = xs.length - inlineSlots
  occupied : c.word.occupied = 2 ^ c.word.count - 1
  overflow : c.word.hasOverflow = true ↔ c.chain ≠ []
  settled : c.word.isWriting = false
  unlocked : c.word.isLocked = false
  version : c.word.version = 0

theorem Transfer.foldl_visit_of_failed (h : x.placed = false) (xs : List Entry) :
    xs.foldl (Transfer.visit hash) x = x := by
  induction xs with
  | nil => rfl
  | cons e xs ih =>
    have hstay : x.visit hash e = x := by simp [Transfer.visit, h]
    rw [List.foldl_cons, hstay, ih]

/-- The flag stands for the early end of `placeAll`. -/
theorem Transfer.foldl_visit (source b : Block) (xs : List Entry) :
    xs.foldl (Transfer.visit hash) ⟨source, b, true⟩
      = ⟨source, (b.placeAll hash xs).2, (b.placeAll hash xs).1⟩ := by
  induction xs generalizing b with
  | nil => rfl
  | cons e xs ih =>
    rw [List.foldl_cons]
    unfold Block.placeAll
    cases hplace : b.place (hash e.key) e true with
    | none =>
      have hfailed : Transfer.visit hash ⟨source, b, true⟩ e = ⟨source, b, false⟩ := by
        simp [Transfer.visit, hplace]
      rw [hfailed, Transfer.foldl_visit_of_failed rfl]
    | some block =>
      have hplaced : Transfer.visit hash ⟨source, b, true⟩ e = ⟨source, block, true⟩ := by
        simp [Transfer.visit, hplace]
      rw [hplaced, ih]

theorem Block.placeAll_append (b : Block) (xs ys : List Entry) :
    b.placeAll hash (xs ++ ys)
      = if (b.placeAll hash xs).1 then (b.placeAll hash xs).2.placeAll hash ys
        else b.placeAll hash xs := by
  induction xs generalizing b with
  | nil => rfl
  | cons e xs ih =>
    cases hplace : b.place (hash e.key) e true with
    | none => simp [Block.placeAll, hplace]
    | some block => simpa [Block.placeAll, hplace] using ih block

theorem Transfer.visitCells_eq (source b : Block) (i rounds : Nat) :
    Transfer.visitCells hash ⟨source, b, true⟩ i rounds
      = ⟨source, (b.placeAll hash ((List.range' i rounds).flatMap source.contents)).2,
          (b.placeAll hash ((List.range' i rounds).flatMap source.contents)).1⟩ := by
  induction rounds generalizing b i with
  | zero => rfl
  | succ rounds ih =>
    have hcell : Transfer.visitCell hash ⟨source, b, true⟩ i = _ :=
      Transfer.foldl_visit source b (source.contents i)
    rw [Transfer.visitCells, hcell, List.range'_succ, List.flatMap_cons, Block.placeAll_append]
    obtain ⟨complete, block⟩ := b.placeAll hash (source.contents i)
    cases complete with
    | false => rfl
    | true => exact ih block (i + 1)

/-- Whichever way the loop is left, it has placed what `absorb` places. -/
theorem Block.migrate_eq (b source : Block) (hash : UInt64 → UInt64) :
    b.migrate source hash = ⟨source, (b.absorb source hash).2, (b.absorb source hash).1⟩ := by
  rw [Block.absorb, Block.entries_eq, List.range_eq_range']
  exact Transfer.visitCells_eq source b 0 source.cellCount

/-- Every entry belongs in one cell. -/
theorem sum_filter_belongs (hpos : 0 < cells) (xs : Multiset Entry) :
    ∑ i ∈ Finset.range cells, xs.filter (Entry.belongs hash cells i) = xs := by
  ext e
  have hmem := Finset.mem_range.mpr (cellIndex_lt hpos (hash e.key))
  simp only [Multiset.count_sum', Multiset.count_filter, Entry.belongs]
  exact (Finset.sum_ite_eq _ _ fun _ => xs.count e).trans (if_pos hmem)

theorem Block.Packed.entries (h : b.Packed hash cells xs) (hpos : 0 < cells) :
    (b.entries : Multiset Entry) = xs := by
  have hcells : ((List.range b.cellCount).flatMap b.contents : Multiset Entry)
      = ∑ i ∈ Finset.range b.cellCount, (b.contents i : Multiset Entry) :=
    (Multiset.coe_bind _ _).symm
  rw [Block.entries_eq, hcells, h.size,
    Finset.sum_congr rfl fun i hi => h.contents i (Finset.mem_range.mp hi), sum_filter_belongs hpos]

theorem Block.Packed.filledWith {xs : List Entry} (h : b.Packed hash cells xs) (hi : i < cells) :
    (b.cell i).FilledWith (xs.filter (Entry.belongs hash cells i)) := by
  have hperm : (b.contents i).Perm (xs.filter (Entry.belongs hash cells i)) :=
    Multiset.coe_eq_coe.mp (h.contents i hi)
  have htidy := (h.proper i hi).tidy
  refine ⟨hperm, ?_, ?_, ?_, ?_, (h.proper i hi).settled, h.unlocked i, h.version i⟩
  · rw [htidy.count_eq, ← hperm.length_eq, Block.contents]
  · rw [htidy.length_chain, ← hperm.length_eq, Block.contents]
  · rw [htidy.occupied, CellWord.bitmap, Nat.one_shiftLeft]
  · rw [htidy.overflow]
    simp

/-- The entries of any block move to a fresh one exactly if there are as many items as entries beyond
the third of their cells, in whatever order they come. Then they are all there and nothing else is, each in
its cell, with the slots of a cell filled before its chain and all other items free. The old block
is as it was, also when the move fails. -/
theorem Block.migrates_within_demand {f : Footprint} {memory : Memory} (hpos : 0 < cells)
    (hb : Block.allocate f memory cells shelves = .ok b) (source : Block)
    (hash : UInt64 → UInt64) :
    let x := b.migrate source hash
    let demand := demandOf hash cells source.entries
    x.source = source ∧ (x.placed, x.target) = b.absorb source hash ∧
    (x.placed = true ↔ demand ≤ shelves * shelfItems) ∧
    (x.placed = true → x.target.cellCount = cells ∧ x.target.shelfCount = shelves ∧
      x.target.entries.Perm source.entries ∧
      (∀ i < cells, (x.target.cell i).FilledWith
        (source.entries.filter fun e => cellIndex cells (hash e.key) = i)) ∧
      x.target.pool.available = shelves * shelfItems - demand ∧
      x.target.pool.freeItems.length = shelves * shelfItems - demand ∧
      (x.target.pool.freeItems ++ x.target.spilled).Perm (Item.all shelves)) := by
  cases Block.eq_empty_of_allocate hb
  have hempty := Block.packed_empty cells shelves hash
  have hitems : (Block.empty cells shelves).itemCount = shelves * shelfItems :=
    congrArg (· * shelfItems) Array.size_replicate
  obtain ⟨hplaced, hpacked⟩ := hempty.placeAll hpos source.entries
  rw [add_zero, hitems] at hplaced
  rw [add_zero] at hpacked
  rw [Block.migrate_eq]
  refine ⟨rfl, rfl, hplaced, fun hdone => ?_⟩
  have htarget := hpacked hdone
  have hshelves : ((Block.empty cells shelves).absorb source hash).2.shelfCount = shelves :=
    (Block.shelfCount_placeAll rfl).trans Array.size_replicate
  have hfree := htarget.available_add_demand
  have hcount : ((Block.empty cells shelves).absorb source hash).2.itemCount
      = shelves * shelfItems := congrArg (· * shelfItems) hshelves
  rw [← Block.absorb, hcount] at hfree
  have havailable : ((Block.empty cells shelves).absorb source hash).2.pool.available
      = shelves * shelfItems - demandOf hash cells source.entries := by omega
  refine ⟨htarget.size, hshelves, Multiset.coe_eq_coe.mp (htarget.entries hpos),
    fun i hi => htarget.filledWith hi, havailable, ?_, ?_⟩
  · rw [← havailable]
    exact (Pool.available_eq htarget.counted).symm
  · have hall := htarget.items
    rw [← Block.absorb, hshelves] at hall
    exact hall

/-- Five entries of a single cell go to two cells, four of them to the same. One item is enough for
that and less is not. -/
theorem Block.migrates_within_demand_crowded : ∃ source b b' : Block,
    source.entries = [⟨0, 1⟩, ⟨2, 1⟩, ⟨4, 1⟩, ⟨1, 1⟩, ⟨6, 1⟩] ∧
    Block.allocate .words .ordinary 2 1 = .ok b ∧ Block.allocate .words .ordinary 2 0 = .ok b' ∧
    (b.migrate source id).placed = true ∧ (b.migrate source id).target.pool.available = 9 ∧
    ((b.migrate source id).target.cell 0).FilledWith [⟨0, 1⟩, ⟨2, 1⟩, ⟨4, 1⟩, ⟨6, 1⟩] ∧
    ((b.migrate source id).target.cell 1).FilledWith [⟨1, 1⟩] ∧
    (b'.migrate source id).placed = false ∧ (b'.migrate source id).source = source := by
  let source := ((Block.empty 1 1).placeAll id [⟨0, 1⟩, ⟨2, 1⟩, ⟨4, 1⟩, ⟨6, 1⟩, ⟨1, 1⟩]).2
  have hentries : source.entries = [⟨0, 1⟩, ⟨2, 1⟩, ⟨4, 1⟩, ⟨1, 1⟩, ⟨6, 1⟩] := by decide +kernel
  have hdemand : demandOf id 2 source.entries = 1 := by rw [hentries]; decide +kernel
  have hroomy : Block.allocate .words .ordinary 2 1 = .ok (Block.empty 2 1) := rfl
  have htight : Block.allocate .words .ordinary 2 0 = .ok (Block.empty 2 0) := rfl
  obtain ⟨_, _, hplaced, hdone⟩ := Block.migrates_within_demand Nat.two_pos hroomy source id
  obtain ⟨hsource, _, hfails, _⟩ := Block.migrates_within_demand Nat.two_pos htight source id
  rw [hdemand] at hplaced hdone hfails
  have hmoved := hplaced.mpr (by decide)
  obtain ⟨_, _, _, hcells, havailable, _⟩ := hdone hmoved
  have hzero := hcells 0 (by decide)
  have hone := hcells 1 (by decide)
  rw [hentries] at hzero hone
  refine ⟨source, _, _, hentries, hroomy, htight, hmoved, havailable, hzero, hone, ?_, hsource⟩
  exact Bool.eq_false_iff.mpr fun h => absurd (hfails.mp h) (by decide)

end EpochTable
