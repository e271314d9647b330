import EpochTable.Proofs.BlockContents

namespace EpochTable

open Finset

variable {b b' : Block} {hash : UInt64 → UInt64} {e : Entry} {cells : Nat} {xs : Multiset Entry}
  {ys : List Entry} {c : Cell} {pool : Pool} {i : Nat}

def Entry.belongs (hash : UInt64 → UInt64) (cells i : Nat) (e : Entry) : Prop :=
  cellIndex cells (hash e.key) = i

instance : DecidablePred (Entry.belongs hash cells i) :=
  fun e => inferInstanceAs (Decidable (cellIndex cells (hash e.key) = i))

/-- How many of the entries belong in a cell. -/
def loadOf (hash : UInt64 → UInt64) (cells : Nat) (xs : Multiset Entry) (i : Nat) : Nat :=
  xs.countP (Entry.belongs hash cells i)

/-- How many of the entries lie in items once all of them are placed. -/
def demandOf (hash : UInt64 → UInt64) (cells : Nat) (xs : Multiset Entry) : Nat :=
  ∑ i ∈ range cells, (loadOf hash cells xs i - inlineSlots)

/-- A block that nobody else sees yet, with all entries in the cells that they belong in. -/
structure Block.Packed (b : Block) (hash : UInt64 → UInt64) (cells : Nat) (xs : Multiset Entry) :
    Prop where
  size : b.cellCount = cells
  proper : ∀ i < cells, (b.cell i).Proper
  contents : ∀ i < cells, (b.contents i : Multiset Entry) = xs.filter (Entry.belongs hash cells i)
  unlocked : ∀ i, b.isLockedAt i = false
  version : ∀ i, (b.cell i).word.version = 0
  items : (b.pool.freeItems ++ b.spilled).Perm (Item.all b.shelfCount)
  counted : b.pool.Counted

theorem cellIndex_lt (h : 0 < cells) (x : UInt64) : cellIndex cells x < cells := Nat.mod_lt _ h

theorem loadOf_cons (e : Entry) (xs : Multiset Entry) (i : Nat) :
    loadOf hash cells (e ::ₘ xs) i
      = loadOf hash cells xs i + if cellIndex cells (hash e.key) = i then 1 else 0 :=
  Multiset.countP_cons _ _ _

/-- One more of a kind, with `n` of each kind for free. -/
theorem sum_sub_add_one {f g : Nat → Nat} {k n : Nat} (hk : k < cells)
    (h : ∀ i, g i = f i + if k = i then 1 else 0) :
    ∑ i ∈ range cells, (g i - n) = ∑ i ∈ range cells, (f i - n) + if n ≤ f k then 1 else 0 := by
  have hmem := mem_range.mpr hk
  have hrest : ∀ i ∈ (range cells).erase k, g i - n = f i - n := by
    intro i hi
    rw [h, if_neg (Ne.symm (ne_of_mem_erase hi)), Nat.add_zero]
  rw [← add_sum_erase _ _ hmem, ← add_sum_erase (range cells) _ hmem, sum_congr rfl hrest, h,
    if_pos rfl]
  split <;> omega

/-- One more entry needs an item exactly if the slots of its cell are taken. -/
theorem demandOf_cons (hpos : 0 < cells) (e : Entry) (xs : Multiset Entry) :
    demandOf hash cells (e ::ₘ xs) = demandOf hash cells xs
      + if inlineSlots ≤ loadOf hash cells xs (cellIndex cells (hash e.key)) then 1 else 0 :=
  sum_sub_add_one (cellIndex_lt hpos _) (loadOf_cons e xs)

theorem demandOf_le_add (xs zs : Multiset Entry) :
    demandOf hash cells xs ≤ demandOf hash cells (zs + xs) :=
  sum_le_sum fun _ _ =>
    Nat.sub_le_sub_right (Multiset.countP_le_of_le _ (Multiset.le_add_left _ _)) _

/-- How a block changes when it takes an entry in. -/
theorem Block.place_eq_some {x : UInt64} {lend : Bool} (hb : b.place x e lend = some b') :
    ((b.cell (b.indexOf x)).word.count < inlineSlots ∧
      b' = b.revise (b.indexOf x)
        { ((b.cell (b.indexOf x)).pushInline (b.cell (b.indexOf x)).word e).1 with
          word := ((b.cell (b.indexOf x)).pushInline (b.cell (b.indexOf x)).word e).2 } b.pool) ∨
    ∃ item pool, (b.cell (b.indexOf x)).word.count = inlineSlots ∧
      b.pool.alloc x = some (item, pool) ∧
      b' = b.revise (b.indexOf x)
        { ((b.cell (b.indexOf x)).pushOverflow (b.cell (b.indexOf x)).word item e).1 with
          word := ((b.cell (b.indexOf x)).pushOverflow (b.cell (b.indexOf x)).word item e).2 }
        pool := by
  have hle := (b.cell (b.indexOf x)).word.count_le
  unfold Block.place at hb
  simp only at hb
  split at hb
  next hroom =>
    cases Option.some.inj hb
    exact .inl ⟨hroom, rfl⟩
  next hfull =>
    split at hb
    next => cases hb
    next item pool halloc =>
      cases Option.some.inj hb
      have hlent : b.pool.alloc x = some (item, pool) := (Option.ite_none_right_eq_some.mp halloc).2
      exact .inr ⟨item, pool, by omega, hlent, rfl⟩

theorem Block.place_eq_none_iff {x : UInt64} :
    b.place x e true = none ↔
      ¬ (b.cell (b.indexOf x)).word.count < inlineSlots ∧ b.pool.alloc x = none := by
  unfold Block.place
  simp only [if_true]
  split
  next hroom => simp [hroom]
  next hfull =>
    cases b.pool.alloc x with
    | none => simp [hfull]
    | some => simp

theorem Block.shelfCount_place {x : UInt64} {lend : Bool} (h : b.place x e lend = some b') :
    b'.shelfCount = b.shelfCount := by
  obtain ⟨_, rfl⟩ | ⟨item, pool, _, hlent, rfl⟩ := Block.place_eq_some h
  · rfl
  · exact (Pool.lends_of_alloc hlent).size

theorem Block.shelfCount_placeAll {complete : Bool} (h : b.placeAll hash ys = (complete, b')) :
    b'.shelfCount = b.shelfCount := by
  induction ys generalizing b with
  | nil =>
    cases h
    rfl
  | cons e ys ih =>
    unfold Block.placeAll at h
    split at h
    next =>
      cases h
      rfl
    next block hplace => exact (ih h).trans (Block.shelfCount_place hplace)

theorem Block.Packed.revise (h : b.Packed hash cells xs) (hi : cellIndex cells (hash e.key) = i)
    (hf : b.Fits i c pool) (hc : (c.entries c.word).Perm (e :: b.contents i))
    (hlock : c.word.isLocked = false) (hversion : c.word.version = 0) :
    (b.revise i c pool).Packed hash cells (e ::ₘ xs) := by
  have hshelves : (b.revise i c pool).shelfCount = b.shelfCount := hf.size
  have hin : Entry.belongs hash cells i e := hi
  refine ⟨Block.cellCount_revise.trans h.size, ?_, ?_, ?_, ?_, ?_, hf.counted⟩
  · exact Block.forall_cell_revise (P := fun j c => j < cells → c.Proper) pool hf.inside
      (fun j _ => h.proper j) fun _ => hf.proper
  · refine Block.forall_cell_revise (P := fun j c => j < cells → (c.entries c.word : Multiset Entry)
      = (e ::ₘ xs).filter (Entry.belongs hash cells j)) pool hf.inside (fun j hne hj => ?_) fun hlt => ?_
    · have hout : ¬ Entry.belongs hash cells j e := fun hj => hne (hj.symm.trans hi)
      rw [Multiset.filter_cons_of_neg _ hout]
      exact h.contents j hj
    · rw [Multiset.filter_cons_of_pos _ hin, ← h.contents i hlt]
      exact Multiset.coe_eq_coe.mpr hc
  · exact Block.forall_cell_revise (P := fun _ c => c.word.isLocked = false) pool hf.inside
      (fun j _ => h.unlocked j) hlock
  · exact Block.forall_cell_revise (P := fun _ c => c.word.version = 0) pool hf.inside
      (fun j _ => h.version j) hversion
  · rw [hshelves]
    exact (Block.items_revise hf.inside hf.items).trans h.items

theorem Block.Packed.place (h : b.Packed hash cells xs) (hpos : 0 < cells)
    (hb : b.place (hash e.key) e true = some b') : b'.Packed hash cells (e ::ₘ xs) := by
  have hi : cellIndex cells (hash e.key) = b.indexOf (hash e.key) := by rw [Block.indexOf, h.size]
  have hlt : b.indexOf (hash e.key) < cells := hi ▸ cellIndex_lt hpos _
  have hinside : b.indexOf (hash e.key) < b.cellCount := h.size ▸ hlt
  have hproper := h.proper _ hlt
  have hlock := h.unlocked (b.indexOf (hash e.key))
  have hversion := h.version (b.indexOf (hash e.key))
  rw [Block.isLockedAt] at hlock
  obtain ⟨hroom, rfl⟩ | ⟨item, pool, hcount, hlent, rfl⟩ := Block.place_eq_some hb
  · refine h.revise hi ⟨hinside, ⟨?_, ?_⟩, ?_, rfl, h.counted⟩ ?_ ?_ ?_
    · exact (Cell.agrees_word _ _).tidy (hproper.tidy.pushInline hroom e)
    · exact (CellWord.isWriting_withCount _ hroom).trans hproper.settled
    · exact (List.Perm.of_eq (Cell.items_pushInline _ _ _)).append_left _
    · rw [(Cell.agrees_word _ _).entries, Cell.entries_pushInline hproper.tidy.dense hroom]
      exact List.perm_middle
    · exact (CellWord.isLocked_withCount _ hroom).trans hlock
    · exact (CellWord.version_withCount _ hroom).trans hversion
  · have hlend := Pool.lends_of_alloc hlent
    refine h.revise hi ⟨hinside, ⟨?_, ?_⟩, ?_, hlend.size, hlend.counted h.counted⟩ ?_ ?_ ?_
    · exact (Cell.agrees_word _ _).tidy (hproper.tidy.pushOverflow hcount item e)
    · exact (CellWord.isWriting_withOverflow _ true).trans hproper.settled
    · exact List.perm_middle.trans (hlend.items.symm.append_right _)
    · rw [(Cell.agrees_word _ _).entries, Cell.entries_pushOverflow]
      exact List.perm_middle
    · exact (CellWord.isLocked_withOverflow _ true).trans hlock
    · exact (CellWord.version_withOverflow _ true).trans hversion

theorem Block.Packed.length_contents (h : b.Packed hash cells xs) (hi : i < cells) :
    ((b.cell i).entries (b.cell i).word).length = loadOf hash cells xs i := by
  have hcard := congrArg Multiset.card (h.contents i hi)
  rw [Multiset.coe_card] at hcard
  rw [loadOf, Multiset.countP_eq_card_filter, ← hcard, Block.contents]

theorem Block.Packed.count_eq (h : b.Packed hash cells xs) (hi : i < cells) :
    (b.cell i).word.count = min inlineSlots (loadOf hash cells xs i) := by
  rw [← h.length_contents hi]
  exact (h.proper i hi).tidy.count_eq

theorem Block.Packed.length_chain (h : b.Packed hash cells xs) (hi : i < cells) :
    (b.cell i).chain.length = loadOf hash cells xs i - inlineSlots := by
  rw [← h.length_contents hi]
  exact (h.proper i hi).tidy.length_chain

/-- The items in use are those that the entries demand. -/
theorem Block.Packed.available_add_demand (h : b.Packed hash cells xs) :
    b.pool.available + demandOf hash cells xs = b.itemCount := by
  have hchains : demandOf hash cells xs = ∑ i ∈ range cells, (b.cell i).chain.length :=
    sum_congr rfl fun i hi => (h.length_chain (mem_range.mp hi)).symm
  rw [hchains, ← h.size]
  exact Block.available_add h.items h.counted

theorem Block.Packed.place_eq_none_iff (h : b.Packed hash cells xs) (hpos : 0 < cells) :
    b.place (hash e.key) e true = none ↔ b.itemCount < demandOf hash cells (e ::ₘ xs) := by
  have hi : b.indexOf (hash e.key) = cellIndex cells (hash e.key) := by rw [Block.indexOf, h.size]
  have hcount := h.count_eq (cellIndex_lt hpos (hash e.key))
  have hitems := h.available_add_demand
  rw [Block.place_eq_none_iff, Pool.alloc_eq_none_iff, ← List.length_eq_zero_iff,
    ← Pool.available_eq h.counted, hi, demandOf_cons hpos]
  split <;> omega

/-- All entries find room exactly if they demand no more items than there are, and then they are all
there. -/
theorem Block.Packed.placeAll (h : b.Packed hash cells xs) (hpos : 0 < cells) (ys : List Entry) :
    ((b.placeAll hash ys).1 = true ↔ demandOf hash cells (ys + xs) ≤ b.itemCount) ∧
    ((b.placeAll hash ys).1 = true → (b.placeAll hash ys).2.Packed hash cells (ys + xs)) := by
  -- On the entries that are still to come; those in the block already are `xs`.
  induction ys generalizing b xs with
  | nil =>
    have hitems := h.available_add_demand
    rw [Multiset.coe_nil, zero_add]
    exact ⟨iff_of_true rfl (by omega), fun _ => h⟩
  | cons e ys ih =>
    have hmoved : ((e :: ys : List Entry) : Multiset Entry) + xs = ys + e ::ₘ xs := by
      rw [← Multiset.cons_coe, Multiset.cons_add, Multiset.add_cons]
    rw [hmoved]
    unfold Block.placeAll
    cases hplace : b.place (hash e.key) e true with
    | none =>
      -- Later entries never give an item back, so what is too much now is too much in the end.
      have hfull := (h.place_eq_none_iff hpos).mp hplace
      have hmono : demandOf hash cells (e ::ₘ xs) ≤ demandOf hash cells (ys + e ::ₘ xs) :=
        demandOf_le_add _ _
      exact ⟨iff_of_false Bool.false_ne_true (by omega), nofun⟩
    | some block =>
      have hsize : block.itemCount = b.itemCount :=
        congrArg (· * shelfItems) (Block.shelfCount_place hplace)
      rw [← hsize]
      exact ih (h.place hpos hplace)

theorem Block.packed_empty (cells shelves : Nat) (hash : UInt64 → UInt64) :
    (Block.empty cells shelves).Packed hash cells 0 := by
  have hcell := Block.cell_empty cells shelves
  refine ⟨Array.size_replicate, fun i _ => ?_, fun i _ => ?_, fun i => ?_, fun i => ?_,
    Block.items_empty cells shelves, Pool.counted_full shelves⟩
  · rw [hcell]
    exact Cell.proper_empty
  · rw [Block.contents, hcell]
    rfl
  · rw [Block.isLockedAt, hcell]
    decide
  · rw [hcell]
    decide

end EpochTable
