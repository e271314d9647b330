import EpochTable.Proofs.CellLayout

namespace EpochTable

open Finset

variable {b b' : Block} {hash : UInt64 → UInt64} {d : Dict} {e : Entry} {key : UInt64}
  {cells factor : Nat} {keys keys' : Finset UInt64}

/-- The number of keys that belong in a cell. -/
def loadAt (hash : UInt64 → UInt64) (cells : Nat) (keys : Finset UInt64) (i : Nat) : Nat :=
  (keys.filter fun k => cellIndex cells (hash k) = i).card

/-- The number of keys for which the inline slots of their cells are too few. -/
def demand (hash : UInt64 → UInt64) (cells : Nat) (keys : Finset UInt64) : Nat :=
  ∑ i ∈ range cells, (loadAt hash cells keys i - inlineSlots)

theorem loadAt_mono (h : keys ⊆ keys') (i : Nat) :
    loadAt hash cells keys i ≤ loadAt hash cells keys' i :=
  card_le_card (filter_subset_filter _ h)

theorem demand_mono (h : keys ⊆ keys') : demand hash cells keys ≤ demand hash cells keys' :=
  sum_le_sum fun i _ => Nat.sub_le_sub_right (loadAt_mono h i) _

theorem loadAt_insert (h : key ∉ keys) (i : Nat) :
    loadAt hash cells (insert key keys) i
      = loadAt hash cells keys i + if cellIndex cells (hash key) = i then 1 else 0 := by
  rw [loadAt, filter_insert]
  split
  · rw [card_insert_of_notMem fun hmem => h (mem_filter.mp hmem).1]
    rfl
  · rfl

/-- One more key needs an item exactly if the slots of its cell are taken. -/
theorem demand_insert (hpos : 0 < cells) (h : key ∉ keys) :
    demand hash cells (insert key keys) = demand hash cells keys
      + if inlineSlots ≤ loadAt hash cells keys (cellIndex cells (hash key)) then 1 else 0 :=
  sum_sub_add_one (cellIndex_lt hpos _) (loadAt_insert h)

theorem sum_sub_le {α : Type} (s : Finset α) (f : α → Nat) (n : Nat) :
    ∑ a ∈ s, (f a - n) ≤ ∑ a ∈ s, f a - n := by
  classical
  induction s using Finset.induction_on with
  | empty => simp
  | insert a s ha ih =>
    rw [sum_insert ha, sum_insert ha]
    by_cases hle : f a ≤ n
    · omega
    · have hsum : ∑ x ∈ s, (f x - n) ≤ ∑ x ∈ s, f x := sum_le_sum fun x _ => Nat.sub_le _ _
      omega

theorem cellIndex_mul (x : UInt64) : cellIndex (cells * factor) x % cells = cellIndex cells x :=
  Nat.mod_mul_right_mod _ _ _

/-- The cells that a cell is split into share its keys among them. -/
theorem sum_loadAt_mul (hpos : 0 < cells) (hfactor : 0 < factor) (i : Nat) :
    ∑ j ∈ range (cells * factor) with j % cells = i, loadAt hash (cells * factor) keys j
      = loadAt hash cells keys i := by
  have hmaps : ∀ k ∈ keys.filter fun k => cellIndex cells (hash k) = i,
      cellIndex (cells * factor) (hash k) ∈ (range (cells * factor)).filter fun j => j % cells = i := by
    intro k hk
    rw [mem_filter, mem_range, cellIndex_mul]
    exact ⟨cellIndex_lt (Nat.mul_pos hpos hfactor) _, (mem_filter.mp hk).2⟩
  rw [loadAt, card_eq_sum_card_fiberwise hmaps]
  refine sum_congr rfl fun j hj => ?_
  have hji := (mem_filter.mp hj).2
  rw [loadAt, filter_filter]
  refine congrArg card (filter_congr fun k _ => ?_)
  constructor
  · intro hk
    refine ⟨?_, hk⟩
    rw [← hji, ← hk, cellIndex_mul]
  · exact And.right

/-- Splitting cells never makes more keys spill over. -/
theorem demand_mul_le (hpos : 0 < cells) (hfactor : 0 < factor) :
    demand hash (cells * factor) keys ≤ demand hash cells keys := by
  have hmaps : ∀ j ∈ range (cells * factor), j % cells ∈ range cells := fun j _ =>
    mem_range.mpr (Nat.mod_lt _ hpos)
  calc demand hash (cells * factor) keys
      = ∑ i ∈ range cells, ∑ j ∈ range (cells * factor) with j % cells = i,
          (loadAt hash (cells * factor) keys j - inlineSlots) :=
        (sum_fiberwise_of_maps_to hmaps _).symm
    _ ≤ ∑ i ∈ range cells, (∑ j ∈ range (cells * factor) with j % cells = i,
          loadAt hash (cells * factor) keys j - inlineSlots) :=
        sum_le_sum fun i _ => sum_sub_le _ _ _
    _ = demand hash cells keys :=
        sum_congr rfl fun i _ => by rw [sum_loadAt_mul hpos hfactor]

end EpochTable
