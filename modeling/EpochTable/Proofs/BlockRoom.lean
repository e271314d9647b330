import EpochTable.Proofs.Demand

namespace EpochTable

variable {b b' : Block} {hash : UInt64 → UInt64} {d : Dict} {e : Entry} {key : UInt64}
  {cells shelves factor : Nat} {xs : List Entry}

theorem Dict.keys_insert (d : Dict) (key value : UInt64) :
    (d.insert key value).keys = insert key d.keys := by
  ext k
  rw [Finset.mem_insert, Finmap.mem_keys, Finmap.mem_keys, Finmap.mem_insert]

theorem Dict.Lists.keys_eq (h : d.Lists (fun _ => True) xs) :
    (xs.map Entry.key).toFinset = d.keys := by
  ext k
  rw [List.mem_toFinset, List.mem_map, Finmap.mem_keys, Finmap.mem_iff]
  constructor
  · rintro ⟨e, he, rfl⟩
    exact ⟨e.value, h.lookup_of_mem he⟩
  · rintro ⟨value, hv⟩
    exact ⟨⟨k, value⟩, (h.mem _).mpr ⟨hv, trivial⟩, rfl⟩

theorem Block.Holds.count_eq (h : b.Holds hash d) {i : Nat} (hi : i < b.cellCount) :
    (b.cell i).word.count = min inlineSlots (loadAt hash b.cellCount d.keys i) :=
  ((h.proper i hi).laidOut (h.lists i hi)).count

theorem Block.Holds.length_chain (h : b.Holds hash d) {i : Nat} (hi : i < b.cellCount) :
    (b.cell i).chain.length = loadAt hash b.cellCount d.keys i - inlineSlots := by
  have hchain := ((h.proper i hi).laidOut (h.lists i hi)).chain
  have hload : d.load (fun k => b.indexOf (hash k) = i) = loadAt hash b.cellCount d.keys i := rfl
  omega

/-- The items in use are those that the keys demand. -/
theorem Block.Holds.available_add_demand (h : b.Holds hash d) :
    b.pool.available + demand hash b.cellCount d.keys = b.itemCount := by
  have hchains : demand hash b.cellCount d.keys
      = ∑ i ∈ Finset.range b.cellCount, (b.cell i).chain.length :=
    Finset.sum_congr rfl fun i hi => (h.length_chain (Finset.mem_range.mp hi)).symm
  rw [hchains]
  exact h.available_add

/-- A key finds no room exactly if it would demand more items than there are. -/
theorem Block.Holds.crowded_iff (h : b.Holds hash d) (hpos : 0 < b.cellCount)
    (hd : d.lookup key = none) :
    (b.cell (b.indexOf (hash key))).word.count = inlineSlots ∧ b.pool.available = 0 ↔
      b.itemCount < demand hash b.cellCount (insert key d.keys) := by
  have habsent : key ∉ d.keys := by rwa [Finmap.mem_keys, ← Finmap.lookup_eq_none]
  have hcount := h.count_eq (Block.indexOf_lt hpos (hash key))
  have hitems := h.available_add_demand
  have hindex : b.indexOf (hash key) = cellIndex b.cellCount (hash key) := rfl
  rw [demand_insert hpos habsent, ← hindex]
  split <;> omega

theorem loadOf_eq_loadAt (h : d.Lists (fun _ => True) xs) (i : Nat) :
    loadOf hash cells xs i = loadAt hash cells d.keys i := by
  have hkeys : (d.keys.filter fun k => cellIndex cells (hash k) = i)
      = ((xs.filter (Entry.belongs hash cells i)).map Entry.key).toFinset := by
    ext k
    simp only [← h.keys_eq, Finset.mem_filter, List.mem_toFinset, List.mem_map, List.mem_filter,
      Entry.belongs]
    grind
  rw [loadAt, hkeys, List.toFinset_card_of_nodup (h.nodup.sublist (List.filter_sublist.map _)),
    List.length_map, loadOf, Multiset.coe_countP, List.countP_eq_length_filter]

/-- A fresh block takes all entries of another one exactly if it has the items that they demand. -/
theorem Block.Holds.absorb_fst (h : b.Holds hash d) (hsource : 0 < b.cellCount)
    (hpos : 0 < cells) (shelves : Nat) :
    ((Block.empty cells shelves).absorb b hash).1 = true ↔
      demand hash cells d.keys ≤ shelves * shelfItems := by
  have hplaced := ((Block.packed_empty cells shelves hash).placeAll hpos b.entries).1
  have hitems : (Block.empty cells shelves).itemCount = shelves * shelfItems :=
    congrArg (· * shelfItems) Array.size_replicate
  have hdemand : demandOf hash cells b.entries = demand hash cells d.keys :=
    Finset.sum_congr rfl fun i _ => by rw [loadOf_eq_loadAt (h.entries hsource)]
  rw [add_zero, hitems, hdemand] at hplaced
  exact hplaced

/-- A block with more cells and no fewer items takes everything. -/
theorem Block.Holds.absorb_larger (h : b.Holds hash d) (hpos : 0 < b.cellCount)
    (hfactor : 0 < factor) (hshelves : b.shelfCount ≤ shelves) :
    ((Block.empty (b.cellCount * factor) shelves).absorb b hash).1 = true := by
  have hitems := h.available_add_demand
  have hdemand : demand hash (b.cellCount * factor) d.keys ≤ demand hash b.cellCount d.keys :=
    demand_mul_le hpos hfactor
  have hmore : b.itemCount ≤ shelves * shelfItems := Nat.mul_le_mul_right _ hshelves
  rw [h.absorb_fst hpos (Nat.mul_pos hpos hfactor)]
  omega

end EpochTable
