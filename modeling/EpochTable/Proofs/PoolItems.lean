import EpochTable.Pool
import EpochTable.Proofs.Lists

namespace EpochTable

variable {p p' : Pool} {item : Item} {shelf shelf' : Shelf} {home : Nat}

def Pool.freeAt (p : Pool) (home : Nat) : List Item :=
  ((p.shelves[home]?.map Shelf.free).getD []).map (Item.mk home)

def Pool.freeItems (p : Pool) : List Item := (List.range p.shelves.size).flatMap p.freeAt

def Item.all (shelves : Nat) : List Item :=
  (List.range shelves).flatMap fun home => (List.range shelfItems).map (Item.mk home)

def Pool.Counted (p : Pool) : Prop :=
  ∀ (home : Nat) (shelf : Shelf), p.shelves[home]? = some shelf → shelf.available = shelf.free.length

def Pool.setShelf (p : Pool) (home : Nat) (shelf : Shelf) : Pool :=
  ⟨p.shelves.setIfInBounds home shelf⟩

theorem Pool.size_setShelf (p : Pool) (home : Nat) (shelf : Shelf) :
    (p.setShelf home shelf).shelves.size = p.shelves.size :=
  Array.size_setIfInBounds

theorem Pool.getElem?_setShelf (h : p.shelves[home]? = some shelf) (shelf' : Shelf) (k : Nat) :
    (p.setShelf home shelf').shelves[k]? = if home = k then some shelf' else p.shelves[k]? := by
  obtain ⟨hlt, _⟩ := Array.getElem?_eq_some_iff.mp h
  rw [Pool.setShelf, Array.getElem?_setIfInBounds]
  split
  next he =>
    subst he
    rfl
  next => rfl

theorem Pool.freeAt_of_shelf (h : p.shelves[home]? = some shelf) :
    p.freeAt home = shelf.free.map (Item.mk home) := by
  simp [Pool.freeAt, h]

theorem Pool.freeItems_setShelf (h : p.shelves[home]? = some shelf) (shelf' : Shelf) :
    (shelf.free.map (Item.mk home) ++ (p.setShelf home shelf').freeItems).Perm
      (shelf'.free.map (Item.mk home) ++ p.freeItems) := by
  obtain ⟨hlt, _⟩ := Array.getElem?_eq_some_iff.mp h
  have hset := Pool.getElem?_setShelf h shelf' home
  rw [if_pos rfl] at hset
  have hperm := flatMap_perm_of_forall_ne (f := p.freeAt) (g := (p.setShelf home shelf').freeAt)
    (a := home) List.nodup_range (List.mem_range.mpr hlt) fun k _ hk => by
      rw [Pool.freeAt, Pool.getElem?_setShelf h, if_neg (Ne.symm hk), Pool.freeAt]
  rw [Pool.freeAt_of_shelf h, Pool.freeAt_of_shelf hset] at hperm
  rw [Pool.freeItems, Pool.size_setShelf]
  exact hperm

theorem Pool.Counted.setShelf (hp : p.Counted) (h : p.shelves[home]? = some shelf)
    (hs : shelf'.available = shelf'.free.length) : (p.setShelf home shelf').Counted := by
  intro k s hk
  rw [Pool.getElem?_setShelf h] at hk
  split at hk
  · cases Option.some.inj hk
    exact hs
  · exact hp k s hk

theorem Pool.takeFrom_eq_some (h : p.takeFrom home = some (item, p')) :
    ∃ shelf index rest, p.shelves[home]? = some shelf ∧ shelf.free = index :: rest ∧
      item = ⟨home, index⟩ ∧ p' = p.setShelf home ⟨rest, shelf.available - 1⟩ := by
  unfold Pool.takeFrom at h
  split at h
  next => cases h
  next shelf hshelf =>
    cases hfree : shelf.free with
    | nil => simp [Shelf.pop, hfree] at h
    | cons index rest =>
      simp only [Shelf.pop, hfree] at h
      cases Option.some.inj h
      exact ⟨shelf, index, rest, hshelf, hfree, rfl, rfl⟩

/-- The shelves that are tried, in the order of their turns. -/
theorem Pool.probe_eq_findSome? (p : Pool) (start tries : Nat) : p.probe start tries
    = (List.range tries).findSome? fun k => p.takeFrom ((start + k) % p.shelves.size) := by
  induction tries generalizing start with
  | zero => rfl
  | succ tries ih =>
    rw [Pool.probe, List.range_succ_eq_map, List.findSome?_cons, List.findSome?_map, Nat.add_zero]
    cases p.takeFrom (start % p.shelves.size) with
    | some taken => rfl
    | none =>
      simp only [ih, Function.comp_def, Nat.succ_eq_add_one]
      simp only [Nat.add_assoc, Nat.add_comm 1]

/-- A lent item is one less that is free. -/
structure Pool.Lends (p : Pool) (item : Item) (p' : Pool) : Prop where
  items : p.freeItems.Perm (item :: p'.freeItems)
  size : p'.shelves.size = p.shelves.size
  counted : p.Counted → p'.Counted

theorem Pool.lends_of_takeFrom (h : p.takeFrom home = some (item, p')) : p.Lends item p' := by
  obtain ⟨shelf, index, rest, hshelf, hfree, rfl, rfl⟩ := Pool.takeFrom_eq_some h
  refine ⟨?_, Pool.size_setShelf _ _ _, ?_⟩
  · have hperm := Pool.freeItems_setShelf hshelf ⟨rest, shelf.available - 1⟩
    rw [hfree, List.map_cons] at hperm
    refine ((List.perm_append_left_iff (rest.map (Item.mk home))).mp ?_).symm
    exact List.perm_middle.trans hperm
  · intro hp
    refine hp.setShelf hshelf ?_
    have hcount := hp home shelf hshelf
    rw [hfree, List.length_cons] at hcount
    simp only
    omega

theorem Pool.lends_of_alloc {hash : UInt64} (h : p.alloc hash = some (item, p')) :
    p.Lends item p' := by
  rw [Pool.alloc, Pool.probe_eq_findSome?] at h
  obtain ⟨offset, _, htake⟩ := List.exists_of_findSome?_eq_some h
  exact Pool.lends_of_takeFrom htake

theorem Pool.takeFrom_eq_none_iff : p.takeFrom home = none ↔ p.freeAt home = [] := by
  unfold Pool.takeFrom
  cases hshelf : p.shelves[home]? with
  | none => simp [Pool.freeAt, hshelf]
  | some shelf =>
    cases hfree : shelf.free with
    | nil => simp [Pool.freeAt, hshelf, Shelf.pop, hfree]
    | cons index rest => simp [Pool.freeAt, hshelf, Shelf.pop, hfree]

/-- The tries go round all shelves, so nothing is found only if nothing is there. -/
theorem Pool.alloc_eq_none_iff {hash : UInt64} : p.alloc hash = none ↔ p.freeItems = [] := by
  constructor
  · intro h
    rw [Pool.freeItems, List.flatMap_eq_nil_iff]
    intro home hhome
    have hlt := List.mem_range.mp hhome
    have hstart : hash.toNat % p.shelves.size < p.shelves.size := Nat.mod_lt _ (by omega)
    have hall : ∀ k < p.shelves.size,
        p.freeAt ((hash.toNat % p.shelves.size + k) % p.shelves.size) = [] := by
      rw [Pool.alloc, Pool.probe_eq_findSome?, List.findSome?_eq_none_iff] at h
      exact fun k hk => Pool.takeFrom_eq_none_iff.mp (h k (List.mem_range.mpr hk))
    generalize hash.toNat % p.shelves.size = start at hstart hall
    by_cases hle : start ≤ home
    · have hk := hall (home - start) (by omega)
      rwa [Nat.add_sub_cancel' hle, Nat.mod_eq_of_lt hlt] at hk
    · have hk := hall (p.shelves.size - start + home) (by omega)
      rwa [← Nat.add_assoc, Nat.add_sub_cancel' (by omega), Nat.add_mod_left,
        Nat.mod_eq_of_lt hlt] at hk
  · intro h
    rw [Option.eq_none_iff_forall_ne_some]
    rintro ⟨item, p'⟩ htaken
    have hperm := (Pool.lends_of_alloc htaken).items
    rw [h] at hperm
    exact List.cons_ne_nil _ _ (List.nil_perm.mp hperm)

theorem Pool.release_eq (h : p.shelves[item.home]? = some shelf) :
    p.release item = p.setShelf item.home (shelf.push item.index) := by
  obtain ⟨hlt, _⟩ := Array.getElem?_eq_some_iff.mp h
  rw [Pool.release, Pool.setShelf, Pool.mk.injEq]
  apply Array.ext_getElem?
  intro k
  rw [Array.getElem?_modify, Array.getElem?_setIfInBounds]
  by_cases hk : item.home = k
  · subst hk
    rw [if_pos rfl, if_pos rfl, if_pos hlt, h]
    rfl
  · rw [if_neg hk, if_neg hk]

theorem Pool.lends_release (h : item.home < p.shelves.size) : (p.release item).Lends item p ∧
    (p.Counted → (p.release item).Counted) := by
  obtain ⟨shelf, hshelf⟩ : ∃ shelf, p.shelves[item.home]? = some shelf :=
    ⟨_, Array.getElem?_eq_getElem h⟩
  have hperm := Pool.freeItems_setShelf hshelf (shelf.push item.index)
  rw [Pool.release_eq hshelf]
  refine ⟨⟨?_, (Pool.size_setShelf _ _ _).symm, ?_⟩, ?_⟩
  · apply (List.perm_append_left_iff (shelf.free.map (Item.mk item.home))).mp
    exact hperm.trans List.perm_middle.symm
  · intro hp k s hk
    by_cases he : item.home = k
    · subst he
      have hpush := hp item.home _ (by rw [Pool.getElem?_setShelf hshelf, if_pos rfl])
      cases Option.some.inj (hshelf.symm.trans hk)
      simpa [Shelf.push] using hpush
    · exact hp k s (by rw [Pool.getElem?_setShelf hshelf, if_neg he, hk])
  · intro hp
    refine hp.setShelf hshelf ?_
    have hcount := hp item.home shelf hshelf
    simp only [Shelf.push, List.length_cons]
    omega

theorem Pool.freeItems_full (shelves : Nat) : (Pool.full shelves).freeItems = Item.all shelves := by
  have hsize : (Pool.full shelves).shelves.size = shelves := Array.size_replicate
  rw [Pool.freeItems, Item.all, hsize]
  refine List.flatMap_congr fun home hhome => ?_
  have hshelf : (Pool.full shelves).shelves[home]? = some Shelf.full := by
    simpa [Pool.full, Array.getElem?_replicate] using hhome
  simp [Pool.freeAt, hshelf, Shelf.full]

theorem Pool.counted_full (shelves : Nat) : (Pool.full shelves).Counted := by
  intro home shelf h
  simp only [Pool.full, Array.getElem?_replicate] at h
  split at h
  · cases Option.some.inj h
    rfl
  · cases h

theorem Pool.available_eq (h : p.Counted) : p.available = p.freeItems.length := by
  rw [Pool.available, Pool.freeItems, List.length_flatMap]
  refine congrArg List.sum (List.ext_getElem (by simp) fun home hhome _ => ?_)
  have hlt : home < p.shelves.size := by simpa using hhome
  have hshelf := Array.getElem?_eq_getElem hlt
  simp [Pool.freeAt, hshelf, h home _ hshelf]

theorem Item.length_all (shelves : Nat) : (Item.all shelves).length = shelves * shelfItems := by
  induction shelves with
  | zero => rfl
  | succ n ih =>
    rw [Item.all, List.range_succ, List.flatMap_append, List.length_append]
    have hn : ((List.range n).flatMap fun home => (List.range shelfItems).map (Item.mk home)).length
        = n * shelfItems := ih
    rw [hn]
    simp [Nat.succ_mul]

theorem Item.home_lt {shelves : Nat} (h : item ∈ Item.all shelves) : item.home < shelves := by
  obtain ⟨home, hhome, hmem⟩ := List.mem_flatMap.mp h
  obtain ⟨index, _, rfl⟩ := List.mem_map.mp hmem
  exact List.mem_range.mp hhome

end EpochTable
