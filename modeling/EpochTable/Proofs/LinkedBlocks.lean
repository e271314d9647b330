import EpochTable.Proofs.FirstFit
import EpochTable.Proofs.ItemPaths

namespace EpochTable

variable {l : LinkedBlock} {b : Block} {hands items : List Item} {m' : ItemMemory} {spot other : ItemSpot}
  {item : Item} {i home : Nat} {c : LinkedCell} {cell : Cell} {s : LinkedShelf} {shelf shelf' : Shelf}
  {chain : List Spill}

theorem Block.KeepsItems.spot_eq (keeps : b.KeepsItems hands) (here : item ∈ b.itemsAt hands spot)
    (there : item ∈ b.itemsAt hands other) : other = spot := by
  obtain ⟨hhome, hindex⟩ := keeps.known spot item here
  obtain ⟨only, _, hnone⟩ := keeps.placed item hhome hindex
  have honly (place : ItemSpot) (hmem : item ∈ b.itemsAt hands place) : place = only :=
    by_contra fun hne => hnone place hne hmem
  rw [honly spot here, honly other there]

theorem Block.KeepsItems.nodup (keeps : b.KeepsItems hands) (spot : ItemSpot) :
    (b.itemsAt hands spot).Nodup := by
  rw [List.nodup_iff_count_le_one]
  intro item
  by_cases hmem : item ∈ b.itemsAt hands spot
  · obtain ⟨hhome, hindex⟩ := keeps.known spot item hmem
    obtain ⟨only, hcount, hnone⟩ := keeps.placed item hhome hindex
    have hspot : spot = only := by_contra fun hne => hnone spot hne hmem
    rw [hspot, hcount]
  · rw [List.count_eq_zero_of_not_mem hmem]
    omega

/-- The free list of a shelf in memory is that of the pool. -/
structure LinkedShelf.Shows (s : LinkedShelf) (m : ItemMemory) (p : Pool) (home : Nat) : Prop where
  available : ∃ shelf, p.shelves[home]? = some shelf ∧ s.available = shelf.available
  list : ∃ chain, m.Path s.free chain ∧ chain.map Spill.item = p.freeAt home

/-- In memory the block is this one, and every item is there. -/
structure LinkedBlock.Lays (l : LinkedBlock) (b : Block) : Prop where
  cellCount : l.cells.size = b.cellCount
  cells : ∀ (i : Nat) (c : LinkedCell), l.cells[i]? = some c → c.Shows l.items (b.cell i)
  shelfCount : l.shelves.size = b.shelfCount
  shelves : ∀ (home : Nat) (s : LinkedShelf), l.shelves[home]? = some s →
    s.Shows l.items b.pool home
  there : ∀ item ∈ Item.all b.shelfCount, (l.items.node? item).isSome = true

theorem LinkedShelf.Shows.frame {m m' : ItemMemory} {p : Pool} (shows : s.Shows m p home)
    (writes : m.Writes m' items) (apart : items.Disjoint (p.freeAt home)) : s.Shows m' p home := by
  obtain ⟨chain, path, hitems⟩ := shows.list
  exact ⟨shows.available, chain, path.frame writes (hitems ▸ apart), hitems⟩

/-- What lies at one spot lies at no other. -/
theorem Block.KeepsItems.apart (keeps : b.KeepsItems hands)
    (own : ∀ x ∈ items, x ∈ b.itemsAt hands spot) (hne : other ≠ spot) :
    items.Disjoint (b.itemsAt hands other) :=
  fun x hx hother => hne (keeps.spot_eq (own x hx) hother)

theorem Block.KeepsItems.apart_singleton (keeps : b.KeepsItems hands)
    (here : item ∈ b.itemsAt hands spot) (hne : other ≠ spot) :
    List.Disjoint [item] (b.itemsAt hands other) :=
  List.singleton_disjoint.mpr fun hother => hne (keeps.spot_eq here hother)

theorem LinkedBlock.Lays.setCell (lays : l.Lays b) (inside : i < b.cellCount)
    (writes : l.items.Writes m' items)
    (apart : ∀ spot, spot ≠ .hands → spot ≠ .chain i → items.Disjoint (b.itemsAt hands spot))
    (shows : c.Shows m' cell) : (l.setCell i c m').Lays (b.setCell i cell) where
  cellCount := by
    rw [LinkedBlock.setCell, Array.size_setIfInBounds, lays.cellCount]
    exact Array.size_setIfInBounds.symm
  cells := fun j c' hc' => by
    have hdef : b.setCell i cell = b.revise i cell b.pool := rfl
    rw [LinkedBlock.setCell, Array.getElem?_setIfInBounds] at hc'
    split at hc'
    next hij =>
      rw [if_pos (lays.cellCount ▸ hij ▸ inside)] at hc'
      rw [← Option.some.inj hc', ← hij, hdef, Block.cell_revise_self inside]
      exact shows
    next hij =>
      rw [hdef, Block.cell_revise_of_ne (Ne.symm hij)]
      have hne : ItemSpot.chain j ≠ .chain i := fun he => hij (ItemSpot.chain.inj he).symm
      exact (lays.cells j c' hc').frame writes (apart (.chain j) (by simp) hne)
  shelfCount := lays.shelfCount
  shelves := fun home s hs =>
    (lays.shelves home s hs).frame writes (apart (.shelf home) (by simp) (by simp))
  there := fun item hitem => (writes.there item).trans (lays.there item hitem)

theorem LinkedBlock.Lays.setShelf (lays : l.Lays b) (hshelf : b.pool.shelves[home]? = some shelf)
    (writes : l.items.Writes m' items)
    (apart : ∀ spot, spot ≠ .hands → spot ≠ .shelf home → items.Disjoint (b.itemsAt hands spot))
    (path : m'.Path s.free chain) (free : chain.map Spill.item = shelf'.free.map (Item.mk home))
    (available : s.available = shelf'.available) :
    (l.setShelf home s m').Lays { b with pool := b.pool.setShelf home shelf' } where
  cellCount := lays.cellCount
  cells := fun j c hc => (lays.cells j c hc).frame writes (apart (.chain j) (by simp) (by simp))
  shelfCount := by
    rw [LinkedBlock.setShelf, Array.size_setIfInBounds, lays.shelfCount]
    exact (Pool.size_setShelf _ _ _).symm
  shelves := fun k s' hs' => by
    have hget := Pool.getElem?_setShelf hshelf shelf' k
    rw [LinkedBlock.setShelf, Array.getElem?_setIfInBounds] at hs'
    split at hs'
    next hk =>
      subst hk
      rw [if_pos rfl] at hget
      split at hs'
      next =>
        cases Option.some.inj hs'
        refine ⟨⟨shelf', hget, available⟩, chain, path, ?_⟩
        rw [free, Pool.freeAt_of_shelf hget]
      next => cases hs'
    next hk =>
      rw [if_neg hk] at hget
      have hfree : (b.pool.setShelf home shelf').freeAt k = b.pool.freeAt k := by
        rw [Pool.freeAt, hget, Pool.freeAt]
      have hne : ItemSpot.shelf k ≠ .shelf home := fun he => hk (ItemSpot.shelf.inj he).symm
      have hshows : s'.Shows m' b.pool k :=
        (lays.shelves k s' hs').frame writes (apart (.shelf k) (by simp) hne)
      exact ⟨hget.symm ▸ hshows.available, hfree.symm ▸ hshows.list⟩
  there := fun item hitem => by
    have hsize : Block.shelfCount { b with pool := b.pool.setShelf home shelf' } = b.shelfCount :=
      Pool.size_setShelf _ _ _
    exact (writes.there item).trans (lays.there item (hsize ▸ hitem))

theorem LinkedBlock.lays_empty (cells shelves : Nat) :
    (LinkedBlock.empty cells shelves).Lays (Block.empty cells shelves) where
  cellCount := by simp [LinkedBlock.empty, Block.empty, Block.cellCount]
  cells := fun i c hc => by
    obtain ⟨_, rfl⟩ : i < cells ∧ ⟨⟨0⟩, [], none⟩ = c := by
      simpa [LinkedBlock.empty, Array.getElem?_replicate] using hc
    rw [Block.cell_empty]
    exact ⟨rfl, rfl, .nil⟩
  shelfCount := by simp [LinkedBlock.empty, Block.empty, Pool.full, Block.shelfCount]
  shelves := fun home s hs => by
    obtain ⟨hhome, rfl⟩ : ∃ _ : home < shelves, ⟨some ⟨home, 0⟩, shelfItems⟩ = s := by
      simpa [LinkedBlock.empty, Array.getElem?_ofFn] using hs
    have hshelf : (Block.empty cells shelves).pool.shelves[home]? = some Shelf.full := by
      simp [Block.empty, Pool.full, hhome]
    have hfree : (Block.empty cells shelves).pool.freeAt home = _ := Pool.freeAt_full hhome
    refine ⟨⟨Shelf.full, hshelf, rfl⟩, _, ItemMemory.path_fresh hhome 9 rfl, ?_⟩
    rw [hfree, List.map_map, List.range_eq_range']
    rfl
  there := fun item hitem => by
    have hsize : (Block.empty cells shelves).shelfCount = shelves := Array.size_replicate
    obtain ⟨hhome, hindex⟩ := Item.mem_all.mp hitem
    rw [hsize] at hhome
    exact Option.isSome_iff_exists.mpr ⟨_, ItemMemory.node?_fresh hhome hindex⟩

def ItemMemory.next (m : ItemMemory) (item : Item) : Option Item :=
  (m.node? item).bind ItemNode.next

theorem ItemMemory.Path.linked {m : ItemMemory} {head : Option Item} (path : m.Path head chain) :
    (chain.map Spill.item).head? = head ∧
      Item.Linked m.next (chain.map Spill.item) := by
  induction path with
  | nil => exact ⟨rfl, trivial⟩
  | cons node _ ih =>
    refine ⟨rfl, ?_, ih.2⟩
    rw [ItemMemory.next, node, ih.1]
    rfl

/-- The links in memory thread all chains and all free lists. -/
theorem LinkedBlock.Lays.linked (lays : l.Lays b) (hne : spot ≠ .hands) :
    Item.Linked l.items.next (b.itemsAt hands spot) := by
  cases spot with
  | shelf home =>
    by_cases hlt : home < l.shelves.size
    · obtain ⟨chain, path, hitems⟩ := (lays.shelves home _ (Array.getElem?_eq_getElem hlt)).list
      rw [Block.itemsAt, ← hitems]
      exact path.linked.2
    · rw [lays.shelfCount] at hlt
      rw [Block.itemsAt, Pool.freeAt_of_le (Nat.not_lt.mp hlt)]
      trivial
  | chain i =>
    by_cases hlt : i < l.cells.size
    · exact (lays.cells i _ (Array.getElem?_eq_getElem hlt)).chain.linked.2
    · rw [lays.cellCount] at hlt
      rw [Block.itemsAt, Block.cell_of_le (Nat.not_lt.mp hlt)]
      trivial
  | hands => exact absurd rfl hne

/-- The same item is taken, and what is left is laid out again. -/
def LinkedBlock.Takes (b : Block) (taken : Option (Item × Pool))
    (found : Option (Item × LinkedBlock)) : Prop :=
  Option.Rel (fun x y => y.1 = x.1 ∧ y.2.Lays { b with pool := x.2 }) taken found

theorem LinkedBlock.Lays.takeFrom_top (lays : l.Lays b) (keeps : b.KeepsItems hands)
    (hs : l.shelves[home]? = some s) {node : ItemNode} {rest : List Spill} (head : s.free = some item)
    (there : l.items.node? item = some node) (path : l.items.Path node.next rest)
    (list : b.itemsAt hands (.shelf home) = item :: rest.map Spill.item) :
    ∃ l' pool, l.takeFrom home = some (some (item, l')) ∧ b.pool.takeFrom home = some (item, pool) ∧
      l'.Lays { b with pool := pool } := by
  obtain ⟨⟨shelf, hshelf, havailable⟩, _⟩ := lays.shelves home s hs
  obtain ⟨index, left, hleft, rfl, hrest⟩ :=
    List.map_eq_cons_iff.mp ((Pool.freeAt_of_shelf hshelf).symm.trans list)
  obtain ⟨m', hwrite, _, hwrites⟩ := ItemMemory.exists_write there
    fun node => { node with next := none }
  have htake : l.takeFrom home
      = some (some (⟨home, index⟩, l.setShelf home ⟨node.next, s.available - 1⟩ m')) := by
    simp only [LinkedBlock.takeFrom, hs, head, there, hwrite, Option.bind_some, Option.map_some]
  have hnew := (List.nodup_cons.mp (list ▸ keeps.nodup (.shelf home))).1
  have hpath := path.frame hwrites (List.singleton_disjoint.mpr hnew)
  have hapart (spot : ItemSpot) (hne : spot ≠ .shelf home) :
      List.Disjoint [⟨home, index⟩] (b.itemsAt hands spot) :=
    keeps.apart_singleton (list ▸ List.mem_cons_self) hne
  refine ⟨_, _, htake, Pool.takeFrom_of_shelf hshelf hleft, ?_⟩
  refine lays.setShelf hshelf hwrites (fun spot _ => hapart spot) hpath hrest.symm ?_
  rw [havailable]

theorem LinkedBlock.Lays.takeFrom (lays : l.Lays b) (keeps : b.KeepsItems hands) (home : Nat) :
    ∃ found, l.takeFrom home = some found ∧ LinkedBlock.Takes b (b.pool.takeFrom home) found := by
  cases hs : l.shelves[home]? with
  | none =>
    have hle : l.shelves.size ≤ home := Array.getElem?_eq_none_iff.mp hs
    rw [lays.shelfCount] at hle
    refine ⟨none, by rw [LinkedBlock.takeFrom, hs], ?_⟩
    rw [Pool.takeFrom_eq_none_iff.mpr (Pool.freeAt_of_le hle)]
    exact .none
  | some s =>
    obtain ⟨chain, path, hitems⟩ := (lays.shelves home s hs).list
    generalize hhead : s.free = head at path
    cases path with
    | nil =>
      refine ⟨none, by simp only [LinkedBlock.takeFrom, hs, hhead], ?_⟩
      rw [Pool.takeFrom_eq_none_iff.mpr hitems.symm]
      exact .none
    | cons node rest =>
      obtain ⟨l', pool, htake, hpool, hlays⟩ :=
        lays.takeFrom_top keeps hs hhead node rest hitems.symm
      rw [hpool]
      exact ⟨_, htake, .some ⟨rfl, hlays⟩⟩

theorem LinkedBlock.Lays.probe (lays : l.Lays b) (keeps : b.KeepsItems hands) (start tries : Nat) :
    ∃ found, l.probe start tries = some found ∧
      LinkedBlock.Takes b (b.pool.probe start tries) found := by
  induction tries generalizing start with
  | zero => exact ⟨none, rfl, .none⟩
  | succ tries ih =>
    have hsize : l.shelves.size = b.pool.shelves.size := lays.shelfCount
    obtain ⟨found, htake, hrel⟩ := lays.takeFrom keeps (start % b.pool.shelves.size)
    rw [LinkedBlock.probe, Pool.probe, hsize, htake, Option.bind_some]
    generalize b.pool.takeFrom (start % b.pool.shelves.size) = taken at hrel
    cases hrel with
    | none => exact ih (start + 1)
    | some same => exact ⟨_, rfl, .some same⟩

theorem LinkedBlock.Lays.alloc (lays : l.Lays b) (keeps : b.KeepsItems hands) (hash : UInt64) :
    ∃ found, l.alloc hash = some found ∧ LinkedBlock.Takes b (b.pool.alloc hash) found := by
  have hsize : l.shelves.size = b.pool.shelves.size := lays.shelfCount
  rw [LinkedBlock.alloc, Pool.alloc, hsize]
  exact lays.probe keeps _ _

theorem LinkedBlock.Lays.exists_node (lays : l.Lays b) (keeps : b.KeepsItems hands)
    (mine : item ∈ hands) : ∃ node, l.items.node? item = some node := by
  have hknown := keeps.known .hands item mine
  exact Option.isSome_iff_exists.mp (lays.there item (Item.mem_all.mpr hknown))

theorem LinkedBlock.Lays.release (lays : l.Lays b) (keeps : b.KeepsItems hands)
    (mine : item ∈ hands) :
    ∃ l', l.release item = some l' ∧ l'.Lays { b with pool := b.pool.release item } := by
  obtain ⟨hhome, _⟩ := keeps.known .hands item mine
  have hlt : item.home < l.shelves.size := by rwa [lays.shelfCount]
  obtain ⟨⟨shelf, hshelf, havailable⟩, chain, path, hitems⟩ :=
    lays.shelves item.home _ (Array.getElem?_eq_getElem hlt)
  obtain ⟨node, hnode⟩ := lays.exists_node keeps mine
  obtain ⟨m', hwrite, hnew, hwrites⟩ := ItemMemory.exists_write hnode
    fun node => { node with next := l.shelves[item.home].free }
  have hapart (spot : ItemSpot) (hne : spot ≠ .hands) : List.Disjoint [item] (b.itemsAt hands spot) :=
    keeps.apart_singleton (show item ∈ b.itemsAt hands .hands from mine) hne
  have hlist := hapart (.shelf item.home) (by simp)
  rw [Block.itemsAt, ← hitems] at hlist
  have hrest : m'.Path l.shelves[item.home].free chain := path.frame hwrites hlist
  have hrelease : l.release item
      = some (l.setShelf item.home ⟨some item, l.shelves[item.home].available + 1⟩ m') := by
    simp only [LinkedBlock.release, Array.getElem?_eq_getElem hlt, hwrite, Option.bind_some,
      Option.map_some]
  refine ⟨_, hrelease, ?_⟩
  rw [Pool.release_eq hshelf]
  refine lays.setShelf hshelf hwrites (fun spot hne _ => hapart spot hne) (.cons hnew hrest) ?_ ?_
  · simp only [Shelf.push, List.map_cons, hitems, Pool.freeAt_of_shelf hshelf]
  · simp only [Shelf.push, havailable]

end EpochTable
