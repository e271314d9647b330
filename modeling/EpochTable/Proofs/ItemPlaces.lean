import EpochTable.Proofs.SingleGrowth

namespace EpochTable

variable {b : Block} {c : Cell} {pool : Pool} {item : Item} {hands : List Item} {i : Nat}
  {next next' : Item → Option Item} {items : List Item}

inductive ItemSpot where
  | shelf (home : Nat)
  | chain (cell : Nat)
  | hands
  deriving DecidableEq

def Block.itemsAt (b : Block) (hands : List Item) : ItemSpot → List Item
  | .shelf home => b.pool.freeAt home
  | .chain i => (b.cell i).items
  | .hands => hands

/-- From each of the items the link leads to the next one, and from the last one nowhere. -/
def Item.Linked (next : Item → Option Item) : List Item → Prop
  | [] => True
  | item :: rest => next item = rest.head? ∧ Linked next rest

/-- No item is lost, in two places or in one place twice; one link for each item is enough to thread all
free lists and all chains. -/
structure Block.KeepsItems (b : Block) (hands : List Item) : Prop where
  placed : ∀ item : Item, item.home < b.shelfCount → item.index < shelfItems →
    ∃ spot, (b.itemsAt hands spot).count item = 1 ∧
      ∀ other, other ≠ spot → item ∉ b.itemsAt hands other
  known : ∀ spot, ∀ item ∈ b.itemsAt hands spot,
    item.home < b.shelfCount ∧ item.index < shelfItems
  homely : ∀ home, ∀ item ∈ b.itemsAt hands (.shelf home), item.home = home
  linked : ∃ next, ∀ spot, spot ≠ .hands → Item.Linked next (b.itemsAt hands spot)
  counted : ∀ (home : Nat) (shelf : Shelf), b.pool.shelves[home]? = some shelf →
    shelf.available = shelf.free.length
  bounded : ∀ i, (b.cell i).chain.length ≤ b.itemCount

/-- The items on the shelves, in the chains and in hand are all there are. -/
structure Block.Accounts (b : Block) (hands : List Item) : Prop where
  items : (b.pool.freeItems ++ b.spilled ++ hands).Perm (Item.all b.shelfCount)
  counted : b.pool.Counted

theorem Item.mem_all {shelves : Nat} :
    item ∈ Item.all shelves ↔ item.home < shelves ∧ item.index < shelfItems := by
  constructor
  · intro h
    obtain ⟨home, hhome, hmem⟩ := List.mem_flatMap.mp h
    obtain ⟨index, hindex, rfl⟩ := List.mem_map.mp hmem
    exact ⟨List.mem_range.mp hhome, List.mem_range.mp hindex⟩
  · rintro ⟨hhome, hindex⟩
    refine List.mem_flatMap.mpr ⟨item.home, List.mem_range.mpr hhome, ?_⟩
    exact List.mem_map.mpr ⟨item.index, List.mem_range.mpr hindex, rfl⟩

theorem Item.nodup_all (shelves : Nat) : (Item.all shelves).Nodup := by
  rw [Item.all, List.nodup_flatMap]
  refine ⟨fun home _ => List.nodup_range.map fun _ _ he => (Item.mk.inj he).2, ?_⟩
  refine List.nodup_range.pairwise_of_forall_ne fun home _ other _ hne => ?_
  rw [Function.onFun, List.disjoint_left]
  intro item hitem hother
  obtain ⟨_, _, rfl⟩ := List.mem_map.mp hitem
  obtain ⟨_, _, he⟩ := List.mem_map.mp hother
  exact hne (Item.mk.inj he).1.symm

theorem Item.Linked.congr (h : Item.Linked next items)
    (hsame : ∀ item ∈ items, next' item = next item) : Item.Linked next' items := by
  induction items with
  | nil => trivial
  | cons item rest ih =>
    obtain ⟨hhead, hrest⟩ := List.forall_mem_cons.mp hsame
    exact ⟨hhead.trans h.1, ih h.2 hrest⟩

theorem Item.exists_linked (hn : items.Nodup) (next : Item → Option Item) :
    ∃ next', Item.Linked next' items ∧ ∀ item, item ∉ items → next' item = next item := by
  induction items with
  | nil => exact ⟨next, trivial, fun _ _ => rfl⟩
  | cons first rest ih =>
    obtain ⟨hfirst, hrest⟩ := List.nodup_cons.mp hn
    obtain ⟨inner, hlinked, hsame⟩ := ih hrest
    have hother : ∀ item, item ≠ first → Function.update inner first rest.head? item = inner item :=
      fun item hne => Function.update_of_ne hne _ _
    refine ⟨Function.update inner first rest.head?, ⟨Function.update_self .., ?_⟩, fun item hout => ?_⟩
    · exact hlinked.congr fun item hitem => hother item fun he => hfirst (he ▸ hitem)
    · rw [List.mem_cons, not_or] at hout
      rw [hother item hout.1, hsame item hout.2]

/-- One link for each item threads all lists at once if none of them share an item. -/
theorem Item.exists_linked_all {α : Type} {f : α → List Item} {xs : List α}
    (hn : (xs.flatMap f).Nodup) : ∃ next, ∀ x ∈ xs, Item.Linked next (f x) := by
  induction xs with
  | nil => exact ⟨fun _ => none, by simp⟩
  | cons x xs ih =>
    rw [List.flatMap_cons, List.nodup_append'] at hn
    obtain ⟨hfirst, hrest, hdisjoint⟩ := hn
    obtain ⟨next, hlinked⟩ := ih hrest
    obtain ⟨next', hnew, hsame⟩ := Item.exists_linked hfirst next
    refine ⟨next', List.forall_mem_cons.mpr ⟨hnew, fun x' hx' => (hlinked x' hx').congr ?_⟩⟩
    intro item hitem
    exact hsame item fun hin => hdisjoint hin (List.mem_flatMap.mpr ⟨x', hx', hitem⟩)

def Block.spots (b : Block) : List ItemSpot :=
  (List.range b.shelfCount).map .shelf ++ (List.range b.cellCount).map .chain ++ [.hands]

theorem Block.flatMap_spots (b : Block) (hands : List Item) :
    b.spots.flatMap (b.itemsAt hands) = b.pool.freeItems ++ b.spilled ++ hands := by
  simp [Block.spots, List.flatMap_append, List.flatMap_map, Block.itemsAt, Pool.freeItems,
    Block.spilled, Block.shelfCount]

theorem Pool.freeAt_of_le {home : Nat} (h : pool.shelves.size ≤ home) : pool.freeAt home = [] := by
  simp [Pool.freeAt, h]

/-- Nothing lies anywhere but on the shelves, in the cells and in hand. -/
theorem Block.mem_spots {spot : ItemSpot} (h : item ∈ b.itemsAt hands spot) : spot ∈ b.spots := by
  cases spot with
  | shelf home =>
    have hlt : home < b.shelfCount := by
      by_contra hle
      rw [Block.itemsAt, Pool.freeAt_of_le (Nat.le_of_not_lt hle)] at h
      simp at h
    simp [Block.spots, hlt]
  | chain i =>
    have hlt : i < b.cellCount := by
      by_contra hle
      rw [Block.itemsAt, Block.cell_of_le (Nat.le_of_not_lt hle)] at h
      simp [Cell.items, Cell.empty] at h
    simp [Block.spots, hlt]
  | hands => simp [Block.spots]

/-- What lies in one place is a part of what lies anywhere. -/
theorem Block.Accounts.length_le (h : b.Accounts hands) (spot : ItemSpot) :
    (b.itemsAt hands spot).length ≤ b.itemCount := by
  cases hitems : b.itemsAt hands spot with
  | nil => exact Nat.zero_le _
  | cons item rest =>
    have hmem : item ∈ b.itemsAt hands spot := by
      rw [hitems]
      exact List.mem_cons_self
    have hspot := Block.mem_spots hmem
    have hsub : (b.itemsAt hands spot).Sublist (b.spots.flatMap (b.itemsAt hands)) :=
      List.sublist_flatten_of_mem (List.mem_map.mpr ⟨spot, hspot, rfl⟩)
    have hall : (b.spots.flatMap (b.itemsAt hands)).length = b.itemCount := by
      rw [Block.flatMap_spots, h.items.length_eq, Item.length_all]
      rfl
    rw [← hitems, ← hall]
    exact hsub.length_le

theorem Block.Accounts.keepsItems (h : b.Accounts hands) : b.KeepsItems hands := by
  have hperm := h.items
  rw [← Block.flatMap_spots] at hperm
  have hnodup : (b.spots.flatMap (b.itemsAt hands)).Nodup :=
    hperm.nodup_iff.mpr (Item.nodup_all _)
  obtain ⟨next, hlinked⟩ := Item.exists_linked_all hnodup
  refine ⟨fun item hhome hindex => ?_, fun spot item hitem => ?_, fun home item hitem => ?_,
    ⟨next, fun spot _ => ?_⟩, h.counted, fun i => ?_⟩
  · obtain ⟨spot, _, hcount, hnone⟩ := exists_source_of_nodup hnodup
      (hperm.mem_iff.mpr (Item.mem_all.mpr ⟨hhome, hindex⟩))
    exact ⟨spot, hcount, fun other hne hmem => hnone other (Block.mem_spots hmem) hne hmem⟩
  · rw [← Item.mem_all, ← hperm.mem_iff]
    exact List.mem_flatMap.mpr ⟨spot, Block.mem_spots hitem, hitem⟩
  · obtain ⟨_, _, rfl⟩ := List.mem_map.mp hitem
    rfl
  · cases hitems : b.itemsAt hands spot with
    | nil => trivial
    | cons item rest =>
      have hspot : spot ∈ b.spots := Block.mem_spots (hitems ▸ List.mem_cons_self)
      exact hitems ▸ hlinked spot hspot
  · have hle := h.length_le (.chain i)
    rwa [Block.itemsAt, Cell.items, List.length_map] at hle

theorem Block.Holds.accounts {hash : UInt64 → UInt64} {d : Dict} (h : b.Holds hash d) :
    b.Accounts [] := by
  refine ⟨?_, h.counted⟩
  rw [List.append_nil]
  exact h.items

/-- A block that is worked on directly, and the items that were taken from it and not yet put into a
chain or given back. -/
structure Handling where
  block : Block
  hands : List Item

/-- What can be done with a block directly. An item is put into a chain or given back only by those who
have it. The last step stands for everything that leaves the chain of a cell as it is, such as locking,
announcing, publishing, and writing slots and values. -/
inductive Handling.Step : Handling → Handling → Prop where
  | alloc {b : Block} {hands : List Item} {hash : UInt64} {item : Item} {pool : Pool}
      (taken : b.pool.alloc hash = some (item, pool)) :
      Step ⟨b, hands⟩ ⟨{ b with pool := pool }, item :: hands⟩
  | pushOverflow {b : Block} {hands : List Item} {i : Nat} {item : Item} (inside : i < b.cellCount)
      (mine : item ∈ hands) (held : CellWord) (e : Entry) :
      Step ⟨b, hands⟩ ⟨b.setCell i ((b.cell i).pushOverflow held item e).1, hands.erase item⟩
  | remove {b : Block} {hands : List Item} {i : Nat} (inside : i < b.cellCount) (held : CellWord)
      (place : Place) :
      Step ⟨b, hands⟩ ⟨b.setCell i ((b.cell i).remove held place).1,
        ((b.cell i).remove held place).2.2.toList ++ hands⟩
  | free {b : Block} {hands : List Item} {item : Item} (mine : item ∈ hands) :
      Step ⟨b, hands⟩ ⟨{ b with pool := b.pool.release item }, hands.erase item⟩
  | edit {b : Block} {hands : List Item} {i : Nat} (inside : i < b.cellCount) {c : Cell}
      (chain : c.items = (b.cell i).items) : Step ⟨b, hands⟩ ⟨b.setCell i c, hands⟩

/-- What a cell gains and gives up, the chains gain and give up. -/
theorem Block.spilled_setCell (inside : i < b.cellCount) {gained freed : List Item}
    (h : (gained ++ (b.cell i).items).Perm (freed ++ c.items)) :
    (gained ++ b.spilled).Perm (freed ++ (b.setCell i c).spilled) := by
  have hspilled : ((b.cell i).items ++ (b.setCell i c).spilled).Perm (c.items ++ b.spilled) :=
    Block.spilled_revise inside c b.pool
  -- As multisets, the items of the old cell can be cancelled.
  rw [← Multiset.coe_eq_coe] at h hspilled ⊢
  simp only [← Multiset.coe_add] at h hspilled ⊢
  have hsum : ((b.cell i).items + (gained + b.spilled) : Multiset Item)
      = (b.cell i).items + (freed + (b.setCell i c).spilled) := by
    calc ((b.cell i).items + (gained + b.spilled) : Multiset Item)
        = (gained + (b.cell i).items) + b.spilled := by abel
      _ = freed + (c.items + b.spilled) := by rw [h]; abel
      _ = (b.cell i).items + (freed + (b.setCell i c).spilled) := by rw [← hspilled]; abel
  exact add_left_cancel hsum

/-- Everything there is in a block and in hand. -/
def Block.stock (b : Block) (hands : List Item) : Multiset Item :=
  b.pool.freeItems + b.spilled + hands

theorem Block.accounts_iff : b.Accounts hands ↔
    b.stock hands = (Item.all b.shelfCount : Multiset Item) ∧ b.pool.Counted := by
  rw [Block.stock, Multiset.coe_add, Multiset.coe_add, Multiset.coe_eq_coe]
  exact ⟨fun h => ⟨h.items, h.counted⟩, fun ⟨items, counted⟩ => ⟨items, counted⟩⟩

theorem Pool.Lends.coe_freeItems {p p' : Pool} (h : p.Lends item p') :
    (p.freeItems : Multiset Item) = {item} + (p'.freeItems : Multiset Item) := by
  rw [Multiset.singleton_add, Multiset.cons_coe]
  exact Multiset.coe_eq_coe.mpr h.items

theorem Block.stock_setCell (inside : i < b.cellCount) {gained freed after : List Item}
    (hchain : (gained ++ (b.cell i).items).Perm (freed ++ c.items))
    (hhands : (hands ++ freed).Perm (gained ++ after)) :
    (b.setCell i c).stock after = b.stock hands := by
  have hspilled := Multiset.coe_eq_coe.mpr (Block.spilled_setCell inside hchain)
  have hmoved := Multiset.coe_eq_coe.mpr hhands
  have hpool : (b.setCell i c).pool = b.pool := rfl
  rw [← Multiset.coe_add, ← Multiset.coe_add] at hspilled hmoved
  rw [Block.stock, Block.stock, hpool]
  have hsum : (gained + freed : Multiset Item) + (b.pool.freeItems + (b.setCell i c).spilled + after)
      = (gained + freed : Multiset Item) + (b.pool.freeItems + b.spilled + hands) := by
    calc (gained + freed : Multiset Item) + (b.pool.freeItems + (b.setCell i c).spilled + after)
        = b.pool.freeItems + (freed + (b.setCell i c).spilled) + (gained + after) := by abel
      _ = b.pool.freeItems + (gained + b.spilled) + (hands + freed) := by rw [← hspilled, ← hmoved]
      _ = (gained + freed) + (b.pool.freeItems + b.spilled + hands) := by abel
  exact add_left_cancel hsum

/-- No step loses an item, or makes one. -/
theorem Handling.Step.accounts {x y : Handling} (h : x.Step y) (ha : x.block.Accounts x.hands) :
    y.block.Accounts y.hands := by
  have hhome : ∀ item ∈ x.hands, item.home < x.block.shelfCount := fun item hitem =>
    Item.home_lt (ha.items.mem_iff.mp (List.mem_append_right _ hitem))
  rw [Block.accounts_iff] at ha ⊢
  obtain ⟨hstock, hcounted⟩ := ha
  cases h with
  | @alloc b hands _ item pool taken =>
    have hlends := Pool.lends_of_alloc taken
    have hsize : Block.shelfCount { b with pool := pool } = b.shelfCount := hlends.size
    refine ⟨?_, hlends.counted hcounted⟩
    rw [hsize, ← hstock, Block.stock, Block.stock, hlends.coe_freeItems, ← Multiset.cons_coe,
      ← Multiset.singleton_add]
    have hspilled : Block.spilled { b with pool := pool } = b.spilled := rfl
    rw [hspilled]
    abel
  | @pushOverflow b hands i item inside mine held e =>
    refine ⟨?_, hcounted⟩
    have hchain : ([item] ++ (b.cell i).items).Perm
        ([] ++ ((b.cell i).pushOverflow held item e).1.items) := List.Perm.refl _
    have hhands : (hands ++ []).Perm ([item] ++ hands.erase item) := by
      rw [List.append_nil]
      exact List.perm_cons_erase mine
    exact (Block.stock_setCell inside hchain hhands).trans hstock
  | @remove b hands i inside held place =>
    refine ⟨?_, hcounted⟩
    have hchain := (b.cell i).items_remove held place
    rw [← List.nil_append (b.cell i).items] at hchain
    exact (Block.stock_setCell inside hchain List.perm_append_comm).trans hstock
  | @free b hands item mine =>
    obtain ⟨hlends, hrelease⟩ := Pool.lends_release (hhome item mine)
    have hsize : Block.shelfCount { b with pool := b.pool.release item } = b.shelfCount :=
      hlends.size.symm
    have hhands : (hands : Multiset Item) = {item} + (hands.erase item : Multiset Item) := by
      rw [Multiset.singleton_add, ← Multiset.coe_erase]
      exact (Multiset.cons_erase mine).symm
    refine ⟨?_, hrelease hcounted⟩
    rw [hsize, ← hstock, Block.stock, Block.stock, hhands,
      hlends.coe_freeItems]
    have hspilled : Block.spilled { b with pool := b.pool.release item } = b.spilled := rfl
    rw [hspilled]
    abel
  | @edit b hands i inside c chain =>
    refine ⟨?_, hcounted⟩
    have hsame : ([] ++ (b.cell i).items).Perm ([] ++ c.items) := by rw [chain]
    have hhands : (hands ++ []).Perm ([] ++ hands) := by rw [List.append_nil, List.nil_append]
    exact (Block.stock_setCell inside hsame hhands).trans hstock

theorem Handling.accounts_of_steps {x y : Handling} (h : Relation.ReflTransGen Handling.Step x y)
    (ha : x.block.Accounts x.hands) : y.block.Accounts y.hands := by
  induction h with
  | refl => exact ha
  | tail _ step ih => exact step.accounts ih

theorem Block.accounts_empty (cells shelves : Nat) : (Block.empty cells shelves).Accounts [] :=
  (Block.filling_empty cells shelves fun _ => 0).holds.accounts

/-- Every item has its place, in every store that a run leads to, whatever entries are held there, and
in every block that was worked on directly. -/
theorem Store.keeps_items :
    (∀ (settings : Settings) (hash : UInt64 → UInt64) (memory : Memory) (s₀ : Store),
      Store.make settings hash memory = .ok s₀ →
      ∀ acts, (s₀.run acts).1.table.block.KeepsItems []) ∧
    ∀ (f : Footprint) (memory : Memory) (cells shelves : Nat) (b : Block),
      Block.allocate f memory cells shelves = .ok b →
      ∀ x, Relation.ReflTransGen Handling.Step ⟨b, []⟩ x → x.block.KeepsItems x.hands := by
  constructor
  · intro settings hash memory s₀ hmake acts
    obtain ⟨w, h, _⟩ := Store.simulates_run hmake acts
    exact h.table.holds.accounts.keepsItems
  · intro f memory cells shelves b halloc x hsteps
    cases Block.eq_empty_of_allocate halloc
    exact (Handling.accounts_of_steps hsteps (Block.accounts_empty cells shelves)).keepsItems

/-- A store with three items in the chain of a cell that is held, after the head of the chain has filled
the slot of a removed entry; and a block from which two items were taken, one of them in a chain now. -/
theorem Store.keeps_items_held :
    let acts : List Store.Act := [.realm .register, .realm (.move 0 .acquire),
      .call 0 (.insert ⟨0, 1⟩), .call 0 (.insert ⟨2, 1⟩), .call 0 (.insert ⟨4, 1⟩),
      .call 0 (.insert ⟨6, 1⟩), .call 0 (.insert ⟨8, 1⟩), .call 0 (.insert ⟨10, 1⟩),
      .call 0 (.insert ⟨12, 1⟩), .call 0 (.remove (.of 2)), .call 0 (.hold (.of 0))]
    (∃ s₀, Store.make ⟨2, 1, 64, .standard, 128⟩ id (fun _ => true) = .ok s₀ ∧
      ((s₀.run acts).1.table.block.cell 0).chain.length = 3 ∧
      ((s₀.run acts).1.table.block.cell 0).word.isLocked = true ∧
      (s₀.run acts).1.table.block.KeepsItems []) ∧
    ∃ b x, Block.allocate .words .ordinary 1 1 = .ok b ∧
      Relation.ReflTransGen Handling.Step ⟨b, []⟩ x ∧ x.hands = [⟨0, 1⟩] ∧
      (x.block.cell 0).items = [⟨0, 0⟩] ∧ x.block.KeepsItems x.hands := by
  intro acts
  obtain ⟨hstore, hdirect⟩ := Store.keeps_items
  refine ⟨⟨_, rfl, by decide +kernel, by decide +kernel,
    hstore ⟨2, 1, 64, .standard, 128⟩ id (fun _ => true) _ rfl acts⟩, ?_⟩
  have hblock : Block.allocate .words .ordinary 1 1 = .ok (Block.empty 1 1) := rfl
  have hfirst : (Block.empty 1 1).pool.alloc 0
      = some (⟨0, 0⟩, ⟨#[⟨[1, 2, 3, 4, 5, 6, 7, 8, 9], 9⟩]⟩) := by decide +kernel
  have hsecond : Pool.alloc ⟨#[⟨[1, 2, 3, 4, 5, 6, 7, 8, 9], 9⟩]⟩ 0
      = some (⟨0, 1⟩, ⟨#[⟨[2, 3, 4, 5, 6, 7, 8, 9], 8⟩]⟩) := by decide +kernel
  have hone : Handling.Step ⟨Block.empty 1 1, []⟩ _ := .alloc hfirst
  have htaken := (Relation.ReflTransGen.single hone).tail (.alloc hsecond)
  have hmine : (⟨0, 0⟩ : Item) ∈ [Item.mk 0 1, ⟨0, 0⟩] := by decide
  have hpushed := htaken.tail (.pushOverflow (i := 0) (by decide +kernel) hmine ⟨0⟩ ⟨7, 1⟩)
  exact ⟨_, _, hblock, hpushed, rfl, by decide +kernel, hdirect _ _ _ _ _ hblock _ hpushed⟩

end EpochTable
