import EpochTable.Pool.Passes
import EpochTable.Proofs.ItemPlaces

namespace EpochTable

variable {p p' : Pool} {item : Item} {hash : UInt64} {home : Nat} {locked : Nat → Bool}
  {x y : Handling}

/-- The item lies on top of the first stack, on the way round from where the hash points, that has one
left, and taking it changes no other stack. -/
structure Pool.FirstFit (p : Pool) (hash : UInt64) (item : Item) (p' : Pool) : Prop where
  nearest : ∃ k < p.shelves.size,
    item.home = (hash.toNat % p.shelves.size + k) % p.shelves.size ∧
      ∀ j < k, p.freeAt ((hash.toNat % p.shelves.size + j) % p.shelves.size) = []
  top : ∃ shelf rest, p.shelves[item.home]? = some shelf ∧ shelf.free = item.index :: rest ∧
    p'.shelves[item.home]? = some ⟨rest, shelf.available - 1⟩
  others : ∀ home, home ≠ item.home → p'.shelves[home]? = p.shelves[home]?

/-- The item lies on top of the stack of its shelf now, and no other stack has changed. -/
structure Pool.Returned (p : Pool) (item : Item) (p' : Pool) : Prop where
  top : ∃ shelf, p.shelves[item.home]? = some shelf ∧
    p'.shelves[item.home]? = some ⟨item.index :: shelf.free, shelf.available + 1⟩
  others : ∀ home, home ≠ item.home → p'.shelves[home]? = p.shelves[home]?

/-- Whoever took the item has it still, or has put it into the chain of a cell. -/
def Handling.Taken (x : Handling) (item : Item) : Prop := item ∈ x.hands ∨ item ∈ x.block.spilled

theorem Pool.round_takeFrom (p : Pool) (hash : UInt64) : p.round hash p.takeFrom = p.alloc hash :=
  (p.probe_eq_findSome? _ _).symm

theorem Pool.alloc_of_isEmpty (h : p.shelves.isEmpty = true) : p.alloc hash = none := by
  have hsize : p.shelves.size = 0 := by simpa using h
  rw [Pool.alloc, hsize]
  rfl

/-- Somebody who does not wait gets nothing that a waiting one would not get. -/
theorem Pool.takeFrom_of_tryTake {taken : Item × Pool}
    (h : (p.tryTake locked home).join = some taken) : p.takeFrom home = some taken := by
  unfold Pool.tryTake at h
  split at h
  · cases h
  · exact h

/-- With nobody else at the shelves the second round has nothing to do. -/
theorem Pool.allocTwice_free (p : Pool) (hash : UInt64) :
    p.allocTwice (fun _ => false) hash = p.alloc hash := by
  have hfirst : (p.round hash fun home => (p.tryTake (fun _ => false) home).join)
      = p.alloc hash := p.round_takeFrom hash
  unfold Pool.allocTwice
  split
  next hempty => exact (Pool.alloc_of_isEmpty hempty).symm
  next =>
    rw [hfirst, p.round_takeFrom]
    cases p.alloc hash <;> rfl

/-- Whatever is locked when the first round comes by, nothing is found only if nothing is there. -/
theorem Pool.allocTwice_eq_none_iff : p.allocTwice locked hash = none ↔ p.alloc hash = none := by
  unfold Pool.allocTwice
  split
  next hempty => exact iff_of_true rfl (Pool.alloc_of_isEmpty hempty)
  next =>
    rw [p.round_takeFrom]
    split
    next taken hfirst =>
      refine iff_of_false (fun h => by cases h) fun hnone => ?_
      obtain ⟨k, hk, htaken, _⟩ := findSome?_range_eq_some.mp hfirst
      rw [← p.round_takeFrom, Pool.round, List.findSome?_eq_none_iff] at hnone
      have hk' := hnone k (List.mem_range.mpr hk)
      rw [Pool.takeFrom_of_tryTake htaken] at hk'
      cases hk'
    next => rfl

theorem Pool.takeFrom_of_shelf {shelf : Shelf} {index : Nat} {rest : List Nat}
    (hshelf : p.shelves[home]? = some shelf) (hfree : shelf.free = index :: rest) :
    p.takeFrom home = some (⟨home, index⟩, p.setShelf home ⟨rest, shelf.available - 1⟩) := by
  simp [Pool.takeFrom, hshelf, Shelf.pop, hfree, Pool.setShelf]

theorem Pool.eq_setShelf {shelf shelf' : Shelf} (hshelf : p.shelves[home]? = some shelf)
    (hhome : p'.shelves[home]? = some shelf')
    (hother : ∀ k, k ≠ home → p'.shelves[k]? = p.shelves[k]?) : p' = p.setShelf home shelf' := by
  refine congrArg Pool.mk (Array.ext_getElem? fun k => ?_)
  have hset := Pool.getElem?_setShelf hshelf shelf' k
  rw [Pool.setShelf] at hset
  rw [hset]
  by_cases hk : home = k
  · rw [if_pos hk, ← hk, hhome]
  · rw [if_neg hk, hother k (Ne.symm hk)]

/-- The rule by which items are given out. -/
theorem Pool.alloc_eq_some_iff : p.alloc hash = some (item, p') ↔ p.FirstFit hash item p' := by
  rw [Pool.alloc, Pool.probe_eq_findSome?, findSome?_range_eq_some]
  constructor
  · rintro ⟨k, hk, htaken, hbefore⟩
    obtain ⟨shelf, index, rest, hshelf, hfree, rfl, rfl⟩ := Pool.takeFrom_eq_some htaken
    refine ⟨⟨k, hk, rfl, fun j hj => Pool.takeFrom_eq_none_iff.mp (hbefore j hj)⟩,
      ⟨shelf, rest, hshelf, hfree, ?_⟩, fun home hne => ?_⟩
    · rw [Pool.getElem?_setShelf hshelf, if_pos rfl]
    · rw [Pool.getElem?_setShelf hshelf, if_neg (Ne.symm hne)]
  · rintro ⟨⟨k, hk, hhome, hbefore⟩, ⟨shelf, rest, hshelf, hfree, hafter⟩, hothers⟩
    refine ⟨k, hk, ?_, fun j hj => Pool.takeFrom_eq_none_iff.mpr (hbefore j hj)⟩
    rw [← hhome, Pool.takeFrom_of_shelf hshelf hfree, ← Pool.eq_setShelf hshelf hafter hothers]

theorem Pool.freeItems_eq_nil_iff : p.freeItems = [] ↔ ∀ home, p.freeAt home = [] := by
  rw [Pool.freeItems, List.flatMap_eq_nil_iff]
  constructor
  · intro h home
    by_cases hlt : home < p.shelves.size
    · exact h home (List.mem_range.mpr hlt)
    · exact Pool.freeAt_of_le (Nat.le_of_not_lt hlt)
  · exact fun h home _ => h home

theorem Pool.returned_release (h : item.home < p.shelves.size) :
    p.Returned item (p.release item) := by
  have hshelf : p.shelves[item.home]? = some p.shelves[item.home] := Array.getElem?_eq_getElem h
  rw [Pool.release_eq hshelf]
  refine ⟨⟨_, hshelf, ?_⟩, fun home hne => ?_⟩
  · rw [Pool.getElem?_setShelf hshelf, if_pos rfl]
    rfl
  · rw [Pool.getElem?_setShelf hshelf, if_neg (Ne.symm hne)]

/-- Who asks at the shelf of an item that has just come back gets that item again. -/
theorem Pool.alloc_release (h : item.home < p.shelves.size)
    (hhash : hash.toNat % p.shelves.size = item.home) :
    (p.release item).alloc hash = some (item, p) := by
  obtain ⟨⟨shelf, hshelf, hback⟩, hothers⟩ := Pool.returned_release h
  have hsize : (p.release item).shelves.size = p.shelves.size := Array.size_modify
  rw [Pool.alloc_eq_some_iff]
  refine ⟨⟨0, by omega, ?_, fun j hj => absurd hj (Nat.not_lt_zero j)⟩,
    ⟨_, _, hback, rfl, ?_⟩, fun home hne => (hothers home hne).symm⟩
  · rw [hsize, hhash, Nat.add_zero, Nat.mod_eq_of_lt h]
  · simpa using hshelf

theorem Handling.Step.shelfCount (h : x.Step y) : y.block.shelfCount = x.block.shelfCount := by
  cases h with
  | alloc taken => exact (Pool.lends_of_alloc taken).size
  | pushOverflow => rfl
  | remove => rfl
  | free => exact Array.size_modify
  | edit => rfl

theorem Handling.shelfCount_of_steps (h : Relation.ReflTransGen Handling.Step x y) :
    y.block.shelfCount = x.block.shelfCount := by
  induction h with
  | refl => rfl
  | tail _ step ih => exact step.shelfCount.trans ih

/-- A free item is nowhere else. -/
theorem Handling.not_taken (ha : x.block.Accounts x.hands) (h : item ∈ x.block.pool.freeItems) :
    ¬ x.Taken item := by
  have hnodup := ha.items.nodup_iff.mpr (Item.nodup_all _)
  rw [List.append_assoc, List.nodup_append'] at hnodup
  rintro (hhand | hchain)
  · exact hnodup.2.2 h (List.mem_append_right _ hhand)
  · exact hnodup.2.2 h (List.mem_append_left _ hchain)

theorem Pool.freeAt_full {shelves : Nat} (h : home < shelves) :
    (Pool.full shelves).freeAt home = (List.range shelfItems).map (Item.mk home) := by
  simp [Pool.freeAt, Pool.full, Shelf.full, h]

/-- A block starts with all items of a shelf in order. Whatever items were then taken, put into chains,
unlinked and given back: nothing is given out exactly if no shelf has a free item, also if some of the
shelves are locked when the first of the two rounds comes by; otherwise the item is the one on top of the
first stack that is not empty, and nobody has it. An item given back lies on top of its stack, and asking
there gets it again and leaves the pool as it was before. -/
theorem Block.allocates_first_fit {f : Footprint} {memory : Memory} {cells shelves : Nat} {b : Block}
    (hb : Block.allocate f memory cells shelves = .ok b) :
    (∀ home < shelves, b.pool.freeAt home = (List.range shelfItems).map (Item.mk home)) ∧
    ∀ x, Relation.ReflTransGen Handling.Step ⟨b, []⟩ x →
      let p := x.block.pool
      p.shelves.size = shelves ∧
      (∀ hash, p.allocTwice (fun _ => false) hash = p.alloc hash ∧
        (∀ locked, p.allocTwice locked hash = none ↔ ∀ home, p.freeAt home = []) ∧
        ∀ item p', (p.alloc hash = some (item, p') ↔ p.FirstFit hash item p') ∧
          (p.FirstFit hash item p' → ¬ x.Taken item)) ∧
      ∀ item ∈ x.hands, p.Returned item (p.release item) ∧
        ∀ hash, hash.toNat % shelves = item.home → (p.release item).alloc hash = some (item, p) := by
  cases Block.eq_empty_of_allocate hb
  refine ⟨fun home hhome => Pool.freeAt_full hhome, fun x hsteps => ?_⟩
  have haccounts := Handling.accounts_of_steps hsteps (Block.accounts_empty cells shelves)
  have hsize : x.block.pool.shelves.size = shelves :=
    (Handling.shelfCount_of_steps hsteps).trans Array.size_replicate
  refine ⟨hsize, fun hash => ⟨Pool.allocTwice_free _ _, fun locked => ?_,
    fun item p' => ⟨Pool.alloc_eq_some_iff, fun hfit => Handling.not_taken haccounts ?_⟩⟩,
    fun item hitem => ?_⟩
  · rw [Pool.allocTwice_eq_none_iff, Pool.alloc_eq_none_iff, Pool.freeItems_eq_nil_iff]
  · have hlends := Pool.lends_of_alloc (Pool.alloc_eq_some_iff.mpr hfit)
    exact hlends.items.mem_iff.mpr List.mem_cons_self
  · have hhome : item.home < x.block.pool.shelves.size :=
      Item.home_lt (haccounts.items.mem_iff.mp (List.mem_append_right _ hitem))
    refine ⟨Pool.returned_release hhome, fun hash hhash => Pool.alloc_release hhome ?_⟩
    rw [hsize, hhash]

/-- Two shelves, and two items taken from the second one, of which the first is in a chain by now. The
next item comes from the same shelf; the one in hand, once given back, is the next one again. -/
theorem Block.allocates_first_fit_second : ∃ (b : Block) (x : Handling) (p' : Pool),
    Block.allocate .words .ordinary 1 2 = .ok b ∧
      Relation.ReflTransGen Handling.Step ⟨b, []⟩ x ∧ x.hands = [⟨1, 1⟩] ∧
      (x.block.cell 0).items = [⟨1, 0⟩] ∧ x.block.pool.alloc 5 = some (⟨1, 2⟩, p') ∧
      x.block.pool.FirstFit 5 ⟨1, 2⟩ p' ∧ ¬ x.Taken ⟨1, 2⟩ ∧
      (x.block.pool.release ⟨1, 1⟩).alloc 7 = some (⟨1, 1⟩, x.block.pool) := by
  have hblock : Block.allocate .words .ordinary 1 2 = .ok (Block.empty 1 2) := rfl
  have hfirst : (Block.empty 1 2).pool.alloc 3
      = some (⟨1, 0⟩, ⟨#[Shelf.full, ⟨[1, 2, 3, 4, 5, 6, 7, 8, 9], 9⟩]⟩) := by decide +kernel
  have hsecond : Pool.alloc ⟨#[Shelf.full, ⟨[1, 2, 3, 4, 5, 6, 7, 8, 9], 9⟩]⟩ 1
      = some (⟨1, 1⟩, ⟨#[Shelf.full, ⟨[2, 3, 4, 5, 6, 7, 8, 9], 8⟩]⟩) := by decide +kernel
  have hthird : Pool.alloc ⟨#[Shelf.full, ⟨[2, 3, 4, 5, 6, 7, 8, 9], 8⟩]⟩ 5
      = some (⟨1, 2⟩, ⟨#[Shelf.full, ⟨[3, 4, 5, 6, 7, 8, 9], 7⟩]⟩) := by decide +kernel
  have hone : Handling.Step ⟨Block.empty 1 2, []⟩ _ := .alloc hfirst
  have htaken := (Relation.ReflTransGen.single hone).tail (.alloc hsecond)
  have hmine : (⟨1, 0⟩ : Item) ∈ [Item.mk 1 1, ⟨1, 0⟩] := by decide
  have hsteps := htaken.tail (.pushOverflow (i := 0) (by decide +kernel) hmine ⟨0⟩ ⟨7, 1⟩)
  obtain ⟨_, hreached⟩ := Block.allocates_first_fit hblock
  obtain ⟨_, hrule, hback⟩ := hreached _ hsteps
  obtain ⟨hfits, hfree⟩ := (hrule 5).2.2 ⟨1, 2⟩ _
  have hfit := hfits.mp hthird
  exact ⟨_, _, _, hblock, hsteps, rfl, by decide +kernel, hthird, hfit, hfree hfit,
    (hback ⟨1, 1⟩ List.mem_cons_self).2 7 rfl⟩

end EpochTable
