import EpochTable.Proofs.CallAnswers

namespace EpochTable

variable {s : Store} {t t' : Table} {d d' : Dict} {hash : UInt64 → UInt64} {hold : Hold}
  {key : UInt64} {i j : Nat}

/-- A dictionary, and the keys of the entries held, in the order in which they were taken; a hold that
has ended is `none`. -/
structure Ideal where
  dict : Dict
  held : List (Option UInt64)

def Ideal.held? (w : Ideal) (i : Nat) : Option UInt64 := w.held[i]?.join

variable {w : Ideal}

/-- A held entry keeps the cell. -/
def Store.Holds (s : Store) (i : Nat) : Prop := ∃ j hold, s.hold? j = some hold ∧ hold.cell = i

/-- Every held entry lies where its hold says, each in a cell of its own, and no other cell is locked. -/
structure Store.Simulates (s : Store) (hash : UInt64 → UInt64) (w : Ideal) : Prop where
  hash : s.table.hash = hash
  table : s.table.Represents w.dict
  size : s.holds.length = w.held.length
  guards : ∀ j, Option.Rel (fun hold key => hold.Guards s.table key) (s.hold? j) (w.held? j)
  apart : ∀ i j hold hold', s.hold? i = some hold → s.hold? j = some hold' →
    hold.cell = hold'.cell → i = j
  locked : ∀ i, s.table.block.isLockedAt i = true → s.Holds i

theorem Store.Simulates.guarded (h : s.Simulates hash w) (hj : s.hold? j = some hold) :
    ∃ key, w.held? j = some key ∧ hold.Guards s.table key := by
  have hrel := h.guards j
  rw [hj] at hrel
  generalize w.held? j = held at hrel
  cases hrel with
  | some hg => exact ⟨_, rfl, hg⟩

theorem Store.Simulates.ended (h : s.Simulates hash w) (hj : s.hold? j = none) :
    w.held? j = none := by
  have hrel := h.guards j
  rw [hj] at hrel
  generalize w.held? j = held at hrel
  cases hrel
  rfl

theorem Hold.Guards.isLockedAt (hg : hold.Guards t key) : t.block.isLockedAt hold.cell = true := by
  rw [Block.isLockedAt, hg.word]
  exact hg.locked

theorem Store.Simulates.locked_iff (h : s.Simulates hash w) :
    s.table.block.isLockedAt i = true ↔ s.Holds i := by
  refine ⟨h.locked i, ?_⟩
  rintro ⟨j, hold, hj, rfl⟩
  obtain ⟨key, _, hg⟩ := h.guarded hj
  exact hg.isLockedAt

theorem Hold.Guards.congr (hg : hold.Guards t key) (hhash : t'.hash = t.hash)
    (hcount : t'.block.cellCount = t.block.cellCount)
    (hcell : t'.block.cell hold.cell = t.block.cell hold.cell) : hold.Guards t' key := by
  refine ⟨?_, ?_, hg.locked, ?_⟩
  · rw [Block.indexOf, hcount, hhash]
    exact hg.index
  · rw [hcell]
    exact hg.word
  · rw [hcell]
    exact hg.lies

/-- Holds are not disturbed by what happens to other cells. -/
theorem Store.Simulates.guards_kept (h : s.Simulates hash w) (hhash : t'.hash = s.table.hash)
    (hkept : ∀ hold, s.hold? j = some hold → t'.block.cellCount = s.table.block.cellCount ∧
      t'.block.cell hold.cell = s.table.block.cell hold.cell) :
    Option.Rel (fun hold key => hold.Guards t' key) (s.hold? j) (w.held? j) := by
  cases hj : s.hold? j with
  | none => exact h.ended hj ▸ .none
  | some hold =>
    obtain ⟨key, hkey, hg⟩ := h.guarded hj
    obtain ⟨hcount, hcell⟩ := hkept hold hj
    exact hkey ▸ .some (hg.congr hhash hcount hcell)

theorem Store.Simulates.respects (h : s.Simulates hash w) (realm : Realm)
    (ht : t'.Represents d') (hr : s.table.Respects t') :
    Store.Simulates ⟨t', realm, s.holds⟩ hash ⟨d', w.held⟩ := by
  refine ⟨hr.hash.trans h.hash, ht, h.size, fun j => ?_, h.apart, fun i hi => ?_⟩
  · refine h.guards_kept (j := j) hr.hash fun hold hj => ?_
    obtain ⟨key, _, hg⟩ := h.guarded hj
    exact hr.kept _ hg.isLockedAt
  · exact h.locked i (hr.released i hi)

/-- A new hold gets a cell that was not locked, so it does not get in the way of the others. -/
theorem Store.Simulates.take (h : s.Simulates hash w) (realm : Realm)
    (hfree : s.table.block.isLockedAt hold.cell = false)
    (hdef : t' = s.table.revise hold.cell (s.table.block.cell hold.cell).seize s.table.block.pool)
    (ht : t'.Represents w.dict) (hg : hold.Guards t' key) :
    Store.Simulates ⟨t', realm, s.holds ++ [some hold]⟩ hash ⟨w.dict, w.held ++ [some key]⟩ := by
  have hsize := h.size
  have hcount : t'.block.cellCount = s.table.block.cellCount := hdef ▸ Block.cellCount_revise
  have hoff : ∀ j, j ≠ hold.cell → t'.block.cell j = s.table.block.cell j := fun j hj =>
    hdef ▸ Block.cell_revise_of_ne hj
  have hhash : t'.hash = s.table.hash := hdef ▸ rfl
  have hother : ∀ j hold', s.hold? j = some hold' → hold'.cell ≠ hold.cell := by
    intro j hold' hj he
    obtain ⟨_, _, hg'⟩ := h.guarded hj
    rw [← he, hg'.isLockedAt] at hfree
    cases hfree
  have hnew : ∀ j, Store.hold? ⟨t', realm, s.holds ++ [some hold]⟩ j
      = if j = s.holds.length then some hold else s.hold? j := join_getElem?_concat s.holds hold
  have hkeys : ∀ j, Ideal.held? ⟨w.dict, w.held ++ [some key]⟩ j
      = if j = s.holds.length then some key else w.held? j := by
    rw [hsize]
    exact join_getElem?_concat w.held key
  refine ⟨hhash.trans h.hash, ht, by simp [hsize], fun j => ?_, ?_, fun i hlocked => ?_⟩
  · rw [hnew, hkeys]
    split
    next => exact .some hg
    next =>
      exact h.guards_kept hhash fun hold' hj => ⟨hcount, hoff _ (hother j hold' hj)⟩
  · intro i j hold₁ hold₂ h₁ h₂ hsame
    rw [hnew] at h₁ h₂
    split at h₁ <;> split at h₂
    · omega
    · cases Option.some.inj h₁
      exact absurd hsame.symm (hother j hold₂ h₂)
    · cases Option.some.inj h₂
      exact absurd hsame (hother i hold₁ h₁)
    · exact h.apart i j hold₁ hold₂ h₁ h₂ hsame
  · by_cases he : i = hold.cell
    · exact ⟨s.holds.length, hold, by rw [hnew, if_pos rfl], he.symm⟩
    · rw [Block.isLockedAt, hoff i he] at hlocked
      obtain ⟨j, hold', hj, hcell⟩ := h.locked i hlocked
      refine ⟨j, hold', ?_, hcell⟩
      rw [hnew, if_neg ?_, hj]
      intro hlast
      rw [Store.hold?, List.getElem?_eq_none (by omega)] at hj
      cases hj

/-- A hold that ends gives its cell back and leaves the other holds theirs. -/
theorem Store.Simulates.finish (h : s.Simulates hash w) (hj : s.hold? j = some hold) {c : Cell}
    (hc : c.word.isLocked = false) (hdef : t' = s.table.revise hold.cell c s.table.block.pool)
    (ht : t'.Represents d') :
    Store.Simulates { s with table := t', holds := s.holds.set j none } hash
      ⟨d', w.held.set j none⟩ := by
  obtain ⟨key, _, hg⟩ := h.guarded hj
  have hi : hold.cell < s.table.block.cellCount := hg.index ▸ Block.indexOf_lt h.table.nonempty _
  have hcount : t'.block.cellCount = s.table.block.cellCount := hdef ▸ Block.cellCount_revise
  have hoff : ∀ k, k ≠ hold.cell → t'.block.cell k = s.table.block.cell k := fun k hk =>
    hdef ▸ Block.cell_revise_of_ne hk
  have hhash : t'.hash = s.table.hash := hdef ▸ rfl
  have hnew : ∀ k, Store.hold? { s with table := t', holds := s.holds.set j none } k
      = if k = j then none else s.hold? k := join_getElem?_set_none s.holds j
  have hkeys : ∀ k, Ideal.held? ⟨d', w.held.set j none⟩ k = if k = j then none else w.held? k :=
    join_getElem?_set_none w.held j
  refine ⟨hhash.trans h.hash, ht, ?_, fun k => ?_, ?_, fun i hlocked => ?_⟩
  · simpa using h.size
  · rw [hnew, hkeys]
    split
    next => exact .none
    next hk =>
      refine h.guards_kept hhash fun hold' hk' => ⟨hcount, hoff _ ?_⟩
      exact fun he => hk (h.apart k j hold' hold hk' hj he)
  · intro i k hold₁ hold₂ h₁ h₂ hsame
    rw [hnew] at h₁ h₂
    split at h₁ <;> split at h₂
    · cases h₁
    · cases h₁
    · cases h₂
    · exact h.apart i k hold₁ hold₂ h₁ h₂ hsame
  · by_cases he : i = hold.cell
    · rw [he, hdef, Block.isLockedAt, Table.revise, Block.cell_revise_self hi, hc] at hlocked
      cases hlocked
    · rw [Block.isLockedAt, hoff i he] at hlocked
      obtain ⟨k, hold', hk, hcell⟩ := h.locked i hlocked
      refine ⟨k, hold', ?_, hcell⟩
      rw [hnew, if_neg ?_, hk]
      rintro rfl
      rw [hj] at hk
      cases Option.some.inj hk
      exact he hcell.symm

end EpochTable
