import EpochTable.Proofs.CellChanges
import EpochTable.Proofs.Migration

namespace EpochTable

variable {t t' : Table} {d : Dict} {q : Query} {i : Nat} {c : Cell} {held : CellWord}
  {place : Option Place}

/-- A query finds what was stored under its key: both hash alike. -/
def Query.Honest (q : Query) (hash : UInt64 → UInt64) : Prop := hash q.seed = hash q.key

structure Table.Represents (t : Table) (d : Dict) : Prop where
  holds : t.block.Holds t.hash d
  nonempty : 0 < t.block.cellCount
  limit : t.block.cellCount < cellLimit
  idle : t.growing = false

/-- The call leaves locked cells alone, and it locks none for longer than it takes itself. -/
structure Table.Respects (t t' : Table) : Prop where
  hash : t'.hash = t.hash
  kept : ∀ i, t.block.isLockedAt i = true →
    t'.block.cellCount = t.block.cellCount ∧ t'.block.cell i = t.block.cell i
  released : ∀ i, t'.block.isLockedAt i = true → t.block.isLockedAt i = true

theorem Table.Respects.refl (t : Table) : t.Respects t :=
  ⟨rfl, fun _ _ => ⟨rfl, rfl⟩, fun _ h => h⟩

theorem Table.Respects.trans {t'' : Table} (h : t.Respects t') (h' : t'.Respects t'') :
    t.Respects t'' := by
  refine ⟨h'.hash.trans h.hash, fun i hi => ?_, fun i hi => h.released i (h'.released i hi)⟩
  obtain ⟨hcount, hcell⟩ := h.kept i hi
  have hi' : t'.block.isLockedAt i = true := by
    rw [Block.isLockedAt, hcell]
    exact hi
  obtain ⟨hcount', hcell'⟩ := h'.kept i hi'
  exact ⟨hcount'.trans hcount, hcell'.trans hcell⟩

def Table.revise (t : Table) (i : Nat) (c : Cell) (pool : Pool) : Table :=
  { t with block := t.block.revise i c pool }

theorem Table.respects_revise {pool : Pool} (hi : i < t.block.cellCount)
    (hfree : t.block.isLockedAt i = false) (hc : c.word.isLocked = false) :
    t.Respects (t.revise i c pool) := by
  refine ⟨rfl, fun j hj => ⟨Block.cellCount_revise, ?_⟩, fun j hj => ?_⟩
  · refine Block.cell_revise_of_ne fun he => ?_
    rw [he, hfree] at hj
    cases hj
  · by_cases he : j = i
    · rw [he, Block.isLockedAt, Table.revise, Block.cell_revise_self hi, hc] at hj
      cases hj
    · rwa [Block.isLockedAt, Table.revise, Block.cell_revise_of_ne he] at hj

theorem Table.Represents.revise {d' : Dict} {pool : Pool} (h : t.Represents d)
    (hb : (t.block.revise i c pool).Holds t.hash d') : (t.revise i c pool).Represents d' := by
  have hcount : (t.revise i c pool).block.cellCount = t.block.cellCount := Block.cellCount_revise
  exact ⟨hb, hcount ▸ h.nonempty, hcount ▸ h.limit, h.idle⟩

theorem Table.lockAndLocate_eq_none :
    t.lockAndLocate q = none ↔ t.block.isLockedAt (t.indexOf q) = true := by
  simp [Table.lockAndLocate, Cell.lock, Block.isLockedAt]

theorem Table.lockAndLocate_eq_some (h : t.lockAndLocate q = some (i, c, held, place)) :
    i = t.indexOf q ∧ t.block.isLockedAt i = false ∧ c = (t.block.cell i).seize ∧
      held = (t.block.cell i).seize.word ∧ c.locate held q.key = place := by
  unfold Table.lockAndLocate Cell.lock at h
  obtain ⟨⟨cell, word⟩, hlock, heq⟩ := Option.map_eq_some_iff.mp h
  split at hlock
  next => cases hlock
  next hfree =>
    cases Option.some.inj hlock
    cases heq
    exact ⟨rfl, by simpa [Block.isLockedAt] using hfree, rfl, rfl, rfl⟩

theorem Table.setCell_unlock (hfree : t.block.isLockedAt i = false) :
    t.setCell i ((t.block.cell i).seize.unlock (t.block.cell i).seize.word) = t := by
  rw [Cell.unlock_seize hfree]
  have hblock : t.block.setCell i (t.block.cell i) = t.block := t.block.revise_cell i
  rw [Table.setCell, hblock]

theorem Table.Represents.index (h : t.Represents d) (hq : q.Honest t.hash) :
    t.block.indexOf (t.hash q.key) = t.indexOf q ∧ t.indexOf q < t.block.cellCount := by
  refine ⟨?_, Block.indexOf_lt h.nonempty _⟩
  rw [Table.indexOf, hq]

theorem Dict.erase_of_lookup_eq_none {key : UInt64} (h : d.lookup key = none) :
    d.erase key = d := by
  refine Finmap.ext_lookup fun k => ?_
  by_cases hk : k = key
  · rw [hk, Finmap.lookup_erase, h]
  · exact Finmap.lookup_erase_ne hk

theorem Table.remove_eq_none :
    t.remove q = none ↔ t.block.isLockedAt (t.indexOf q) = true := by
  rw [← Table.lockAndLocate_eq_none]
  unfold Table.remove
  cases t.lockAndLocate q with
  | none => simp
  | some found =>
    obtain ⟨i, c, held, _ | place⟩ := found
    · simp
    · simp only [reduceCtorEq, iff_false]
      cases ((c.beginWrite held).1.remove (c.beginWrite held).2 place).2.2 <;> simp

theorem Table.Represents.remove {flag : Bool} (h : t.Represents d) (hq : q.Honest t.hash)
    (hr : t.remove q = some (flag, t')) :
    flag = (d.lookup q.key).isSome ∧ t'.Represents (d.erase q.key) ∧ t.Respects t' := by
  obtain ⟨hindex, hi⟩ := h.index hq
  unfold Table.remove at hr
  split at hr
  next => cases hr
  next i c held hfound =>
    obtain ⟨rfl, hfree, rfl, rfl, hlocate⟩ := Table.lockAndLocate_eq_some hfound
    have habsent := h.holds.locate_eq_none (Block.opens_seize hi) hindex hlocate
    rw [Table.setCell_unlock hfree] at hr
    cases Option.some.inj hr
    rw [habsent, Dict.erase_of_lookup_eq_none habsent]
    exact ⟨rfl, h, Table.Respects.refl t⟩
  next i c held place hfound =>
    obtain ⟨rfl, hfree, rfl, rfl, hlocate⟩ := Table.lockAndLocate_eq_some hfound
    have hopens := Block.opens_seize hi
    obtain ⟨value, hv, hlies⟩ := h.holds.locate_eq_some hopens hlocate
    have hwrite := hopens.beginWrite
    replace hlies := (Cell.agrees_beginWrite _ _).lies hlies
    generalize (t.block.cell (t.indexOf q)).seize.beginWrite _ = opened at hwrite hlies hr
    obtain ⟨x, w⟩ := opened
    simp only at hr
    have hb := h.holds.remove hwrite hlies hindex
    generalize x.remove w place = removed at hb hr
    obtain ⟨y, u, freed⟩ := removed
    have hresult : flag = true ∧
        t' = t.revise (t.indexOf q) (y.publish u) (t.block.pool.takeBack freed) := by
      cases freed <;> cases Option.some.inj hr <;> exact ⟨rfl, rfl⟩
    rw [hv, hresult.1, hresult.2]
    exact ⟨rfl, h.revise hb, Table.respects_revise hi hfree u.isLocked_published⟩

theorem Table.Represents.find (h : t.Represents d) (hq : q.Honest t.hash) :
    t.find q = d.lookup q.key := by
  obtain ⟨hindex, hi⟩ := h.index hq
  rw [Table.find, Table.readPass,
    Cell.read_eq (h.holds.proper _ hi) (h.holds.length_chain_le hi)]
  exact (h.holds.lists _ hi).lookup_eq hindex

theorem Table.len_eq_none : t.len = none ↔ t.block.hasLock = true := by
  unfold Table.len
  split <;> simp_all

theorem Table.Represents.len {n : Nat} (h : t.Represents d) (hl : t.len = some (n, t')) :
    n = d.keys.card ∧ t' = t := by
  unfold Table.len at hl
  split at hl
  next => cases hl
  next hfree =>
    rw [Bool.not_eq_true, Block.hasLock, Array.any_eq_false] at hfree
    cases Option.some.inj hl
    constructor
    · have hlength := (h.holds.entries h.nonempty).length_eq
      rw [Finset.filter_true_of_mem fun _ _ => trivial] at hlength
      rw [← hlength, Block.entries, List.length_flatMap]
      refine congrArg List.sum (List.map_congr_left fun c _ => ?_)
      rw [Cell.count, Cell.entries, Cell.inlined, c.agrees_seize.count]
      rfl
    · have hcells : t.block.cells.map Cell.visited = t.block.cells := by
        apply Array.ext
        · rw [Array.size_map]
        · intro k _ hk
          rw [Array.getElem_map]
          exact Cell.unlock_seize (by simpa using hfree k hk)
      rw [hcells]

/-- What a held entry relies on: its cell is locked with the word it is held with, and the entry lies
where it was found. -/
structure Hold.Guards (h : Hold) (t : Table) (key : UInt64) : Prop where
  index : t.block.indexOf (t.hash key) = h.cell
  word : (t.block.cell h.cell).word = h.held
  locked : h.held.isLocked = true
  lies : (t.block.cell h.cell).Lies h.held ⟨key, h.value⟩ h.place

theorem Hold.Guards.opens {h : Hold} {key : UInt64} (ht : t.Represents d) (hg : h.Guards t key) :
    t.block.Opens h.cell (t.block.cell h.cell) h.held :=
  hg.word ▸ Block.opens_word (hg.index ▸ Block.indexOf_lt ht.nonempty _)

theorem Table.hold_eq_none :
    t.hold q = none ↔ t.block.isLockedAt (t.indexOf q) = true := by
  rw [← Table.lockAndLocate_eq_none]
  unfold Table.hold
  split <;> simp_all

theorem Table.Represents.hold_absent (h : t.Represents d) (hq : q.Honest t.hash)
    (hr : t.hold q = some (none, t')) : d.lookup q.key = none ∧ t' = t := by
  obtain ⟨hindex, hi⟩ := h.index hq
  unfold Table.hold at hr
  split at hr
  next => cases hr
  next i c held hfound =>
    obtain ⟨rfl, hfree, rfl, rfl, hlocate⟩ := Table.lockAndLocate_eq_some hfound
    rw [Table.setCell_unlock hfree] at hr
    cases Option.some.inj hr
    exact ⟨h.holds.locate_eq_none (Block.opens_seize hi) hindex hlocate, rfl⟩
  next => cases hr

theorem Table.Represents.hold_present {hold : Hold} (h : t.Represents d) (hq : q.Honest t.hash)
    (hr : t.hold q = some (some hold, t')) :
    hold.cell < t.block.cellCount ∧ t.block.isLockedAt hold.cell = false ∧
      hold.cell = t.indexOf q ∧
      t' = t.revise hold.cell (t.block.cell hold.cell).seize t.block.pool ∧
      t'.Represents d ∧ d.lookup q.key = some hold.value ∧ hold.Guards t' q.key := by
  obtain ⟨hindex, hi⟩ := h.index hq
  unfold Table.hold at hr
  split at hr
  next => cases hr
  next => cases hr
  next i c held place hfound =>
    obtain ⟨rfl, hfree, rfl, rfl, hlocate⟩ := Table.lockAndLocate_eq_some hfound
    obtain ⟨value, hv, hlies⟩ := h.holds.locate_eq_some (Block.opens_seize hi) hlocate
    have hvalue := Cell.valueAt_of_lies hlies
    cases Option.some.inj hr
    have hcell : (t.revise (t.indexOf q) (t.block.cell (t.indexOf q)).seize
        t.block.pool).block.cell (t.indexOf q) = (t.block.cell (t.indexOf q)).seize :=
      Block.cell_revise_self hi
    refine ⟨hi, hfree, rfl, rfl, h.revise (h.holds.seize hi), ?_, ?_⟩
    · rw [hv, hvalue]
      rfl
    · refine ⟨(Block.indexOf_revise _).trans hindex, congrArg Cell.word hcell,
        CellWord.isLocked_locked _, ?_⟩
      rw [hvalue]
      exact hcell.symm ▸ hlies

theorem Table.Represents.updateHeld {hold : Hold} {key : UInt64} (h : t.Represents d)
    (hg : hold.Guards t key) (value : UInt64) :
    ∃ c, c.word.isLocked = false ∧
      t.updateHeld hold value = t.revise hold.cell c t.block.pool ∧
      (t.updateHeld hold value).Represents (d.insert key value) := by
  have hwrite := (hg.opens h).beginWrite
  have hlies := ((t.block.cell hold.cell).agrees_beginWrite hold.held).lies hg.lies
  unfold Table.updateHeld
  generalize (t.block.cell hold.cell).beginWrite hold.held = opened at hwrite hlies
  obtain ⟨x, w⟩ := opened
  simp only
  have hb := h.holds.writeValue hwrite hlies hg.index value
  exact ⟨(x.writeValue value hold.place).publish w, w.isLocked_published, rfl, h.revise hb⟩

theorem Table.Represents.releaseHeld {hold : Hold} {key : UInt64} (h : t.Represents d)
    (hg : hold.Guards t key) :
    ∃ c, c.word.isLocked = false ∧ t.releaseHeld hold = t.revise hold.cell c t.block.pool ∧
      (t.releaseHeld hold).Represents d := by
  have hb := h.holds.unlock (hg.opens h).inside
  rw [hg.word] at hb
  exact ⟨(t.block.cell hold.cell).unlock hold.held, CellWord.isLocked_unlocked _, rfl, h.revise hb⟩

end EpochTable
