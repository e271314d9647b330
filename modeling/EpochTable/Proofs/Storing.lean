import EpochTable.Proofs.TableCalls

namespace EpochTable

variable {t t' : Table} {d : Dict} {e : Entry} {update : Bool}

/-- There is room neither in its cell nor among the items for a key that is not there. -/
structure Table.Crowded (t : Table) (d : Dict) (key : UInt64) : Prop where
  absent : d.lookup key = none
  full : (t.block.cell (t.block.indexOf (t.hash key))).word.count = inlineSlots
  exhausted : t.block.pool.available = 0

/-- Storing needs a cell that somebody holds: its own, or every cell if the table has to grow. -/
def Table.StoreBlocked (t : Table) (d : Dict) (key : UInt64) : Prop :=
  t.block.isLockedAt (t.block.indexOf (t.hash key)) = true ∨
    t.Crowded d key ∧ t.block.hasLock = true

/-- The dictionary after an entry was stored: a key that is there keeps its value unless `update`
says otherwise. -/
def Dict.store (d : Dict) (e : Entry) (update : Bool) : Dict :=
  if (d.lookup e.key).isSome ∧ update = false then d else d.insert e.key e.value

theorem Dict.store_absent (h : d.lookup e.key = none) (update : Bool) :
    d.store e update = d.insert e.key e.value := by
  rw [Dict.store, h]
  rfl

theorem Dict.store_update (d : Dict) (e : Entry) : d.store e true = d.insert e.key e.value :=
  if_neg fun h => Bool.noConfusion h.2

inductive Table.Attempted (t : Table) (d : Dict) (e : Entry) (update : Bool) : Attempt → Prop where
  | waits (locked : t.block.isLockedAt (t.block.indexOf (t.hash e.key)) = true) :
      Attempted t d e update .waits
  | done (t' : Table) (free : t.block.isLockedAt (t.block.indexOf (t.hash e.key)) = false)
      (roomy : ¬ t.Crowded d e.key) (represents : t'.Represents (d.store e update))
      (respects : t.Respects t') :
      Attempted t d e update (.done (d.lookup e.key).isNone t')
  | full (free : t.block.isLockedAt (t.block.indexOf (t.hash e.key)) = false)
      (crowded : t.Crowded d e.key) : Attempted t d e update (.full t)

theorem Table.Attempted.revise {i : Nat} {c : Cell} {pool : Pool} {d' : Dict} {inserted : Bool}
    (hindex : t.block.indexOf (t.hash e.key) = i) (hi : i < t.block.cellCount)
    (hfree : t.block.isLockedAt i = false) (hc : c.word.isLocked = false)
    (hroom : ¬ t.Crowded d e.key) (hb : (t.block.revise i c pool).Holds t.hash d')
    (h : t.Represents d) (hstore : d.store e update = d')
    (hflag : (d.lookup e.key).isNone = inserted) :
    t.Attempted d e update (.done inserted (t.revise i c pool)) := by
  subst hstore hflag hindex
  exact .done _ hfree hroom (h.revise hb) (Table.respects_revise hi hfree hc)

theorem Table.Represents.attempt_present (h : t.Represents d) {i : Nat} {value : UInt64}
    {place : Place} (hindex : t.block.indexOf (t.hash e.key) = i) (hi : i < t.block.cellCount)
    (hfree : t.block.isLockedAt i = false) (hv : d.lookup e.key = some value)
    (hlies : (t.block.cell i).seize.Lies (t.block.cell i).seize.word ⟨e.key, value⟩ place)
    (hfound : t.lockAndLocate (.of e.key)
      = some (i, (t.block.cell i).seize, (t.block.cell i).seize.word, some place)) :
    t.Attempted d e update (t.attempt e update) := by
  have hroom : ¬ t.Crowded d e.key := fun hc => by
    rw [hc.absent] at hv
    cases hv
  have hflag : (d.lookup e.key).isNone = false := by rw [hv]; rfl
  unfold Table.attempt
  simp only [hfound]
  cases update with
  | false =>
    rw [if_neg Bool.false_ne_true, Table.setCell_unlock hfree]
    have hsame : d.store e false = d := if_pos ⟨by rw [hv]; rfl, rfl⟩
    have hdone : t.Attempted d e false (.done (d.lookup e.key).isNone t) := by
      refine .done t (hindex ▸ hfree) hroom ?_ (Table.Respects.refl t)
      rw [hsame]
      exact h
    rwa [hflag] at hdone
  | true =>
    rw [if_pos rfl]
    have hwrite := (Block.opens_seize hi).beginWrite
    replace hlies := (Cell.agrees_beginWrite _ _).lies hlies
    generalize (t.block.cell i).seize.beginWrite _ = opened at hwrite hlies ⊢
    obtain ⟨x, w⟩ := opened
    have hb := h.holds.writeValue hwrite hlies hindex e.value
    exact .revise hindex hi hfree w.isLocked_published hroom hb h (d.store_update e) hflag

theorem Table.Represents.attempt_inline (h : t.Represents d) {i : Nat}
    (hindex : t.block.indexOf (t.hash e.key) = i) (hi : i < t.block.cellCount)
    (hfree : t.block.isLockedAt i = false) (hd : d.lookup e.key = none)
    (hfound : t.lockAndLocate (.of e.key)
      = some (i, (t.block.cell i).seize, (t.block.cell i).seize.word, none))
    (hroom : (t.block.cell i).word.count < inlineSlots) :
    t.Attempted d e update (t.attempt e update) := by
  have hroomy : ¬ t.Crowded d e.key := fun hc => by
    have hfull := hc.full
    rw [hindex] at hfull
    omega
  have hflag : (d.lookup e.key).isNone = true := by rw [hd]; rfl
  have hseized : (t.block.cell i).seize.word.count < inlineSlots :=
    (t.block.cell i).agrees_seize.count ▸ hroom
  have hwrite := (Block.opens_seize hi).beginWrite
  have hcount := hwrite.agrees.count
  unfold Table.attempt
  simp only [hfound]
  rw [if_pos hseized]
  generalize (t.block.cell i).seize.beginWrite _ = opened at hwrite hcount ⊢
  obtain ⟨x, w⟩ := opened
  have hb := h.holds.pushInline hwrite hindex (hcount ▸ hroom) hd
  exact .revise hindex hi hfree (CellWord.isLocked_published _) hroomy hb h
    (d.store_absent hd update) hflag

theorem Table.Represents.attempt_full (h : t.Represents d) {i : Nat}
    (hindex : t.block.indexOf (t.hash e.key) = i) (hi : i < t.block.cellCount)
    (hfree : t.block.isLockedAt i = false) (hd : d.lookup e.key = none)
    (hfound : t.lockAndLocate (.of e.key)
      = some (i, (t.block.cell i).seize, (t.block.cell i).seize.word, none))
    (hfull : (t.block.cell i).word.count = inlineSlots) :
    t.Attempted d e update (t.attempt e update) := by
  have havailable := Pool.available_eq h.holds.counted
  have hflag : (d.lookup e.key).isNone = true := by rw [hd]; rfl
  have hseized : ¬ (t.block.cell i).seize.word.count < inlineSlots := by
    rw [(t.block.cell i).agrees_seize.count, hfull]
    exact Nat.lt_irrefl _
  unfold Table.attempt
  simp only [hfound]
  rw [if_neg hseized]
  split
  next item pool halloc =>
    have hlend := Pool.lends_of_alloc halloc
    have hroomy : ¬ t.Crowded d e.key := fun hc => by
      have hlength := hlend.items.length_eq
      have hnone := hc.exhausted
      rw [List.length_cons] at hlength
      omega
    have hwrite := (Block.opens_seize hi).beginWrite
    have hcount := hwrite.agrees.count
    generalize (t.block.cell i).seize.beginWrite _ = opened at hwrite hcount ⊢
    obtain ⟨x, w⟩ := opened
    have hb := h.holds.pushOverflow hwrite hindex (hcount.trans hfull) hlend hd
    exact .revise hindex hi hfree (CellWord.isLocked_published _) hroomy hb h
      (d.store_absent hd update) hflag
  next halloc =>
    rw [Table.setCell_unlock hfree]
    rw [Pool.alloc_eq_none_iff.mp halloc] at havailable
    subst hindex
    exact .full hfree ⟨hd, hfull, havailable⟩

theorem Table.Represents.attempt (h : t.Represents d) (e : Entry) (update : Bool) :
    t.Attempted d e update (t.attempt e update) := by
  obtain ⟨hindex, hi⟩ := h.index (q := .of e.key) rfl
  cases hfound : t.lockAndLocate (.of e.key) with
  | none =>
    have hlocked := Table.lockAndLocate_eq_none.mp hfound
    simp only [Table.attempt, hfound]
    exact .waits hlocked
  | some found =>
    obtain ⟨i, c, held, place⟩ := found
    obtain ⟨rfl, hfree, rfl, rfl, hlocate⟩ := Table.lockAndLocate_eq_some hfound
    cases place with
    | none =>
      have hd := h.holds.locate_eq_none (Block.opens_seize hi) hindex hlocate
      by_cases hroom : (t.block.cell (t.indexOf (.of e.key))).word.count < inlineSlots
      · exact h.attempt_inline hindex hi hfree hd hfound hroom
      · have hfull := Nat.le_antisymm (CellWord.count_le _) (Nat.le_of_not_lt hroom)
        exact h.attempt_full hindex hi hfree hd hfound hfull
    | some place =>
      obtain ⟨value, hv, hlies⟩ := h.holds.locate_eq_some (Block.opens_seize hi) hlocate
      exact h.attempt_present hindex hi hfree hv hlies hfound

inductive Table.Grown (t : Table) (d : Dict) : Stored Unit → Prop where
  | failed (fault : Fault) : Grown t d ⟨.error fault, t, []⟩
  | grew (t' : Table) (represents : t'.Represents d) (respects : t.Respects t')
      (unlocked : t'.block.hasLock = false)
      (larger : t.block.cellCount * growthFactor ≤ t'.block.cellCount) :
      Grown t d ⟨.ok (), t', [.discard t.block.cellCount]⟩

theorem Table.grow_eq_none (h : t.Represents d) : t.grow = none ↔ t.block.hasLock = true := by
  rw [Table.grow, if_neg (by simp [h.idle]), Option.map_eq_none_iff, Table.replaceBlock]
  split
  next hlock => simpa using hlock
  next hfree =>
    simp only [hfree]
    split <;> simp

theorem Table.not_storeBlocked (h : t.block.hasLock = false) (key : UInt64) :
    ¬ t.StoreBlocked d key := by
  rintro (hlocked | ⟨_, hlock⟩)
  · rw [Block.hasLock_eq_false.mp h] at hlocked
    cases hlocked
  · rw [h] at hlock
    cases hlock

/-- When its cell is free but there is no room, an entry waits for whatever keeps the table from
growing. -/
theorem Table.Represents.storeBlocked_iff (h : t.Represents d) {key : UInt64}
    (free : t.block.isLockedAt (t.block.indexOf (t.hash key)) = false) (crowded : t.Crowded d key) :
    t.StoreBlocked d key ↔ t.grow = none := by
  rw [Table.grow_eq_none h]
  constructor
  · rintro (hlocked | ⟨_, hlock⟩)
    · rw [hlocked] at free
      cases free
    · exact hlock
  · exact fun hlock => .inr ⟨crowded, hlock⟩

theorem Table.respects_of_unlocked (h : t.block.hasLock = false) (h' : t'.block.hasLock = false)
    (hhash : t'.hash = t.hash) : t.Respects t' := by
  rw [Block.hasLock_eq_false] at h h'
  refine ⟨hhash, fun i hi => ?_, fun i hi => ?_⟩
  · rw [h i] at hi
    cases hi
  · rw [h' i] at hi
    cases hi

theorem Table.Represents.grow {stored : Stored Unit} (h : t.Represents d)
    (hg : t.grow = some stored) : t.Grown d stored := by
  rw [Table.grow, if_neg (by simp [h.idle]), Option.map_eq_some_iff] at hg
  obtain ⟨replaced, hreplace, rfl⟩ := hg
  unfold Table.replaceBlock at hreplace
  split at hreplace
  next => cases hreplace
  next hfree =>
    rw [Bool.not_eq_true] at hfree
    simp only at hreplace
    split at hreplace
    next fault _ =>
      cases Option.some.inj hreplace
      have hsame : { t with block := t.block.lockAll.forceUnlockAll, growing := false } = t := by
        rw [Block.forceUnlockAll_lockAll hfree, ← h.idle]
      simp only [hsame]
      exact .failed fault
    next block hblock =>
      cases Option.some.inj hreplace
      have hpos : 0 < t.block.lockAll.cellCount := t.block.cellCount_lockAll ▸ h.nonempty
      obtain ⟨cells, hfill, hle, hlt⟩ := h.holds.lockAll.successor hpos hpos hblock
      have hunlocked := Block.hasLock_eq_false.mpr hfill.unlocked
      have hsize := hfill.size
      rw [Block.cellCount_lockAll] at hle ⊢
      refine .grew _ ⟨hfill.holds, ?_, ?_, rfl⟩ ?_ hunlocked ?_
      · have hfactor : 0 < growthFactor := by decide
        refine Nat.lt_of_lt_of_le h.nonempty ((Nat.le_mul_of_pos_right _ hfactor).trans ?_)
        exact hsize ▸ hle
      · exact hsize ▸ hlt
      · exact Table.respects_of_unlocked hfree hunlocked rfl
      · exact hsize ▸ hle

inductive Table.Stores (t : Table) (d : Dict) (e : Entry) (update : Bool) : Stored Bool → Prop where
  | ok (t' : Table) (retired : List Job) (represents : t'.Represents (d.store e update))
      (respects : t.Respects t') : Stores t d e update ⟨.ok (d.lookup e.key).isNone, t', retired⟩
  | error (fault : Fault) (t' : Table) (retired : List Job) (represents : t'.Represents d)
      (respects : t.Respects t') (crowded : t.Crowded d e.key) :
      Stores t d e update ⟨.error fault, t', retired⟩

theorem Table.Stores.after_growth {stored : Stored Bool} (h : t'.Stores d e update stored)
    (hr : t.Respects t') (hc : t.Crowded d e.key) (retired : List Job) :
    t.Stores d e update { stored with retired := retired ++ stored.retired } := by
  cases h with
  | ok t'' _ represents respects => exact .ok t'' _ represents (hr.trans respects)
  | error fault t'' _ represents respects => exact .error fault t'' _ represents (hr.trans respects) hc

/-- Every growth multiplies the cells, so with enough rounds the entry is stored, or the growth is
refused, or somebody holds a cell that is needed. -/
theorem Table.Represents.storeWithin {rounds : Nat} (h : t.Represents d)
    (hrounds : cellLimit ≤ t.block.cellCount * growthFactor ^ rounds) (e : Entry) (update : Bool) :
    (t.storeWithin e update rounds = none ↔ t.StoreBlocked d e.key) ∧
      ∀ stored, t.storeWithin e update rounds = some stored → t.Stores d e update stored := by
  induction rounds generalizing t with
  | zero =>
    -- Cell counts stay below the limit, so the rounds cannot run out.
    have hlimit := h.limit
    simp only [pow_zero, mul_one] at hrounds
    omega
  | succ rounds ih =>
    have hattempt := h.attempt e update
    unfold Table.storeWithin
    generalize t.attempt e update = attempt at hattempt
    cases hattempt with
    | waits locked => exact ⟨⟨fun _ => .inl locked, fun _ => rfl⟩, fun _ hs => by cases hs⟩
    | done t' free roomy represents respects =>
      refine ⟨iff_of_false (Option.some_ne_none _) ?_, fun stored hs => ?_⟩
      · rintro (hlocked | ⟨hcrowded, _⟩)
        · rw [hlocked] at free
          cases free
        · exact absurd hcrowded roomy
      · cases Option.some.inj hs
        exact .ok t' [] represents respects
    | full free crowded =>
      have hblocked := h.storeBlocked_iff free crowded
      simp only
      split
      next hgrow => exact ⟨⟨fun _ => hblocked.mpr hgrow, fun _ => rfl⟩, fun _ hs => by cases hs⟩
      next fault t' retired hgrow =>
        refine ⟨iff_of_false (Option.some_ne_none _) ?_, fun stored hs => ?_⟩
        · rw [hblocked, hgrow]
          exact Option.some_ne_none _
        · cases Option.some.inj hs
          cases h.grow hgrow
          exact .error fault t [] h (Table.Respects.refl t) crowded
      next t' retired hgrow =>
        cases h.grow hgrow with
        | grew _ represents respects unlocked larger =>
          have hnext : cellLimit ≤ t'.block.cellCount * growthFactor ^ rounds := by
            refine hrounds.trans ?_
            rw [pow_succ', ← mul_assoc]
            exact Nat.mul_le_mul_right _ larger
          obtain ⟨hwait, hdone⟩ := ih represents hnext
          refine ⟨?_, fun stored hs => ?_⟩
          · rw [Option.map_eq_none_iff, hwait, hblocked, hgrow]
            exact iff_of_false (Table.not_storeBlocked unlocked e.key) (Option.some_ne_none _)
          · obtain ⟨rest, hrest, rfl⟩ := Option.map_eq_some_iff.mp hs
            exact (hdone rest hrest).after_growth respects crowded _

theorem Table.Represents.rounds_suffice (h : t.Represents d) :
    cellLimit ≤ t.block.cellCount * growthFactor ^ growthRounds := by
  refine Nat.le_trans (m := 1 * growthFactor ^ growthRounds) (by decide) ?_
  exact Nat.mul_le_mul_right _ h.nonempty

theorem Table.Represents.store (h : t.Represents d) (e : Entry) (update : Bool) :
    (t.store e update = none ↔ t.StoreBlocked d e.key) ∧
      ∀ stored, t.store e update = some stored → t.Stores d e update stored :=
  h.storeWithin h.rounds_suffice e update

end EpochTable
