import EpochTable.Proofs.SingleGrowth

namespace EpochTable

variable {t t' : Table} {c c' c'' : Cell} {held : CellWord} {d : Dict} {q : Query} {e : Entry}
  {update : Bool} {hash : UInt64 → UInt64} {settings : Settings} {memory : Memory} {s s' : Store}
  {w : Ideal} {i k m n : Nat}

/-- So many changes lead from one cell to the other: the version tells their number, and if there were
none, the cells differ in the lock at most. -/
structure Cell.Changed (n : Nat) (c c' : Cell) : Prop where
  version : c'.word.version = (c.word.version + n) % 2 ^ 56
  kept : n = 0 → c'.slots = c.slots ∧ c'.chain = c.chain ∧ c'.word.unlocked = c.word.unlocked

theorem Cell.Changed.of_kept (hslots : c'.slots = c.slots) (hchain : c'.chain = c.chain)
    (hword : c'.word.unlocked = c.word.unlocked) : c.Changed 0 c' := by
  refine ⟨?_, fun _ => ⟨hslots, hchain, hword⟩⟩
  have hlt := c.word.version_lt
  rw [← c'.word.version_unlocked, hword, c.word.version_unlocked]
  omega

theorem Cell.Changed.refl (c : Cell) : c.Changed 0 c := .of_kept rfl rfl rfl

theorem Cell.Changed.trans (h : c.Changed m c') (h' : c'.Changed n c'') :
    c.Changed (m + n) c'' := by
  constructor
  · rw [h'.version, h.version]
    omega
  · intro hzero
    obtain ⟨hslots, hchain, hword⟩ := h.kept (by omega)
    obtain ⟨hslots', hchain', hword'⟩ := h'.kept (by omega)
    exact ⟨hslots'.trans hslots, hchain'.trans hchain, hword'.trans hword⟩

/-- Publishing a word of the version that the cell had makes one change. -/
theorem Cell.Changed.publish (hversion : held.version = c.word.version) :
    c.Changed 1 (c'.publish held) := by
  refine ⟨?_, fun h => absurd h Nat.one_ne_zero⟩
  rw [Cell.publish, CellWord.version_published, hversion]

theorem Cell.version_remove (c : Cell) (held : CellWord) (place : Place) :
    (c.remove held place).2.1.version = held.version := by
  have hle := held.count_le
  cases place with
  | inline i =>
    cases hchain : c.chain with
    | nil => simpa [Cell.remove, hchain] using held.version_withCount (n := held.count - 1) (by omega)
    | cons head rest => simp [Cell.remove, hchain]
  | overflow p => exact held.version_withOverflow _

theorem Cell.version_begun (c : Cell) :
    (c.seize.beginWrite c.seize.word).2.version = c.word.version := by
  simp [Cell.beginWrite, Cell.seize]

/-- One change of the cell told, if one is, and none of any other cell. -/
def Table.Follows (t : Table) (changed : Option Nat) (t' : Table) : Prop :=
  ∀ i, (t.block.cell i).Changed (if changed = some i then 1 else 0) (t'.block.cell i)

theorem Table.Follows.same (t : Table) : t.Follows none t := fun _ => .refl _

theorem Table.follows_revise {pool : Pool} (hk : k < t.block.cellCount) (changed : Bool)
    (hc : (t.block.cell k).Changed changed.toNat c) :
    t.Follows (if changed then some k else none) (t.revise k c pool) := by
  intro i
  by_cases he : i = k
  · rw [he, Table.revise, Block.cell_revise_self hk]
    cases changed <;> simpa using hc
  · have hne : (if changed then some k else none) ≠ some i := by
      cases changed <;> simp [Ne.symm he]
    rw [Table.revise, Block.cell_revise_of_ne he, if_neg hne]
    exact .refl _

/-- A call has left the table alone, or it has made one change of one cell. -/
inductive Table.Wrote (t : Table) (k : Nat) : Bool → Table → Prop where
  | kept : Wrote t k false t
  | wrote (c : Cell) (held : CellWord) (pool : Pool)
      (version : held.version = (t.block.cell k).word.version) :
      Wrote t k true (t.revise k (c.publish held) pool)

theorem Table.Wrote.follows {wrote : Bool} (h : t.Wrote k wrote t') (hk : k < t.block.cellCount) :
    t.Follows (if wrote then some k else none) t' := by
  cases h with
  | kept => exact .same t
  | wrote c held pool version => exact Table.follows_revise hk true (.publish version)

theorem Table.wrote_remove {flag : Bool} (hr : t.remove q = some (flag, t')) :
    t.Wrote (t.indexOf q) flag t' := by
  unfold Table.remove at hr
  split at hr
  next => cases hr
  next hfound =>
    obtain ⟨rfl, hfree, rfl, rfl, _⟩ := Table.lockAndLocate_eq_some hfound
    rw [Table.setCell_unlock hfree] at hr
    cases Option.some.inj hr
    exact .kept
  next place hfound =>
    obtain ⟨rfl, hfree, rfl, rfl, _⟩ := Table.lockAndLocate_eq_some hfound
    have hbegun := (t.block.cell (t.indexOf q)).version_begun
    generalize (t.block.cell (t.indexOf q)).seize.beginWrite _ = opened at hbegun hr
    obtain ⟨x, u⟩ := opened
    have hversion := (x.version_remove u place).trans hbegun
    simp only at hr
    generalize x.remove u place = removed at hversion hr
    obtain ⟨y, v, freed⟩ := removed
    cases freed <;> cases Option.some.inj hr <;> exact .wrote y v _ hversion

theorem Table.wrote_attempt {inserted : Bool} (ha : t.attempt e update = .done inserted t') :
    t.Wrote (t.indexOf (.of e.key)) (inserted || update) t' := by
  unfold Table.attempt at ha
  split at ha
  next => cases ha
  next place hfound =>
    obtain ⟨rfl, hfree, rfl, rfl, _⟩ := Table.lockAndLocate_eq_some hfound
    cases update with
    | false =>
      rw [if_neg Bool.false_ne_true, Table.setCell_unlock hfree] at ha
      cases ha
      exact .kept
    | true =>
      rw [if_pos rfl] at ha
      cases ha
      exact .wrote _ _ _ (Cell.version_begun _)
  next hfound =>
    obtain ⟨rfl, hfree, rfl, rfl, _⟩ := Table.lockAndLocate_eq_some hfound
    have hbegun := (t.block.cell (t.indexOf (.of e.key))).version_begun
    have hcount : ((t.block.cell (t.indexOf (.of e.key))).seize.beginWrite _).2.count = _ :=
      CellWord.count_writing (t.block.cell (t.indexOf (.of e.key))).seize.word
    generalize (t.block.cell (t.indexOf (.of e.key))).seize.beginWrite _ = opened at hbegun hcount ha
    obtain ⟨x, u⟩ := opened
    simp only at hcount
    split at ha
    next hroom =>
      cases ha
      have hversion := u.version_withCount (n := u.count + 1) (by omega)
      exact .wrote _ _ _ (hversion.trans hbegun)
    next =>
      split at ha
      next =>
        cases ha
        exact .wrote _ _ _ ((u.version_withOverflow true).trans hbegun)
      next => cases ha

/-- A storing call multiplies the cells as often as it grows. -/
theorem Table.Represents.cells_le {stored : Stored Bool} (h : t.Represents d)
    (hstore : t.store e update = some stored) :
    t.block.cellCount ≤ stored.table.block.cellCount := by
  obtain ⟨last, before, final, hpasses, hsettles, rfl⟩ := Table.exists_passes hstore
  obtain ⟨hlast, _, hcells⟩ := h.passes hpasses
  have hfactor : 0 < growthFactor ^ before.length := Nat.pow_pos (by decide)
  have hsame := (hlast.alike_settles hsettles).cells
  show t.block.cellCount ≤ final.table.block.cellCount
  rw [hsame]
  exact Nat.le_trans (Nat.le_mul_of_pos_right _ hfactor) hcells

/-- A storing call that does not replace the block stores at once, or it fails and leaves the table
alone. -/
theorem Table.Represents.store_same {stored : Stored Bool} (h : t.Represents d)
    (hstore : t.store e update = some stored)
    (same : stored.table.block.cellCount = t.block.cellCount) :
    (∃ inserted, stored.result = .ok inserted ∧
        t.Wrote (t.indexOf (.of e.key)) (inserted || update) stored.table) ∨
      (∃ fault, stored.result = .error fault) ∧ stored.table = t := by
  obtain ⟨last, before, final, hpasses, hsettles, rfl⟩ := Table.exists_passes hstore
  obtain ⟨hlast, _, _⟩ := h.passes hpasses
  have hcells := (hlast.alike_settles hsettles).cells
  have hbefore : before = [] := by
    by_contra hne
    have hlarger := h.cells_passes hpasses hne
    have hpos := h.nonempty
    simp only [growthFactor] at hlarger same
    omega
  subst hbefore
  obtain rfl := hpasses.eq_of_nil h
  cases hsettles with
  | done inserted t' attempt => exact .inl ⟨inserted, rfl, Table.wrote_attempt attempt⟩
  | failed fault full t' retired attempt grow =>
    obtain ⟨rfl, _⟩ := h.of_full attempt
    obtain ⟨rfl, _⟩ := Table.grow_error h.idle grow
    exact .inr ⟨⟨fault, rfl⟩, rfl⟩

theorem Table.Represents.hold_follows {hold : Option Hold} (h : t.Represents d)
    (hr : t.hold q = some (hold, t')) : t.Follows none t' := by
  have hi : t.indexOf q < t.block.cellCount := Block.indexOf_lt h.nonempty _
  unfold Table.hold at hr
  split at hr
  next => cases hr
  next hfound =>
    obtain ⟨rfl, hfree, rfl, rfl, _⟩ := Table.lockAndLocate_eq_some hfound
    rw [Table.setCell_unlock hfree] at hr
    cases Option.some.inj hr
    exact .same t
  next hfound =>
    obtain ⟨rfl, hfree, rfl, rfl, _⟩ := Table.lockAndLocate_eq_some hfound
    cases Option.some.inj hr
    refine Table.follows_revise hi false (.of_kept rfl rfl ?_)
    rw [Cell.seize, CellWord.unlocked_locked hfree, CellWord.unlocked_of_free hfree]

/-- The cell that a call with this result has changed. -/
def Table.changedBy (t : Table) : Call → CallResult → Option Nat
  | .insert e, .flag true => some (t.indexOf (.of e.key))
  | .upsert e, .flag _ => some (t.indexOf (.of e.key))
  | .remove q, .flag true => some (t.indexOf q)
  | _, _ => none

theorem Table.Represents.store_follows {stored : Stored Bool} (h : t.Represents d)
    (hstore : t.store e update = some stored)
    (same : stored.table.block.cellCount = t.block.cellCount) :
    t.Follows (t.changedBy (.store e update) stored.finished.result) stored.table := by
  have hi : t.indexOf (.of e.key) < t.block.cellCount := Block.indexOf_lt h.nonempty _
  rcases h.store_same hstore same with ⟨inserted, hresult, hwrote⟩ | ⟨⟨fault, hresult⟩, htable⟩
  · have hfollows := hwrote.follows hi
    simp only [Stored.finished, hresult]
    cases update <;> cases inserted <;> exact hfollows
  · simp only [Stored.finished, hresult, htable]
    cases update <;> exact .same t

theorem Table.Represents.call_follows {call : Call} {done : Finished} (h : t.Represents d)
    (hd : t.call call = some done)
    (same : done.table.block.cellCount = t.block.cellCount) :
    t.Follows (t.changedBy call done.result) done.table := by
  cases call with
  | insert e =>
    obtain ⟨stored, hstored, rfl⟩ := Option.map_eq_some_iff.mp hd
    exact h.store_follows hstored same
  | upsert e =>
    obtain ⟨stored, hstored, rfl⟩ := Option.map_eq_some_iff.mp hd
    exact h.store_follows hstored same
  | remove q =>
    obtain ⟨⟨flag, t'⟩, hremove, rfl⟩ := Option.map_eq_some_iff.mp hd
    have hfollows := (Table.wrote_remove hremove).follows (Block.indexOf_lt h.nonempty _)
    cases flag <;> exact hfollows
  | hold q =>
    obtain ⟨⟨hold, t'⟩, hhold, rfl⟩ := Option.map_eq_some_iff.mp hd
    exact h.hold_follows hhold
  | len =>
    obtain ⟨⟨n, t'⟩, hlen, rfl⟩ := Option.map_eq_some_iff.mp hd
    obtain ⟨_, rfl⟩ := h.len hlen
    exact .same _
  | isEmpty =>
    obtain ⟨⟨empty, t'⟩, hempty, rfl⟩ := Option.map_eq_some_iff.mp hd
    obtain ⟨⟨n, _⟩, hlen, heq⟩ := Option.map_eq_some_iff.mp hempty
    cases heq
    obtain ⟨_, rfl⟩ := h.len hlen
    exact .same _
  | _ =>
    cases Option.some.inj hd
    exact .same t

theorem Table.Represents.updateHeld_follows {hold : Hold} {key : UInt64} (h : t.Represents d)
    (hg : hold.Guards t key) (value : UInt64) :
    t.Follows (some hold.cell) (t.updateHeld hold value) := by
  have hi : hold.cell < t.block.cellCount := hg.index ▸ Block.indexOf_lt h.nonempty _
  have hversion : hold.held.writing.version = (t.block.cell hold.cell).word.version := by
    rw [CellWord.version_writing, hg.word]
  exact Table.follows_revise hi true (.publish hversion)

theorem Table.Represents.releaseHeld_follows {hold : Hold} {key : UInt64} (h : t.Represents d)
    (hg : hold.Guards t key) : t.Follows none (t.releaseHeld hold) := by
  have hi : hold.cell < t.block.cellCount := hg.index ▸ Block.indexOf_lt h.nonempty _
  refine Table.follows_revise hi false (.of_kept rfl rfl ?_)
  rw [Cell.unlock, CellWord.unlocked_of_free (CellWord.isLocked_unlocked _), hg.word]

/-- The cell that an act with this answer has changed. -/
def Store.changedBy (s : Store) : Store.Act → Store.Answer → Option Nat
  | .call _ call, .result result => s.table.changedBy call result
  | .updateHeld j _, _ => (s.hold? j).map Hold.cell
  | _, _ => none

/-- How often the acts change a cell. -/
def Store.changes (s : Store) (i : Nat) : List Store.Act → Nat
  | [] => 0
  | act :: acts =>
    let (s', answer, _) := s.apply act
    (if s.changedBy act answer = some i then 1 else 0) + s'.changes i acts

theorem Store.Simulates.cells_le (h : s.Simulates hash w) (act : Store.Act) :
    s.table.block.cellCount ≤ (s.apply act).1.table.block.cellCount := by
  rcases s.alike_apply act with ⟨e, update, stored, hstored, htable⟩ | halike
  · rw [htable]
    exact h.table.cells_le hstored
  · exact Nat.le_of_eq halike.cells.symm

theorem Store.Simulates.apply_follows (h : s.Simulates hash w) (act : Store.Act)
    (same : (s.apply act).1.table.block.cellCount = s.table.block.cellCount) :
    s.table.Follows (s.changedBy act (s.apply act).2.1) (s.apply act).1.table := by
  cases act with
  | realm act => exact .same _
  | call m call =>
    cases hpin : s.realm.pinned? m with
    | none =>
      simp only [Store.apply, hpin, Option.isNone_none, if_true, Store.changedBy]
      exact .same _
    | some member =>
      simp only [Store.apply, hpin, Option.isNone_some, Bool.false_eq_true, if_false] at same ⊢
      cases hdone : s.table.call call with
      | none => exact .same _
      | some done =>
        rw [hdone] at same
        exact h.table.call_follows hdone same
  | updateHeld j value =>
    simp only [Store.apply, Store.changedBy]
    cases hj : s.hold? j with
    | none => exact .same _
    | some hold =>
      obtain ⟨key, _, hg⟩ := h.guarded hj
      exact h.table.updateHeld_follows hg value
  | releaseHeld j =>
    simp only [Store.apply, Store.changedBy]
    cases hj : s.hold? j with
    | none => exact .same _
    | some hold =>
      obtain ⟨key, _, hg⟩ := h.guarded hj
      exact h.table.releaseHeld_follows hg
  | setMemory memory => exact fun _ => .refl _

theorem Store.Simulates.cells_le_run (h : s.Simulates hash w) (acts : List Store.Act) :
    s.table.block.cellCount ≤ (s.run acts).1.table.block.cellCount := by
  induction acts generalizing s w with
  | nil => exact Nat.le_refl _
  | cons act acts ih =>
    obtain ⟨w', h'⟩ := h.apply_any act
    exact Nat.le_trans (h.cells_le act) (ih h')

/-- By induction on the acts; none of them makes fewer cells, so if there are no more in the end, there
have been no more all the time. -/
theorem Store.Simulates.run_changed (h : s.Simulates hash w) {acts : List Store.Act}
    (same : (s.run acts).1.table.block.cellCount = s.table.block.cellCount) (i : Nat) :
    (s.table.block.cell i).Changed (s.changes i acts) ((s.run acts).1.table.block.cell i) := by
  induction acts generalizing s w with
  | nil => exact .refl _
  | cons act acts ih =>
    obtain ⟨w', h'⟩ := h.apply_any act
    have hfirst := h.cells_le act
    have hlater := h'.cells_le_run acts
    have hrun : (s.run (act :: acts)).1 = ((s.apply act).1.run acts).1 := rfl
    rw [hrun] at same ⊢
    have hstay := Nat.le_antisymm (hlater.trans_eq same) hfirst
    have hnow := h.apply_follows act hstay i
    exact hnow.trans (ih h' (same.trans hstay.symm))

/-- As long as the block stays, the version of a cell is one more for every change of the cell, and comes
round after `2 ^ 56` of them. With no change the cell stays the same but for the lock, which tells
whether it is held; and if the words of the cell at two moments have the same contents, with fewer
changes between than make the version come round, then there was no change. -/
theorem Store.versions_count_changes {s₀ : Store} (hmake : Store.make settings hash memory = .ok s₀)
    (before acts : List Store.Act) :
    let s := (s₀.run before).1
    let s' := (s.run acts).1
    s'.table.block.cellCount = s.table.block.cellCount →
    ∀ i < s.table.block.cellCount,
      let c := s.table.block.cell i
      let c' := s'.table.block.cell i
      let changes := s.changes i acts
      c'.word.version = (c.word.version + changes) % 2 ^ 56 ∧
      (c.word.isLocked = true ↔ s.Holds i) ∧ (c'.word.isLocked = true ↔ s'.Holds i) ∧
      (changes = 0 → c' = { c with word := c'.word } ∧ c'.word.unlocked = c.word.unlocked ∧
        ((s'.Holds i ↔ s.Holds i) → c' = c)) ∧
      (changes < 2 ^ 56 → c.word.sameContents c'.word = true →
        changes = 0 ∧ c'.slots = c.slots ∧ c'.chain = c.chain ∧
        c'.entries c'.word = c.entries c.word) := by
  intro s s' same i hi c c' changes
  obtain ⟨w, h, hs⟩ := Store.simulates_run hmake before
  obtain ⟨w', h', _⟩ := h.run_any hs acts
  have hchanged : c.Changed changes c' := h.run_changed same i
  have hlocked : c.word.isLocked = true ↔ s.Holds i := h.locked_iff
  have hlocked' : c'.word.isLocked = true ↔ s'.Holds i := h'.locked_iff
  have hkept : changes = 0 → c' = { c with word := c'.word } ∧ c'.word.unlocked = c.word.unlocked := by
    intro hzero
    obtain ⟨hslots, hchain, hword⟩ := hchanged.kept hzero
    refine ⟨?_, hword⟩
    rw [← hslots, ← hchain]
  refine ⟨hchanged.version, hlocked, hlocked', fun hzero => ?_, fun hfew hsame => ?_⟩
  · obtain ⟨hcell, hword⟩ := hkept hzero
    refine ⟨hcell, hword, fun hholds => ?_⟩
    have hlock : c'.word.isLocked = c.word.isLocked := by
      rw [Bool.eq_iff_iff, hlocked, hlocked', hholds]
    rw [hcell, CellWord.eq_of_unlocked hword hlock]
  · have hwords : c.word.unlocked = c'.word.unlocked := of_decide_eq_true hsame
    have hversion : c'.word.version = c.word.version := by
      rw [← c'.word.version_unlocked, ← hwords, c.word.version_unlocked]
    have hlt := c.word.version_lt
    have hcount := hchanged.version
    have hzero : changes = 0 := by omega
    obtain ⟨hslots, hchain, hword⟩ := hchanged.kept hzero
    have hentries : c'.word.count = c.word.count := by
      rw [← c'.word.count_unlocked, hword, c.word.count_unlocked]
    refine ⟨hzero, hslots, hchain, ?_⟩
    rw [Cell.entries, Cell.inlined, Cell.chained, hslots, hchain, hentries]
    rfl

/-- Three changes of a full cell among other acts; and acts that change nothing: a key that is there
already, one that is not, a hold that is given back, a count, and a growth without memory. -/
theorem Store.versions_count_changes_full :
    let before : List Store.Act := [.realm .register, .realm (.move 0 .acquire),
      .call 0 (.insert ⟨1, 10⟩), .call 0 (.insert ⟨2, 20⟩), .call 0 (.insert ⟨3, 30⟩)]
    let acts : List Store.Act := [.call 0 (.upsert ⟨1, 11⟩), .call 0 (.insert ⟨1, 12⟩),
      .call 0 (.remove (.of 2)), .call 0 (.remove (.of 2)), .call 0 (.hold (.of 1)), .updateHeld 0 13]
    let idle : List Store.Act := [.call 0 (.insert ⟨1, 12⟩), .call 0 (.remove (.of 4)),
      .call 0 (.hold (.of 1)), .releaseHeld 0, .call 0 .len, .setMemory fun _ => false,
      .call 0 (.insert ⟨5, 50⟩)]
    ∃ s₀, Store.make ⟨1, 128, 64, .standard, 128⟩ id (fun _ => true) = .ok s₀ ∧
      let s := (s₀.run before).1
      0 < s.table.block.cellCount ∧
      (s.run acts).1.table.block.cellCount = s.table.block.cellCount ∧ s.changes 0 acts = 3 ∧
      ((s.run acts).1.table.block.cell 0).word.version = 6 ∧
      (s.run idle).1.table.block.cellCount = s.table.block.cellCount ∧ s.changes 0 idle = 0 ∧
      (s.run idle).1.table.block.cell 0 = s.table.block.cell 0 := by
  intro before acts idle
  refine ⟨_, rfl, ?_⟩
  have hcount := @Store.versions_count_changes id ⟨1, 128, 64, .standard, 128⟩ (fun _ => true) _ rfl
    before
  generalize hs : (Store.run _ before).1 = s at hcount ⊢
  have hpos : 0 < s.table.block.cellCount ∧ (s.table.block.cell 0).word.version = 3 := by
    rw [← hs]
    decide +kernel
  have hacts : (s.run acts).1.table.block.cellCount = s.table.block.cellCount ∧
      s.changes 0 acts = 3 := by
    rw [← hs]
    decide +kernel
  have hidle : (s.run idle).1.table.block.cellCount = s.table.block.cellCount ∧
      s.changes 0 idle = 0 := by
    rw [← hs]
    decide +kernel
  have hfree : (s.table.block.cell 0).word.isLocked = false ∧
      ((s.run idle).1.table.block.cell 0).word.isLocked = false := by
    rw [← hs]
    decide +kernel
  obtain ⟨hversion, _⟩ := hcount acts hacts.1 0 hpos.1
  obtain ⟨_, hlocked, hlocked', hkept, _⟩ := hcount idle hidle.1 0 hpos.1
  have hholds : (s.run idle).1.Holds 0 ↔ s.Holds 0 := by
    rw [← hlocked, ← hlocked', hfree.1, hfree.2]
  rw [hacts.2, hpos.2] at hversion
  exact ⟨hpos.1, hacts.1, hacts.2, hversion, hidle.1, hidle.2, (hkept hidle.2).2.2 hholds⟩

end EpochTable
