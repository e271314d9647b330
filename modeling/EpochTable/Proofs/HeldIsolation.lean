import EpochTable.Proofs.SingleGrowth

namespace EpochTable

variable {t t' : Table} {c : Cell} {word : CellWord} {e : Entry} {d : Dict} {q : Query} {hold : Hold}
  {key value : UInt64} {place : Place} {hash : UInt64 → UInt64} {settings : Settings}
  {memory : Memory} {s s' : Store} {w : Ideal} {call : Call} {i j : Nat}

theorem Table.Represents.call_keeps {done : Finished} (h : t.Represents d)
    (hd : t.call call = some done) (hi : t.block.isLockedAt i = true) :
    done.table.block.cellCount = t.block.cellCount ∧
      done.table.block.cell i = t.block.cell i := by
  have honest : ∀ other, other.Honest t.hash → t.call other = some done →
      done.table.block.cellCount = t.block.cellCount ∧
        done.table.block.cell i = t.block.cell i := by
    intro other ho hother
    have hcalled := h.called ho
    rw [hother] at hcalled
    cases hcalled with
    | done _ _ _ _ _ _ _ respects _ => exact respects.kept i hi
    | held q hold t' inside free cell table _ _ _ =>
      have hne : i ≠ hold.cell := by
        rintro rfl
        rw [free] at hi
        cases hi
      rw [table]
      exact ⟨Block.cellCount_revise, Block.cell_revise_of_ne hne⟩
  rcases h.call_stray call with ⟨other, ho, hsame⟩ | hnone | ⟨result, hidle, _⟩
  · exact honest other ho (hsame ▸ hd)
  · rw [hnone] at hd
    cases hd
  · rw [hidle] at hd
    cases Option.some.inj hd
    exact ⟨rfl, rfl⟩

/-- The act is the end of this hold. -/
def Store.Act.Ends (j : Nat) : Store.Act → Prop
  | .updateHeld i _ => i = j
  | .releaseHeld i => i = j
  | _ => False

/-- What a hold stands on: the hold itself, the number of cells, and its cell. -/
structure Store.Keeps (s s' : Store) (j : Nat) (hold : Hold) : Prop where
  held : s'.hold? j = some hold
  cells : s'.table.block.cellCount = s.table.block.cellCount
  cell : s'.table.block.cell hold.cell = s.table.block.cell hold.cell

theorem Store.Simulates.keeps_setCell (h : s.Simulates hash w) (hj : s.hold? j = some hold)
    {other : Hold} (hi : s.hold? i = some other) (hne : i ≠ j) (c : Cell) :
    s.Keeps { s with table := s.table.setCell other.cell c, holds := s.holds.set i none } j hold := by
  have hcell : hold.cell ≠ other.cell := fun he => hne (h.apart j i hold other hj hi he).symm
  refine ⟨?_, Block.cellCount_revise, Block.cell_revise_of_ne hcell⟩
  rw [Store.hold?, join_getElem?_set_none, if_neg (Ne.symm hne)]
  exact hj

theorem Store.Simulates.keeps_apply (h : s.Simulates hash w) (hj : s.hold? j = some hold)
    {act : Store.Act} (hact : ¬ act.Ends j) : s.Keeps (s.apply act).1 j hold := by
  have hself : s.Keeps s j hold := ⟨hj, rfl, rfl⟩
  cases act with
  | realm act => exact ⟨hj, rfl, rfl⟩
  | setMemory memory => exact ⟨hj, rfl, rfl⟩
  | call m call =>
    cases hpin : s.realm.pinned? m with
    | none => simpa [Store.apply, hpin] using hself
    | some member =>
      cases hdone : s.table.call call with
      | none => simpa [Store.apply, hpin, hdone] using hself
      | some done =>
        obtain ⟨key, _, hg⟩ := h.guarded hj
        obtain ⟨hcells, hcell⟩ := h.table.call_keeps hdone hg.isLockedAt
        simp only [Store.apply, hpin, hdone, Option.isNone_some, Bool.false_eq_true, if_false]
        refine ⟨?_, hcells, hcell⟩
        have hlt : j < s.holds.length := by
          by_contra hge
          simp [Store.hold?, List.getElem?_eq_none (Nat.le_of_not_lt hge)] at hj
        rw [Store.hold?, List.getElem?_append_left hlt]
        exact hj
  | updateHeld i value =>
    simp only [Store.apply]
    cases hi : s.hold? i with
    | none => exact hself
    | some other => exact h.keeps_setCell hj hi hact _
  | releaseHeld i =>
    simp only [Store.apply]
    cases hi : s.hold? i with
    | none => exact hself
    | some other => exact h.keeps_setCell hj hi hact _

theorem Store.Keeps.trans {s'' : Store} (h : s.Keeps s' j hold) (h' : s'.Keeps s'' j hold) :
    s.Keeps s'' j hold :=
  ⟨h'.held, h'.cells.trans h.cells, h'.cell.trans h.cell⟩

theorem Store.Simulates.keeps_run (h : s.Simulates hash w) (hj : s.hold? j = some hold)
    {acts : List Store.Act} (hacts : ∀ act ∈ acts, ¬ act.Ends j) :
    s.Keeps (s.run acts).1 j hold := by
  induction acts generalizing s w with
  | nil => exact ⟨hj, rfl, rfl⟩
  | cons act acts ih =>
    obtain ⟨hact, hrest⟩ := List.forall_mem_cons.mp hacts
    obtain ⟨w', h'⟩ := h.apply_any act
    have hfirst := h.keeps_apply hj hact
    exact hfirst.trans (ih h' hfirst.held hrest)

theorem Table.hold_eq_some (h : t.hold q = some (some hold, t')) :
    t.lockAndLocate q
      = some (hold.cell, (t.block.cell hold.cell).seize, hold.held, some hold.place) := by
  unfold Table.hold at h
  split at h
  next => cases h
  next => cases h
  next hfound =>
    obtain ⟨rfl, _, rfl, rfl, _⟩ := Table.lockAndLocate_eq_some hfound
    cases Option.some.inj h
    exact hfound

theorem Table.Represents.hold_stray (h : t.Represents d) (hr : t.hold q = some (some hold, t')) :
    t.hold (.of q.key) = some (some hold, t') := by
  have hfound := Table.hold_eq_some hr
  have hother := h.lockAndLocate_stray hfound
  unfold Table.hold at hr ⊢
  simp only [hfound] at hr
  simp only [hother]
  exact hr

theorem Cell.entryAt_writeValue (c : Cell) (value : UInt64) (place other : Place) :
    (c.writeValue value place).entryAt other
      = if other = place then (c.entryAt other).map (·.withValue value) else c.entryAt other := by
  cases place with
  | inline p =>
    cases other with
    | inline k =>
      simp only [Cell.writeValue, Cell.entryAt, Place.inline.injEq]
      split
      next he => rw [he, List.getElem?_modify_eq, Option.map_eq_map]
      next hne => rw [List.getElem?_modify_ne _ _ (Ne.symm hne)]
    | overflow k => rfl
  | overflow p =>
    cases other with
    | inline k => rfl
    | overflow k =>
      simp only [Cell.writeValue, Cell.entryAt, Place.overflow.injEq]
      split
      next he =>
        rw [he, List.getElem?_modify_eq, Option.map_eq_map, Option.map_map, Option.map_map]
        rfl
      next hne => rw [List.getElem?_modify_ne _ _ (Ne.symm hne)]

theorem Cell.entryAt_publish (c : Cell) (held : CellWord) (place : Place) :
    (c.publish held).entryAt place = c.entryAt place := by
  cases place <;> rfl

theorem Cell.entryAt_beginWrite (c : Cell) (held : CellWord) (place : Place) :
    (c.beginWrite held).1.entryAt place = c.entryAt place := by
  cases place <;> rfl

theorem Hold.Guards.lookup (hg : hold.Guards t key) (h : t.Represents d) :
    d.lookup key = some hold.value := by
  have hi : hold.cell < t.block.cellCount := hg.index ▸ Block.indexOf_lt h.nonempty _
  have hmem := hg.lies.mem
  rw [← hg.word] at hmem
  exact (h.holds.lists _ hi).lookup_of_mem hmem

/-- The entry of a key lies where the hold says, in a cell that is as it was before, but locked. -/
structure Hold.Rests (hold : Hold) (key : UInt64) (before : Cell) (t : Table) : Prop where
  index : hold.cell = t.indexOf (.of key)
  cell : t.block.cell hold.cell = before.seize
  word : hold.held = before.seize.word
  entry : (t.block.cell hold.cell).entryAt hold.place = some ⟨key, hold.value⟩
  located : (t.block.cell hold.cell).locate hold.held key = some hold.place
  found : t.find (.of key) = some hold.value

/-- Exactly the value of the key has changed; every entry and every item stays where it was, and the
cell has the word from before it was locked, one version ahead. -/
structure Hold.Written (hold : Hold) (key value : UInt64) (before : Cell) (t t' : Table) : Prop where
  found : t'.find (.of key) = some value
  others : ∀ k, k ≠ key → t'.find (.of k) = t.find (.of k)
  entry : (t'.block.cell hold.cell).entryAt hold.place = some ⟨key, value⟩
  entries : ∀ place, place ≠ hold.place → (t'.block.cell hold.cell).entryAt place
    = (t.block.cell hold.cell).entryAt place
  items : (t'.block.cell hold.cell).items = (t.block.cell hold.cell).items
  word : (t'.block.cell hold.cell).word = ⟨before.word.raw + CellWord.versionOne⟩
  version : (t'.block.cell hold.cell).word.version = (before.word.version + 1) % 2 ^ 56
  cells : ∀ i, i ≠ hold.cell → t'.block.cell i = t.block.cell i
  pool : t'.block.pool = t.block.pool

/-- The cell is, bit for bit, what it was before it was locked, and nothing else has changed. -/
structure Hold.Returned (hold : Hold) (before : Cell) (t t' : Table) : Prop where
  found : ∀ k, t'.find (.of k) = t.find (.of k)
  cell : t'.block.cell hold.cell = before
  cells : ∀ i, i ≠ hold.cell → t'.block.cell i = t.block.cell i
  pool : t'.block.pool = t.block.pool

theorem Hold.Rests.written (hr : hold.Rests key c t) (h : t.Represents d)
    (hg : hold.Guards t key) (hfree : c.word.isLocked = false) (value : UInt64) :
    hold.Written key value c t (t.updateHeld hold value) := by
  obtain ⟨_, _, _, hnew⟩ := h.updateHeld hg value
  have hi : hold.cell < t.block.cellCount := hg.index ▸ Block.indexOf_lt h.nonempty _
  let written := (((t.block.cell hold.cell).beginWrite hold.held).1.writeValue value hold.place)
  have hcell : (t.updateHeld hold value).block.cell hold.cell = written.publish hold.held.writing :=
    Block.cell_revise_self hi
  have hentry : ∀ place, ((t.updateHeld hold value).block.cell hold.cell).entryAt place
      = if place = hold.place then ((t.block.cell hold.cell).entryAt place).map (·.withValue value)
        else (t.block.cell hold.cell).entryAt place := by
    intro place
    rw [hcell, Cell.entryAt_publish, Cell.entryAt_writeValue, Cell.entryAt_beginWrite]
  have hrest : c.word.isWriting = false := by
    have hsettled := (h.holds.proper _ hi).settled
    rwa [hr.cell, Cell.seize, CellWord.isWriting_locked] at hsettled
  have hword : ((t.updateHeld hold value).block.cell hold.cell).word
      = c.word.locked.writing.published := by
    rw [hcell, Cell.publish, hr.word]
    rfl
  refine ⟨?_, ?_, ?_, ?_, ?_, ?_, ?_, ?_, rfl⟩
  · rw [hnew.find (q := .of key) rfl]
    exact Finmap.lookup_insert _
  · intro k hk
    rw [hnew.find (q := .of k) rfl, h.find (q := .of k) rfl]
    exact Finmap.lookup_insert_of_ne _ hk
  · rw [hentry, if_pos rfl, hr.entry]
    rfl
  · intro place hplace
    rw [hentry, if_neg hplace]
  · rw [hcell]
    exact Cell.items_writeValue _ _ _
  · rw [hword, CellWord.published_writing hfree hrest]
  · rw [hword, CellWord.version_published, CellWord.version_writing, CellWord.version_locked]
  · exact fun i hne => Block.cell_revise_of_ne hne

theorem Hold.Rests.returned (hr : hold.Rests key c t) (h : t.Represents d)
    (hg : hold.Guards t key) (hfree : c.word.isLocked = false) :
    hold.Returned c t (t.releaseHeld hold) := by
  obtain ⟨_, _, _, hnew⟩ := h.releaseHeld hg
  have hi : hold.cell < t.block.cellCount := hg.index ▸ Block.indexOf_lt h.nonempty _
  have hcell : (t.releaseHeld hold).block.cell hold.cell
      = (t.block.cell hold.cell).unlock hold.held := Block.cell_revise_self hi
  refine ⟨fun k => ?_, ?_, fun i hne => Block.cell_revise_of_ne hne, rfl⟩
  · rw [hnew.find (q := .of k) rfl, h.find (q := .of k) rfl]
  · rw [hcell, hr.cell, hr.word, Cell.unlock_seize hfree]

theorem Table.Represents.hold_rests (h : t.Represents d) (hr : t.hold q = some (some hold, t')) :
    (t.block.cell hold.cell).word.isLocked = false ∧ t'.block.cellCount = t.block.cellCount ∧
      hold.Guards t' q.key ∧ hold.Rests q.key (t.block.cell hold.cell) t' := by
  obtain ⟨hi, hfree, _, hdef, hnew, hvalue, hg⟩ :=
    h.hold_present (q := .of q.key) rfl (h.hold_stray hr)
  obtain ⟨_, _, _, hword, hlocate⟩ := Table.lockAndLocate_eq_some (Table.hold_eq_some hr)
  have hcell : t'.block.cell hold.cell = (t.block.cell hold.cell).seize :=
    hdef ▸ Block.cell_revise_self hi
  refine ⟨hfree, hdef ▸ Block.cellCount_revise, hg, hg.index.symm, hcell, hword, hg.lies.entryAt,
    hcell ▸ hlocate, ?_⟩
  rw [hnew.find (q := .of q.key) rfl]
  exact hvalue

theorem Hold.Rests.congr (hr : hold.Rests key c t) (h : t'.Represents d) (hg : hold.Guards t' key)
    (hcell : t'.block.cell hold.cell = t.block.cell hold.cell) : hold.Rests key c t' := by
  refine ⟨hg.index.symm, hcell.trans hr.cell, hr.word, hcell ▸ hr.entry, hcell ▸ hr.located, ?_⟩
  rw [h.find (q := .of key) rfl]
  exact hg.lookup h

theorem Store.hold_of_answer {m : Nat}
    (h : (s.apply (.call m (.hold q))).2.1 = .result (.held (some hold))) :
    ∃ t' realm, s.table.hold q = some (some hold, t') ∧
      (s.apply (.call m (.hold q))).1 = ⟨t', realm, s.holds ++ [some hold]⟩ := by
  cases hpin : s.realm.pinned? m with
  | none => simp [Store.apply, hpin] at h
  | some member =>
    cases hhold : s.table.hold q with
    | none => simp [Store.apply, hpin, Table.call, hhold] at h
    | some found =>
      obtain ⟨answer, t'⟩ := found
      have hanswer : answer = some hold := by
        simpa [Store.apply, hpin, Table.call, hhold] using h
      subst hanswer
      exact ⟨t', _, rfl, by simp [Store.apply, hpin, Table.call, hhold, CallResult.hold?]; rfl⟩

/-- Once an entry is held, and as long as the hold has not ended, whatever else is asked, no two held
entries share a cell, and the block is not replaced; the entry stays in its place with its value in a
cell that is as it was but for the lock; writing it changes exactly this value and the version, and
giving it back restores the cell. -/
theorem Store.held_isolated {s₀ : Store} (hmake : Store.make settings hash memory = .ok s₀)
    (before acts : List Store.Act) :
    let s := (s₀.run before).1
    ∀ m q hold, (s.apply (.call m (.hold q))).2.1 = .result (.held (some hold)) →
      let j := s.holds.length
      (∀ act ∈ acts, ¬ act.Ends j) →
      let s' := ((s.apply (.call m (.hold q))).1.run acts).1
      let c := s.table.block.cell hold.cell
      (∀ i k one other, s'.hold? i = some one → s'.hold? k = some other → one.cell = other.cell →
        i = k) ∧
      s'.hold? j = some hold ∧ s'.table.block.cellCount = s.table.block.cellCount ∧
      c.word.isLocked = false ∧ hold.Rests q.key c s'.table ∧
      (∀ value, hold.Written q.key value c s'.table (s'.apply (.updateHeld j value)).1.table) ∧
      hold.Returned c s'.table (s'.apply (.releaseHeld j)).1.table := by
  intro s m q hold hanswer j hacts s' c
  obtain ⟨w, h, hs⟩ := Store.simulates_run hmake before
  change s.Simulates hash w at h
  obtain ⟨t, realm, hhold, htaken⟩ := Store.hold_of_answer hanswer
  obtain ⟨hfree, hcount, hg, hrests⟩ := h.table.hold_rests hhold
  obtain ⟨w₁, h₁⟩ := h.apply_any (.call m (.hold q))
  obtain ⟨w₂, h₂, _⟩ := h₁.run_any (h.sized_apply hs _) acts
  have hj : (s.apply (.call m (.hold q))).1.hold? j = some hold := by
    rw [htaken, Store.hold?, join_getElem?_concat, if_pos rfl]
  have hkeeps : (s.apply (.call m (.hold q))).1.Keeps s' j hold := h₁.keeps_run hj hacts
  have hcells := hkeeps.cells
  have hcell := hkeeps.cell
  rw [htaken] at h₁ hcells hcell
  have hhash : s'.table.hash = t.hash := h₂.hash.trans h₁.hash.symm
  have hg' : hold.Guards s'.table q.key := hg.congr hhash hcells hcell
  have hrests' : hold.Rests q.key c s'.table := hrests.congr h₂.table hg' hcell
  refine ⟨h₂.apart, hkeeps.held, hcells.trans hcount, hfree, hrests', fun value => ?_, ?_⟩
  · have htable : (s'.apply (.updateHeld j value)).1.table = s'.table.updateHeld hold value := by
      simp only [Store.apply, hkeeps.held]
    rw [htable]
    exact hrests'.written h₂.table hg' hfree value
  · have htable : (s'.apply (.releaseHeld j)).1.table = s'.table.releaseHeld hold := by
      simp only [Store.apply, hkeeps.held]
    rw [htable]
    exact hrests'.returned h₂.table hg' hfree

/-- The entry of six is held in an item while the other cell takes and returns an item, another entry is
held and written, and a key of the same cell has to wait. -/
theorem Store.held_isolated_item :
    let before : List Store.Act := [.realm .register, .realm (.move 0 .acquire)]
      ++ [0, 2, 4, 6, 8, 1, 3].map fun k => .call 0 (.insert ⟨k, 10 * k⟩)
    let acts : List Store.Act := [.call 0 (.insert ⟨5, 50⟩), .call 0 (.insert ⟨7, 70⟩),
      .call 0 (.hold (.of 3)), .call 0 (.insert ⟨10, 1⟩), .call 0 .len, .updateHeld 1 33,
      .call 0 (.remove (.of 1))]
    let hold : Hold := ⟨0, ⟨1503⟩, .overflow 1, 60⟩
    ∃ s₀, Store.make ⟨2, 1, 64, .standard, 128⟩ id (fun _ => true) = .ok s₀ ∧
      let s := (s₀.run before).1
      (s.apply (.call 0 (.hold (.of 6)))).2.1 = .result (.held (some hold)) ∧
      (∀ act ∈ acts, ¬ act.Ends s.holds.length) ∧
      let s' := ((s.apply (.call 0 (.hold (.of 6)))).1.run acts).1
      hold.Rests 6 (s.table.block.cell 0) s'.table ∧
      hold.Written 6 61 (s.table.block.cell 0) s'.table
        (s'.apply (.updateHeld s.holds.length 61)).1.table ∧
      hold.Returned (s.table.block.cell 0) s'.table
        (s'.apply (.releaseHeld s.holds.length)).1.table := by
  intro before acts hold
  refine ⟨_, rfl, ?_⟩
  have hisolated := @Store.held_isolated id ⟨2, 1, 64, .standard, 128⟩ (fun _ => true) _ rfl before
    acts 0 (.of 6) hold
  generalize hs : (Store.run _ before).1 = s at hisolated ⊢
  have hanswer : (s.apply (.call 0 (.hold (.of 6)))).2.1 = .result (.held (some hold)) := by
    rw [← hs]
    decide +kernel
  have hholds : s.holds.length = 0 := by
    rw [← hs]
    decide +kernel
  have hacts : ∀ act ∈ acts, ¬ act.Ends s.holds.length := by
    rw [hholds]
    simp [acts, Store.Act.Ends]
  obtain ⟨_, _, _, _, hrests, hwritten, hreturned⟩ := hisolated hanswer hacts
  exact ⟨hanswer, hacts, hrests, hwritten 61, hreturned⟩

end EpochTable
