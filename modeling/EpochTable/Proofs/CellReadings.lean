import EpochTable.Proofs.CellContents

namespace EpochTable

variable {c : Cell} {key value : UInt64} {limit i p : Nat} {entries : List Entry}
  {chain : List Spill} {w held : CellWord} {reading : Reading}

/-- The first entry with the key lies at position `i`. -/
def Entry.First (key value : UInt64) (entries : List Entry) (i : Nat) : Prop :=
  ∃ before after, entries = before ++ ⟨key, value⟩ :: after ∧ before.length = i ∧
    ∀ e ∈ before, e.key ≠ key

def Entry.Missing (key : UInt64) (entries : List Entry) : Prop := ∀ e ∈ entries, e.key ≠ key

/-- What a lookup that takes no lock may tell of a cell whose word stays as it is. -/
inductive Cell.Shows (c : Cell) (key : UInt64) (limit : Nat) : Reading → Prop
  | writing : c.word.isWriting = true → c.Shows key limit .torn
  | inline (i : Nat) (value : UInt64) : c.word.isWriting = false →
      Entry.First key value (c.inlined c.word) i →
      c.Shows key limit (.consistent (some value) c.word.isLocked)
  | overflow (p : Nat) (value : UInt64) : c.word.isWriting = false →
      Entry.Missing key (c.inlined c.word) → Entry.First key value c.chained p → p < limit →
      c.Shows key limit (.consistent (some value) c.word.isLocked)
  | absent : c.word.isWriting = false → Entry.Missing key (c.inlined c.word) →
      Entry.Missing key c.chained → c.chain.length ≤ limit →
      c.Shows key limit (.consistent none c.word.isLocked)
  | cutOff : c.word.isWriting = false → Entry.Missing key (c.inlined c.word) →
      (∀ p value, Entry.First key value c.chained p → limit ≤ p) → limit < c.chain.length →
      c.Shows key limit .torn

/-- What a reading tells of the key, whether or not the cell was locked. -/
def Reading.told : Reading → Option (Option UInt64)
  | .torn => none
  | .consistent value _ => some value

theorem Entry.first_cons_self : Entry.First key value (⟨key, value⟩ :: entries) 0 :=
  ⟨[], entries, rfl, rfl, List.forall_mem_nil _⟩

theorem Entry.First.cons {e : Entry} (h : Entry.First key value entries i) (he : e.key ≠ key) :
    Entry.First key value (e :: entries) (i + 1) := by
  obtain ⟨before, after, rfl, rfl, hbefore⟩ := h
  exact ⟨e :: before, after, rfl, rfl, List.forall_mem_cons.mpr ⟨he, hbefore⟩⟩

theorem Entry.first_or_missing (key : UInt64) (entries : List Entry) :
    (∃ value i, Entry.First key value entries i) ∨ Entry.Missing key entries := by
  induction entries with
  | nil => exact .inr (List.forall_mem_nil _)
  | cons e rest ih =>
    by_cases he : e.key = key
    · exact .inl ⟨e.value, 0, he ▸ Entry.first_cons_self⟩
    · rcases ih with ⟨value, i, hfirst⟩ | hmissing
      · exact .inl ⟨value, i + 1, hfirst.cons he⟩
      · exact .inr (List.forall_mem_cons.mpr ⟨he, hmissing⟩)

theorem Entry.First.lt_length (h : Entry.First key value entries i) : i < entries.length := by
  obtain ⟨before, after, rfl, rfl, _⟩ := h
  simp

theorem Entry.First.getElem? (h : Entry.First key value entries i) :
    entries[i]? = some ⟨key, value⟩ := by
  obtain ⟨before, after, rfl, rfl, _⟩ := h
  simp

theorem Entry.First.find? (h : Entry.First key value entries i) :
    entries.find? (·.key == key) = some ⟨key, value⟩ := by
  obtain ⟨before, after, rfl, _, hbefore⟩ := h
  refine List.find?_eq_some_iff_append.mpr ⟨beq_self_eq_true key, before, after, rfl, ?_⟩
  simpa using hbefore

theorem Entry.First.findIdx? (h : Entry.First key value entries i) :
    entries.findIdx? (·.key == key) = some i := by
  obtain ⟨before, after, rfl, rfl, hbefore⟩ := h
  have hnone : before.findIdx? (·.key == key) = none := by
    rw [List.findIdx?_eq_none_iff]
    simpa using hbefore
  simp [List.findIdx?_append, List.findIdx?_cons, hnone]

theorem Entry.Missing.find? (h : Entry.Missing key entries) :
    entries.find? (·.key == key) = none := by
  rw [List.find?_eq_none]
  simpa [Entry.Missing] using h

theorem Entry.Missing.findIdx? (h : Entry.Missing key entries) :
    entries.findIdx? (·.key == key) = none := by
  rw [List.findIdx?_eq_none_iff]
  simpa [Entry.Missing] using h

/-- The item is found exactly if it is among the first `limit` ones. -/
theorem Spill.search_first (h : Entry.First key value (chain.map Spill.entry) p) :
    Spill.search key chain limit = if p < limit then some (some value) else none := by
  obtain ⟨before, after, heq, rfl, hbefore⟩ := h
  induction before generalizing chain limit with
  | nil =>
    obtain ⟨spill, rest, rfl, hspill, _⟩ := List.map_eq_cons_iff.mp heq
    cases limit with
    | zero => rfl
    | succ limit => simp [Spill.search, hspill]
  | cons e before ih =>
    obtain ⟨spill, rest, rfl, rfl, hrest⟩ := List.map_eq_cons_iff.mp heq
    obtain ⟨hspill, hbefore⟩ := List.forall_mem_cons.mp hbefore
    cases limit with
    | zero => rfl
    | succ limit =>
      rw [Spill.search, if_neg hspill, ih hrest hbefore]
      simp

theorem Spill.search_missing (h : Entry.Missing key (chain.map Spill.entry)) :
    Spill.search key chain limit = if chain.length ≤ limit then some none else none := by
  induction chain generalizing limit with
  | nil => simp [Spill.search]
  | cons spill rest ih =>
    obtain ⟨hspill, hrest⟩ := List.forall_mem_cons.mp h
    cases limit with
    | zero => rfl
    | succ limit =>
      rw [Spill.search, if_neg hspill, ih hrest]
      simp

theorem Cell.read_inline (hw : c.word.isWriting = false)
    (h : Entry.First key value (c.inlined c.word) i) :
    c.read key limit = .consistent (some value) c.word.isLocked := by
  rw [Cell.read, hw, h.find?]
  rfl

theorem Cell.read_overflow (hw : c.word.isWriting = false)
    (hin : Entry.Missing key (c.inlined c.word)) (h : Entry.First key value c.chained p) :
    c.read key limit = if p < limit then .consistent (some value) c.word.isLocked else .torn := by
  rw [Cell.read, hw, hin.find?, Spill.search_first h]
  by_cases hp : p < limit <;> simp [hp]

theorem Cell.read_absent (hw : c.word.isWriting = false)
    (hin : Entry.Missing key (c.inlined c.word)) (h : Entry.Missing key c.chained) :
    c.read key limit = if c.chain.length ≤ limit then .consistent none c.word.isLocked else .torn := by
  rw [Cell.read, hw, hin.find?, Spill.search_missing h]
  by_cases hl : c.chain.length ≤ limit <;> simp [hl]

theorem Cell.shows_read (c : Cell) (key : UInt64) (limit : Nat) :
    c.Shows key limit (c.read key limit) := by
  cases hw : c.word.isWriting with
  | true =>
    rw [Cell.read, hw]
    exact .writing hw
  | false =>
    rcases Entry.first_or_missing key (c.inlined c.word) with ⟨value, i, hfirst⟩ | hin
    · rw [Cell.read_inline hw hfirst]
      exact .inline i value hw hfirst
    · rcases Entry.first_or_missing key c.chained with ⟨value, p, hfirst⟩ | hmissing
      · rw [Cell.read_overflow hw hin hfirst]
        split
        next hp => exact .overflow p value hw hin hfirst hp
        next hp =>
          have hlength := hfirst.lt_length
          rw [Cell.chained, List.length_map] at hlength
          refine .cutOff hw hin (fun p' value' hfirst' => ?_) (by omega)
          have hsame := Option.some.inj (hfirst.findIdx?.symm.trans hfirst'.findIdx?)
          omega
      · rw [Cell.read_absent hw hin hmissing]
        split
        next hl => exact .absent hw hin hmissing hl
        next hl =>
          refine .cutOff hw hin (fun p value hfirst => ?_) (by omega)
          exact absurd rfl (hmissing _ (List.mem_of_getElem? hfirst.getElem?))

theorem Cell.Shows.eq (h : c.Shows key limit reading) : c.read key limit = reading := by
  cases h with
  | writing hw => rw [Cell.read, hw]; rfl
  | inline i value hw hfirst => exact Cell.read_inline hw hfirst
  | overflow p value hw hin hfirst hp => rw [Cell.read_overflow hw hin hfirst, if_pos hp]
  | absent hw hin hmissing hl => rw [Cell.read_absent hw hin hmissing, if_pos hl]
  | cutOff hw hin hlate hl =>
    rcases Entry.first_or_missing key c.chained with ⟨value, p, hfirst⟩ | hmissing
    · rw [Cell.read_overflow hw hin hfirst, if_neg (Nat.not_lt.mpr (hlate p value hfirst))]
    · rw [Cell.read_absent hw hin hmissing, if_neg (Nat.not_le.mpr hl)]

theorem CellWord.count_of_sameContents (h : held.sameContents w = true) : held.count = w.count := by
  have heq : held.unlocked = w.unlocked := of_decide_eq_true h
  rw [← held.count_unlocked, heq, w.count_unlocked]

theorem CellWord.isWriting_of_sameContents (h : held.sameContents w = true) :
    held.isWriting = w.isWriting := by
  have heq : held.unlocked = w.unlocked := of_decide_eq_true h
  rw [← held.isWriting_unlocked, heq, w.isWriting_unlocked]

/-- What is found does not depend on whether the cell is locked. -/
theorem Cell.told_of_sameContents (h : w.sameContents c.word = true) :
    (Cell.read { c with word := w } key limit).told = (c.read key limit).told := by
  have hinlined : Cell.inlined { c with word := w } w = c.inlined c.word := by
    rw [Cell.inlined, CellWord.count_of_sameContents h, Cell.inlined]
  simp only [Cell.read, CellWord.isWriting_of_sameContents h, hinlined]
  split
  next => rfl
  next =>
    split
    next => rfl
    next => split <;> rfl

/-- The lookup under the lock goes to the end of the chain. -/
theorem Cell.read_eq_located (hcount : held.count = c.word.count) (hw : c.word.isWriting = false)
    (hl : c.chain.length ≤ limit) : ∃ value, c.read key limit = .consistent value c.word.isLocked ∧
      (c.locate held key).map c.valueAt = value.map some := by
  have hinlined : c.inlined held = c.inlined c.word := by rw [Cell.inlined, hcount, Cell.inlined]
  have hchained : c.chain.findIdx? (·.entry.key == key) = c.chained.findIdx? (·.key == key) := by
    rw [Cell.chained, List.findIdx?_map]
    rfl
  rcases Entry.first_or_missing key (c.inlined c.word) with ⟨value, i, hfirst⟩ | hin
  · refine ⟨some value, Cell.read_inline hw hfirst, ?_⟩
    have hslot : c.slots[i]? = some ⟨key, value⟩ := by
      have hi := hfirst.getElem?
      rw [Cell.inlined, List.getElem?_take] at hi
      split at hi
      · exact hi
      · cases hi
    rw [Cell.locate, hinlined, hfirst.findIdx?]
    simp [Cell.valueAt, Cell.entryAt, hslot]
  · rw [Cell.locate, hinlined, hin.findIdx?, hchained]
    rcases Entry.first_or_missing key c.chained with ⟨value, p, hfirst⟩ | hmissing
    · have hlength := hfirst.lt_length
      have hspill := hfirst.getElem?
      rw [Cell.chained, List.length_map] at hlength
      rw [Cell.chained, List.getElem?_map] at hspill
      refine ⟨some value, ?_, ?_⟩
      · rw [Cell.read_overflow hw hin hfirst, if_pos (by omega)]
      · rw [hfirst.findIdx?]
        simp [Cell.valueAt, Cell.entryAt, hspill]
    · refine ⟨none, ?_, ?_⟩
      · rw [Cell.read_absent hw hin hmissing, if_pos hl]
      · rw [hmissing.findIdx?]
        rfl

/-- Whatever the word of a cell, the key and the number of items that may be visited: a lookup without
the lock shows just what the inline entries, or else the items within the limit, tell of the key; it has
to be repeated if a writer is at work or if the chain goes on beyond the limit before the key is found.
It tells whether the cell is locked, but what it finds does not depend on that. When the limit lets it
go to the end of the chain, it finds the value in the place which a lookup under the lock locates. -/
theorem Cell.read_agrees (c : Cell) (key : UInt64) (limit : Nat) :
    (∀ reading, c.read key limit = reading ↔ c.Shows key limit reading) ∧
    (∀ w, w.sameContents c.word = true →
      (Cell.read { c with word := w } key limit).told = (c.read key limit).told) ∧
    (c.word.isWriting = false → c.chain.length ≤ limit →
      ∀ held, held.sameContents c.word = true →
        ∃ value, c.read key limit = .consistent value c.word.isLocked ∧
          (c.locate held key).map c.valueAt = value.map some) := by
  refine ⟨fun reading => ⟨?_, Cell.Shows.eq⟩, fun w => Cell.told_of_sameContents, ?_⟩
  · rintro rfl
    exact c.shows_read key limit
  · intro hw hl held hheld
    exact Cell.read_eq_located (CellWord.count_of_sameContents hheld) hw hl

/-- A locked cell with two items, of which the second one has the key: a limit of one item cuts the
lookup off, two let it find the value where the lookup under the lock does. -/
theorem Cell.read_agrees_second :
    let c : Cell := ⟨(CellWord.withOverflow (CellWord.withCount ⟨256⟩ 3) true).locked,
      [⟨0, 5⟩, ⟨1, 6⟩, ⟨2, 7⟩], [⟨⟨0, 1⟩, ⟨4, 9⟩⟩, ⟨⟨0, 0⟩, ⟨3, 8⟩⟩]⟩
    c.Shows 3 1 .torn ∧ c.Shows 3 2 (.consistent (some 8) true) ∧
      c.word.unlocked.sameContents c.word = true ∧ c.word.unlocked ≠ c.word ∧
      (Cell.read { c with word := c.word.unlocked } 3 2).told = some (some 8) ∧
      c.word.isWriting = false ∧ c.chain.length ≤ 2 ∧
      ∃ value, c.read 3 2 = .consistent value c.word.isLocked ∧
        (c.locate c.word 3).map c.valueAt = value.map some := by
  intro c
  obtain ⟨hone, _, _⟩ := c.read_agrees 3 1
  obtain ⟨htwo, htold, hlocated⟩ := c.read_agrees 3 2
  have hfound : c.read 3 2 = .consistent (some 8) true := by decide
  have hsame : c.word.unlocked.sameContents c.word = true := by decide
  refine ⟨(hone _).mp (by decide), (htwo _).mp hfound, hsame, by decide, ?_, by decide, by decide,
    hlocated (by decide) (by decide) c.word (by decide)⟩
  rw [htold _ hsame, hfound]
  rfl

end EpochTable
