import EpochTable.Cell
import EpochTable.Proofs.Lists
import EpochTable.Proofs.StateWord

namespace EpochTable

variable {c c' : Cell} {w w' : CellWord} {e : Entry} {key : UInt64} {place : Place}

/-- The word counts slots that were written, items are used only when all slots are full, and the
flags of the word tell the truth. -/
structure Cell.Tidy (c : Cell) (w : CellWord) : Prop where
  written : w.count ≤ c.slots.length
  full : c.chain ≠ [] → w.count = inlineSlots
  occupied : w.occupied = CellWord.bitmap w.count
  overflow : w.hasOverflow = !c.chain.isEmpty

/-- The word counts slots that were written, which are the lowest ones. -/
structure Cell.Dense (c : Cell) (w : CellWord) : Prop where
  written : w.count ≤ c.slots.length
  occupied : w.occupied = CellWord.bitmap w.count

def Cell.Flagged (c : Cell) (w : CellWord) : Prop := w.hasOverflow = !c.chain.isEmpty

structure Cell.Proper (c : Cell) : Prop where
  tidy : c.Tidy c.word
  settled : c.word.isWriting = false

def Cell.Lies (c : Cell) (w : CellWord) (e : Entry) : Place → Prop
  | .inline i => (c.inlined w)[i]? = some e
  | .overflow p => c.chained[p]? = some e

def Cell.items (c : Cell) : List Item := c.chain.map Spill.item

/-- The cells differ at most in the lock, the announcement and the version of their words. -/
structure Cell.Agrees (c : Cell) (w : CellWord) (c' : Cell) (w' : CellWord) : Prop where
  slots : c'.slots = c.slots
  chain : c'.chain = c.chain
  count : w'.count = w.count
  occupied : w'.occupied = w.occupied
  overflow : w'.hasOverflow = w.hasOverflow

theorem Cell.Tidy.dense (h : c.Tidy w) : c.Dense w := ⟨h.written, h.occupied⟩

theorem Cell.Dense.tidy (h : c.Dense w) (hflag : c.Flagged w)
    (hfull : c.chain ≠ [] → w.count = inlineSlots) : c.Tidy w :=
  ⟨h.written, hfull, h.occupied, hflag⟩

theorem Cell.Agrees.trans {c'' : Cell} {w'' : CellWord} (h : c.Agrees w c' w')
    (h' : c'.Agrees w' c'' w'') : c.Agrees w c'' w'' :=
  ⟨h'.slots.trans h.slots, h'.chain.trans h.chain, h'.count.trans h.count,
    h'.occupied.trans h.occupied, h'.overflow.trans h.overflow⟩

theorem Cell.Agrees.entries (h : c.Agrees w c' w') : c'.entries w' = c.entries w := by
  rw [Cell.entries, Cell.inlined, Cell.chained, h.slots, h.chain, h.count]
  rfl

theorem Cell.Agrees.items (h : c.Agrees w c' w') : c'.items = c.items := by
  rw [Cell.items, h.chain, Cell.items]

theorem Cell.Agrees.dense (h : c.Agrees w c' w') (hd : c.Dense w) : c'.Dense w' := by
  refine ⟨?_, ?_⟩
  · rw [h.count, h.slots]
    exact hd.written
  · rw [h.occupied, h.count]
    exact hd.occupied

theorem Cell.Agrees.flagged (h : c.Agrees w c' w') (hflag : c.Flagged w) : c'.Flagged w' := by
  rw [Cell.Flagged, h.overflow, h.chain]
  exact hflag

theorem Cell.Agrees.tidy (h : c.Agrees w c' w') (ht : c.Tidy w) : c'.Tidy w' := by
  refine (h.dense ht.dense).tidy (h.flagged ht.overflow) ?_
  rw [h.count, h.chain]
  exact ht.full

theorem Cell.Agrees.lies (h : c.Agrees w c' w') (hl : c.Lies w e place) : c'.Lies w' e place := by
  cases place with
  | inline i =>
    rw [Cell.Lies, Cell.inlined, h.slots, h.count]
    exact hl
  | overflow p =>
    rw [Cell.Lies, Cell.chained, h.chain]
    exact hl

theorem Cell.agrees_seize (c : Cell) : c.Agrees c.word c.seize c.seize.word :=
  ⟨rfl, rfl, c.word.count_locked, c.word.occupied_locked, c.word.hasOverflow_locked⟩

theorem Cell.agrees_beginWrite (c : Cell) (w : CellWord) :
    c.Agrees w (c.beginWrite w).1 (c.beginWrite w).2 :=
  ⟨rfl, rfl, w.count_writing, w.occupied_writing, w.hasOverflow_writing⟩

theorem Cell.agrees_publish (c : Cell) (w : CellWord) :
    c.Agrees w (c.publish w) (c.publish w).word :=
  ⟨rfl, rfl, w.count_published, w.occupied_published, w.hasOverflow_published⟩

theorem Cell.agrees_word (c : Cell) (w : CellWord) : c.Agrees w { c with word := w } w :=
  ⟨rfl, rfl, rfl, rfl, rfl⟩

theorem Cell.proper_empty : Cell.empty.Proper := by
  refine ⟨⟨?_, ?_, ?_, ?_⟩, ?_⟩
  · decide
  · exact fun h => absurd rfl h
  · decide
  · decide
  · decide

theorem Cell.length_inlined (h : c.Dense w) : (c.inlined w).length = w.count := by
  rw [Cell.inlined, List.length_take, Nat.min_eq_left h.written]

theorem Cell.length_entries (h : c.Tidy w) : (c.entries w).length = w.count + c.chain.length := by
  rw [Cell.entries, List.length_append, Cell.length_inlined h.dense, Cell.chained, List.length_map]

/-- The slots of a tidy cell are filled before its chain. -/
theorem Cell.Tidy.count_eq (h : c.Tidy w) : w.count = min inlineSlots (c.entries w).length := by
  have hle := w.count_le
  rw [Cell.length_entries h]
  by_cases hchain : c.chain = []
  · rw [hchain, List.length_nil]
    omega
  · have hfull := h.full hchain
    omega

theorem Cell.Tidy.length_chain (h : c.Tidy w) :
    c.chain.length = (c.entries w).length - inlineSlots := by
  have hcount := h.count_eq
  rw [Cell.length_entries h] at hcount ⊢
  omega

theorem Cell.locate_eq_some (h : c.locate w key = some place) :
    ∃ e, c.Lies w e place ∧ e.key = key := by
  unfold Cell.locate at h
  split at h
  next i hi =>
    obtain ⟨hlt, hkey, _⟩ := List.findIdx?_eq_some_iff_getElem.mp hi
    cases Option.some.inj h
    exact ⟨(c.inlined w)[i], List.getElem?_eq_getElem hlt, beq_iff_eq.mp hkey⟩
  next =>
    obtain ⟨p, hp, rfl⟩ := Option.map_eq_some_iff.mp h
    obtain ⟨hlt, hkey, _⟩ := List.findIdx?_eq_some_iff_getElem.mp hp
    refine ⟨c.chain[p].entry, ?_, beq_iff_eq.mp hkey⟩
    rw [Cell.Lies, Cell.chained, List.getElem?_map, List.getElem?_eq_getElem hlt, Option.map_some]

theorem Cell.locate_eq_none (h : c.locate w key = none) : ∀ e ∈ c.entries w, e.key ≠ key := by
  unfold Cell.locate at h
  split at h
  next => cases h
  next hi =>
    rw [Option.map_eq_none_iff] at h
    intro e he hk
    rcases List.mem_append.mp he with hin | hch
    · have hne := List.findIdx?_eq_none_iff.mp hi e hin
      simp [hk] at hne
    · obtain ⟨spill, hs, rfl⟩ := List.mem_map.mp hch
      have hne := List.findIdx?_eq_none_iff.mp h spill hs
      simp [hk] at hne

theorem Cell.Lies.mem (h : c.Lies w e place) : e ∈ c.entries w := by
  cases place with
  | inline i => exact List.mem_append_left _ (List.mem_of_getElem? h)
  | overflow p => exact List.mem_append_right _ (List.mem_of_getElem? h)

theorem Cell.Lies.slot {i : Nat} (h : c.Lies w e (.inline i)) :
    i < w.count ∧ c.slots[i]? = some e := by
  have hlies : (c.slots.take w.count)[i]? = some e := h
  rw [List.getElem?_take] at hlies
  split at hlies
  next hlt => exact ⟨hlt, hlies⟩
  next => cases hlies

theorem Cell.Lies.spill {p : Nat} (h : c.Lies w e (.overflow p)) :
    ∃ spill, c.chain[p]? = some spill ∧ spill.entry = e := by
  simpa [Cell.Lies, Cell.chained] using h

theorem Cell.Lies.entryAt (h : c.Lies w e place) : c.entryAt place = some e := by
  cases place with
  | inline i => exact h.slot.2
  | overflow p =>
    obtain ⟨spill, hspill, rfl⟩ := h.spill
    simp [Cell.entryAt, hspill]

theorem Cell.valueAt_of_lies (h : c.Lies w e place) : c.valueAt place = some e.value := by
  rw [Cell.valueAt, h.entryAt]
  rfl

theorem Cell.Tidy.publish (h : c.Tidy w) : (c.publish w).Proper :=
  ⟨(c.agrees_publish w).tidy h, w.isWriting_published⟩

theorem Cell.Proper.seize (h : c.Proper) : c.seize.Proper :=
  ⟨c.agrees_seize.tidy h.tidy, c.word.isWriting_locked.trans h.settled⟩

theorem Cell.unlock_seize (h : c.word.isLocked = false) : c.seize.unlock c.seize.word = c := by
  cases c
  exact congrArg (Cell.mk · _ _) (CellWord.unlocked_locked h)

theorem Cell.forceUnlock_seize (h : c.word.isLocked = false) : c.seize.forceUnlock = c :=
  Cell.unlock_seize h

theorem Cell.chain_fillSlot (c : Cell) (i : Nat) (e : Entry) : (c.fillSlot i e).chain = c.chain := by
  unfold Cell.fillSlot
  split <;> rfl

theorem Cell.entries_pushInline (h : c.Dense w) (hc : w.count < inlineSlots) (e : Entry) :
    (c.pushInline w e).1.entries (c.pushInline w e).2 = c.inlined w ++ e :: c.chained := by
  have hcount := w.count_withCount (n := w.count + 1) hc
  have hwritten := h.written
  have hinlined : (c.fillSlot w.count e).slots.take (w.count + 1) = c.slots.take w.count ++ [e] := by
    unfold Cell.fillSlot
    split
    next hlt => simp [List.take_add_one, List.getElem?_set_self hlt, List.take_set_of_le]
    next hge =>
      have heq : w.count = c.slots.length := by omega
      rw [heq, List.take_length, List.take_of_length_le (by simp)]
  simp only [Cell.pushInline, Cell.entries, Cell.inlined, Cell.chained, hcount, hinlined,
    Cell.chain_fillSlot, List.append_assoc, List.singleton_append]

theorem Cell.Dense.pushInline (h : c.Dense w) (hc : w.count < inlineSlots) (e : Entry) :
    (c.pushInline w e).1.Dense (c.pushInline w e).2 := by
  have hwritten := h.written
  refine ⟨?_, ?_⟩
  · simp only [Cell.pushInline, w.count_withCount (n := w.count + 1) hc]
    unfold Cell.fillSlot
    split
    · simpa using by omega
    · simpa using hwritten
  · simp only [Cell.pushInline, w.count_withCount (n := w.count + 1) hc,
      w.occupied_withCount (n := w.count + 1) hc]

theorem Cell.Flagged.pushInline (h : c.Flagged w) (hc : w.count < inlineSlots) (e : Entry) :
    (c.pushInline w e).1.Flagged (c.pushInline w e).2 := by
  simp only [Cell.pushInline, Cell.Flagged, Cell.chain_fillSlot,
    w.hasOverflow_withCount (n := w.count + 1) hc]
  exact h

theorem Cell.Tidy.pushInline (h : c.Tidy w) (hc : w.count < inlineSlots) (e : Entry) :
    (c.pushInline w e).1.Tidy (c.pushInline w e).2 := by
  refine (h.dense.pushInline hc e).tidy (Cell.Flagged.pushInline h.overflow hc e) fun hne => ?_
  have hfull := h.full (by simpa only [Cell.pushInline, Cell.chain_fillSlot] using hne)
  omega

theorem Cell.items_pushInline (c : Cell) (w : CellWord) (e : Entry) :
    (c.pushInline w e).1.items = c.items := by
  simp only [Cell.pushInline, Cell.items, Cell.chain_fillSlot]

theorem Cell.entries_pushOverflow (c : Cell) (w : CellWord) (item : Item) (e : Entry) :
    (c.pushOverflow w item e).1.entries (c.pushOverflow w item e).2
      = c.inlined w ++ e :: c.chained := by
  simp [Cell.pushOverflow, Cell.entries, Cell.inlined, Cell.chained]

theorem Cell.Dense.pushOverflow (h : c.Dense w) (item : Item) (e : Entry) :
    (c.pushOverflow w item e).1.Dense (c.pushOverflow w item e).2 := by
  refine ⟨?_, ?_⟩
  · simpa [Cell.pushOverflow] using h.written
  · simpa [Cell.pushOverflow] using h.occupied

theorem Cell.flagged_pushOverflow (c : Cell) (w : CellWord) (item : Item) (e : Entry) :
    (c.pushOverflow w item e).1.Flagged (c.pushOverflow w item e).2 := by
  simp [Cell.pushOverflow, Cell.Flagged]

theorem Cell.Tidy.pushOverflow (h : c.Tidy w) (hc : w.count = inlineSlots) (item : Item) (e : Entry) :
    (c.pushOverflow w item e).1.Tidy (c.pushOverflow w item e).2 := by
  refine (h.dense.pushOverflow item e).tidy (c.flagged_pushOverflow w item e) fun _ => ?_
  simpa [Cell.pushOverflow] using hc

/-- What is left when an entry is taken out of a tidy cell: all other entries, in a tidy cell. -/
structure Cell.Removed (c : Cell) (w : CellWord) (e : Entry) (c' : Cell) (w' : CellWord)
    (freed : Option Item) : Prop where
  tidy : c'.Tidy w'
  entries : (c.entries w).Perm (e :: c'.entries w')
  items : c.items.Perm (freed.toList ++ c'.items)

/-- Whatever the place, the item that is released is the only one that leaves the chain. -/
theorem Cell.items_remove (c : Cell) (held : CellWord) (place : Place) :
    c.items.Perm ((c.remove held place).2.2.toList ++ (c.remove held place).1.items) := by
  cases place with
  | inline i =>
    cases hchain : c.chain with
    | nil => simp [Cell.remove, Cell.items, hchain]
    | cons head rest => simp [Cell.remove, Cell.items, hchain]
  | overflow p =>
    cases hspill : c.chain[p]? with
    | none =>
      have hsame : c.chain.eraseIdx p = c.chain :=
        List.eraseIdx_of_length_le (List.getElem?_eq_none_iff.mp hspill)
      simp [Cell.remove, Cell.items, hspill, hsame]
    | some spill =>
      have hperm := (eraseIdx_perm_of_getElem? hspill).map Spill.item
      simpa [Cell.remove, Cell.items, hspill] using hperm

/-- What is left when an entry is taken out of a dense cell: all other entries, in a dense cell. If there
was a chain only because the slots were full, this is still so. -/
structure Cell.Drops (c : Cell) (w : CellWord) (e : Entry) (c' : Cell) (w' : CellWord) : Prop where
  dense : c'.Dense w'
  flagged : c.Flagged w → c'.Flagged w'
  full : (c.chain ≠ [] → w.count = inlineSlots) → c'.chain ≠ [] → w'.count = inlineSlots
  entries : (c.entries w).Perm (e :: c'.entries w')

/-- Without a chain the last inline entry fills the hole. -/
theorem Cell.drops_last {i : Nat} (h : c.Dense w) (hl : c.Lies w e (.inline i))
    (hchain : c.chain = []) :
    c.Drops w e (c.remove w (.inline i)).1 (c.remove w (.inline i)).2.1 := by
  obtain ⟨hi, hslot⟩ := hl.slot
  have hwritten := h.written
  have hle := w.count_le
  have hlast : w.count - 1 ≤ inlineSlots := by omega
  obtain ⟨last, hlastslot⟩ : ∃ last, c.slots[w.count - 1]? = some last :=
    ⟨_, List.getElem?_eq_getElem (by omega)⟩
  have hdef : c.remove w (.inline i)
      = ({ c with slots := c.slots.set i last }, w.withCount (w.count - 1), none) := by
    simp only [Cell.remove, hchain, hlastslot]
  rw [hdef]
  have hcount := w.count_withCount hlast
  refine ⟨⟨?_, ?_⟩, fun hflag => ?_, fun _ hne => absurd hchain hne, ?_⟩
  · rw [hcount, List.length_set]
    omega
  · rw [w.occupied_withCount hlast, hcount]
  · rw [Cell.Flagged, w.hasOverflow_withCount hlast]
    exact hflag
  · have htake : c.slots.take w.count = c.slots.take (w.count - 1) ++ [last] := by
      have hsucc := List.take_add_one (l := c.slots) (i := w.count - 1)
      rw [hlastslot, Nat.sub_add_cancel (by omega)] at hsucc
      exact hsucc
    simp only [Cell.entries, Cell.inlined, Cell.chained, hchain, hcount, List.map_nil,
      List.append_nil, List.take_set]
    rw [htake]
    by_cases he : i = w.count - 1
    · subst he
      have hsame : e = last := Option.some.inj (hslot.symm.trans hlastslot)
      rw [List.set_eq_of_length_le (by simp), hsame]
      exact List.perm_append_singleton _ _
    · have hin : (c.slots.take (w.count - 1))[i]? = some e := by
        rw [List.getElem?_take, if_pos (by omega)]
        exact hslot
      exact (List.perm_append_singleton _ _).trans (set_perm_of_getElem? hin last).symm

/-- With a chain its head fills the hole, and as many slots are in use as before. -/
theorem Cell.drops_head {i : Nat} (h : c.Dense w) (hl : c.Lies w e (.inline i)) {head : Spill}
    {rest : List Spill} (hchain : c.chain = head :: rest) :
    c.Drops w e (c.remove w (.inline i)).1 (c.remove w (.inline i)).2.1 := by
  have hdef : c.remove w (.inline i) = ({ c with
      slots := c.slots.set i head.entry, chain := rest }, w.withOverflow (!rest.isEmpty),
      some head.item) := by
    simp only [Cell.remove, hchain]
  rw [hdef]
  refine ⟨⟨?_, ?_⟩, fun _ => CellWord.hasOverflow_withOverflow _ _, fun hfull _ => ?_, ?_⟩
  · rw [CellWord.count_withOverflow, List.length_set]
    exact h.written
  · rw [CellWord.occupied_withOverflow, CellWord.count_withOverflow]
    exact h.occupied
  · rw [CellWord.count_withOverflow]
    exact hfull (by simp [hchain])
  · simp only [Cell.entries, Cell.inlined, Cell.chained, hchain, CellWord.count_withOverflow,
      List.take_set, List.map_cons]
    have hin : (c.slots.take w.count)[i]? = some e := hl
    refine List.perm_middle.trans ?_
    rw [← List.cons_append, ← List.cons_append]
    exact (set_perm_of_getElem? hin head.entry).symm.append_right _

/-- An item is unlinked wherever it is in the chain. -/
theorem Cell.drops_spill {p : Nat} (h : c.Dense w) (hl : c.Lies w e (.overflow p)) :
    c.Drops w e (c.remove w (.overflow p)).1 (c.remove w (.overflow p)).2.1 := by
  obtain ⟨spill, hs, rfl⟩ := hl.spill
  have hperm := eraseIdx_perm_of_getElem? hs
  have hdef : c.remove w (.overflow p) = ({ c with chain := c.chain.eraseIdx p },
      w.withOverflow (!(c.chain.eraseIdx p).isEmpty), some spill.item) := by
    simp only [Cell.remove, hs, Option.map_some]
  rw [hdef]
  refine ⟨⟨?_, ?_⟩, fun _ => CellWord.hasOverflow_withOverflow _ _, fun hfull _ => ?_, ?_⟩
  · rw [CellWord.count_withOverflow]
    exact h.written
  · rw [CellWord.occupied_withOverflow, CellWord.count_withOverflow]
    exact h.occupied
  · rw [CellWord.count_withOverflow]
    refine hfull fun hnil => ?_
    simp [hnil] at hs
  · simp only [Cell.entries, Cell.inlined, Cell.chained, CellWord.count_withOverflow]
    refine List.Perm.trans ?_ List.perm_middle
    exact (hperm.map Spill.entry).append_left _

theorem Cell.drops (h : c.Dense w) (hl : c.Lies w e place) :
    c.Drops w e (c.remove w place).1 (c.remove w place).2.1 := by
  cases place with
  | inline i =>
    cases hchain : c.chain with
    | nil => exact Cell.drops_last h hl hchain
    | cons head rest => exact Cell.drops_head h hl hchain
  | overflow p => exact Cell.drops_spill h hl

theorem Cell.removed (h : c.Tidy w) (hl : c.Lies w e place) : c.Removed w e
    (c.remove w place).1 (c.remove w place).2.1 (c.remove w place).2.2 := by
  have hdrops := Cell.drops h.dense hl
  exact ⟨hdrops.dense.tidy (hdrops.flagged h.overflow) (hdrops.full h.full), hdrops.entries,
    c.items_remove w place⟩

theorem Cell.slots_writeValue (c : Cell) (value : UInt64) (place : Place) :
    (c.writeValue value place).slots.length = c.slots.length := by
  cases place with
  | inline i => exact List.length_modify ..
  | overflow p => rfl

theorem Cell.chain_writeValue (c : Cell) (value : UInt64) (place : Place) :
    (c.writeValue value place).chain.length = c.chain.length := by
  cases place with
  | inline i => rfl
  | overflow p => exact List.length_modify ..

theorem Cell.Dense.writeValue (h : c.Dense w) (value : UInt64) (place : Place) :
    (c.writeValue value place).Dense w := by
  refine ⟨?_, h.occupied⟩
  rw [Cell.slots_writeValue]
  exact h.written

theorem Cell.Flagged.writeValue (h : c.Flagged w) (value : UInt64) (place : Place) :
    (c.writeValue value place).Flagged w := by
  have hsame : (c.writeValue value place).chain.isEmpty = c.chain.isEmpty := by
    rw [Bool.eq_iff_iff, List.isEmpty_iff_length_eq_zero, List.isEmpty_iff_length_eq_zero,
      Cell.chain_writeValue]
  rw [Cell.Flagged, hsame]
  exact h

theorem Cell.Tidy.writeValue (h : c.Tidy w) (value : UInt64) (place : Place) :
    (c.writeValue value place).Tidy w := by
  refine (h.dense.writeValue value place).tidy (Cell.Flagged.writeValue h.overflow value place) ?_
  intro hne
  refine h.full fun hnil => hne ?_
  rw [← List.length_eq_zero_iff, Cell.chain_writeValue, hnil, List.length_nil]

theorem Cell.items_writeValue (c : Cell) (value : UInt64) (place : Place) :
    (c.writeValue value place).items = c.items := by
  cases place with
  | inline i => rfl
  | overflow p =>
    apply List.ext_getElem?
    intro k
    simp only [Cell.writeValue, Cell.items, List.getElem?_map, List.getElem?_modify]
    cases c.chain[k]? with
    | none => rfl
    | some spill => by_cases hk : p = k <;> simp [hk, Spill.withValue]

theorem Cell.perm_writeValue (hl : c.Lies w e place) (value : UInt64) :
    (e :: (c.writeValue value place).entries w).Perm (e.withValue value :: c.entries w) := by
  cases place with
  | inline i =>
    have hin : (c.slots.take w.count)[i]? = some e := hl
    have htake : (c.slots.modify i (·.withValue value)).take w.count
        = (c.slots.take w.count).modify i (·.withValue value) := by
      apply List.ext_getElem?
      intro k
      simp only [List.getElem?_take, List.getElem?_modify]
      split <;> simp
    simp only [Cell.entries, Cell.inlined, Cell.chained, Cell.writeValue, htake]
    rw [← List.cons_append, ← List.cons_append]
    exact (modify_perm_of_getElem? hin _).append_right _
  | overflow p =>
    have hmap : (c.chain.modify p (·.withValue value)).map Spill.entry
        = (c.chain.map Spill.entry).modify p (·.withValue value) := by
      apply List.ext_getElem?
      intro k
      simp only [List.getElem?_map, List.getElem?_modify]
      cases c.chain[k]? with
      | none => rfl
      | some spill => by_cases hk : p = k <;> simp [hk, Spill.withValue]
    simp only [Cell.entries, Cell.inlined, Cell.chained, Cell.writeValue, hmap]
    refine (List.perm_middle.symm.trans ?_).trans List.perm_middle
    exact (modify_perm_of_getElem? hl _).append_left _

theorem Spill.search_eq {chain : List Spill} {limit : Nat} (h : chain.length ≤ limit) :
    Spill.search key chain limit
      = some (((chain.map Spill.entry).find? (·.key == key)).map Entry.value) := by
  induction chain generalizing limit with
  | nil => rfl
  | cons spill rest ih =>
    cases limit with
    | zero => exact absurd h (Nat.not_succ_le_zero _)
    | succ limit =>
      unfold Spill.search
      by_cases hk : spill.entry.key = key
      · simp [hk]
      · rw [if_neg hk, ih (Nat.le_of_succ_le_succ h)]
        simp [hk]

/-- A lookup without the lock sees the entries, if no mutation is under way and the limit lets it go
to the end of the chain. -/
theorem Cell.read_eq {limit : Nat} (h : c.Proper) (hl : c.chain.length ≤ limit) :
    c.read key limit
      = .consistent (((c.entries c.word).find? (·.key == key)).map Entry.value) c.word.isLocked := by
  rw [Cell.read, h.settled, Spill.search_eq hl, Cell.entries, List.find?_append]
  cases hin : (c.inlined c.word).find? (·.key == key) with
  | some e => simp
  | none => simp [Cell.chained]

end EpochTable
