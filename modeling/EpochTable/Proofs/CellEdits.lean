import EpochTable.Proofs.CellContents
import Mathlib

namespace EpochTable

/-- One change of a cell. The place that `writeValue` and `remove` work on is that of the key, located
just before. -/
inductive Edit where
  | pushInline (entry : Entry)
  | pushOverflow (item : Item) (entry : Entry)
  | writeValue (key value : UInt64)
  | remove (key : UInt64)
  deriving DecidableEq, Repr

/-- A cell that is being changed, and the word its writer holds. -/
structure Draft where
  cell : Cell
  held : CellWord
  deriving DecidableEq, Repr

def Cell.begun (c : Cell) (held : CellWord) : Draft :=
  ⟨(c.beginWrite held).1, (c.beginWrite held).2⟩

def Edit.key : Edit → UInt64
  | .pushInline entry => entry.key
  | .pushOverflow _ entry => entry.key
  | .writeValue key _ => key
  | .remove key => key

/-- The item that is linked. -/
def Edit.item : Edit → Option Item
  | .pushInline _ => none
  | .pushOverflow item _ => some item
  | .writeValue _ _ => none
  | .remove _ => none

/-- The next draft and the item that is released. An edit has to find its slot, its item or its key
as it needs them, or else there is no next draft. -/
def Draft.edit (d : Draft) : Edit → Option (Draft × Option Item)
  | .pushInline entry =>
    if d.held.count < inlineSlots then
      let (c, held) := d.cell.pushInline d.held entry
      some (⟨c, held⟩, none)
    else none
  | .pushOverflow item entry =>
    if item ∈ d.cell.items then none
    else
      let (c, held) := d.cell.pushOverflow d.held item entry
      some (⟨c, held⟩, none)
  | .writeValue key value =>
    (d.cell.locate d.held key).map fun place => (⟨d.cell.writeValue value place, d.held⟩, none)
  | .remove key =>
    (d.cell.locate d.held key).map fun place =>
      let (c, held, freed) := d.cell.remove d.held place
      (⟨c, held⟩, freed)

/-- Edits one after the other, with all items that they release. -/
def Draft.edits (d : Draft) : List Edit → Option (Draft × List Item)
  | [] => some (d, [])
  | edit :: rest => do
    let (d', freed) ← d.edit edit
    let (d'', more) ← d'.edits rest
    some (d'', freed.toList ++ more)

def Draft.contents (d : Draft) : Multiset Entry := d.cell.entries d.held

/-- The cell with the word it gets in the end. -/
def Draft.published (d : Draft) : Draft :=
  ⟨d.cell.publish d.held, (d.cell.publish d.held).word⟩

/-- The same on a multiset, where there are no slots, no items and no word. -/
inductive Edit.Acts : Edit → Multiset Entry → Multiset Entry → Prop
  | pushInline {m : Multiset Entry} (e : Entry) : Acts (.pushInline e) m (e ::ₘ m)
  | pushOverflow {m : Multiset Entry} (item : Item) (e : Entry) :
    Acts (.pushOverflow item e) m (e ::ₘ m)
  | writeValue {m : Multiset Entry} {e : Entry} (mem : e ∈ m) (value : UInt64) :
    Acts (.writeValue e.key value) m (e.withValue value ::ₘ m.erase e)
  | remove {m : Multiset Entry} {e : Entry} (mem : e ∈ m) : Acts (.remove e.key) m (m.erase e)

inductive Edit.ActAll : List Edit → Multiset Entry → Multiset Entry → Prop
  | nil {m : Multiset Entry} : ActAll [] m m
  | cons {edit : Edit} {rest : List Edit} {m m' m'' : Multiset Entry} (acts : edit.Acts m m')
    (others : ActAll rest m' m'') : ActAll (edit :: rest) m m''

/-- An item was linked or released. -/
def Edit.Relink (edits : List Edit) (freed : List Item) : Prop :=
  (∃ edit ∈ edits, edit.item ≠ none) ∨ freed ≠ []

/-- The place of a key, and the entry there. -/
structure Draft.Finds (d : Draft) (key : UInt64) (place : Place) (e : Entry) : Prop where
  located : d.cell.locate d.held key = some place
  entryAt : d.cell.entryAt place = some e
  key : e.key = key

/-- Exactly the entry that was found is gone, and an item is released unless there was none to spare. -/
structure Draft.Loses (d : Draft) (place : Place) (e : Entry) (d' : Draft) (freed : Option Item) :
    Prop where
  contents : d.contents = e ::ₘ d'.contents
  freed : freed = none ↔ (∃ i, place = .inline i) ∧ d.cell.chain = []

/-- What one edit does: it acts as on a multiset, leaves all entries of other keys alone, and tells the
item that was linked and is so no longer. -/
structure Draft.Edited (d : Draft) (edit : Edit) (d' : Draft) (freed : Option Item) : Prop where
  acts : edit.Acts d.contents d'.contents
  others : ∀ key, edit.key ≠ key →
    d'.contents.filter (·.key = key) = d.contents.filter (·.key = key)
  removed : ∀ key, edit = .remove key → ∃ place e, d.Finds key place e ∧ d.Loses place e d' freed
  written : ∀ key value, edit = .writeValue key value → ∃ place e, d.Finds key place e ∧
    e ::ₘ d'.contents = e.withValue value ::ₘ d.contents
  unlinked : ∀ item, freed = some item ↔ item ∈ d.cell.items ∧ item ∉ d'.cell.items
  linked : ∀ item, edit.item = some item ↔ item ∉ d.cell.items ∧ item ∈ d'.cell.items

/-- The word counts the inline entries and marks their slots. -/
structure Draft.Truthful (d : Draft) : Prop where
  count : (d.cell.inlined d.held).length = d.held.count
  contents : d.contents.card = d.held.count + d.cell.chain.length
  occupied : d.held.occupied = 2 ^ d.held.count - 1

/-- An edit is refused only for want of a slot, of a free item or of the key. -/
def Draft.Refuses (d : Draft) : Edit → Prop
  | .pushInline _ => d.held.count = inlineSlots
  | .pushOverflow item _ => item ∈ d.cell.items
  | .writeValue key _ => ∀ e ∈ d.contents, e.key ≠ key
  | .remove key => ∀ e ∈ d.contents, e.key ≠ key

/-- What holds of a draft from the announcement on. Since its chain has an end, no item is in it twice. -/
structure Draft.Sound (d : Draft) : Prop where
  dense : d.cell.Dense d.held
  items : d.cell.items.Nodup

variable {c : Cell} {held : CellWord} {d d' : Draft} {edit : Edit} {freed : Option Item} {e : Entry}
  {key : UInt64} {place : Place} {m m' : Multiset Entry}

theorem Entry.filter_cons (hne : e.key ≠ key) :
    (e ::ₘ m).filter (·.key = key) = m.filter (·.key = key) :=
  Multiset.filter_cons_of_neg m hne

theorem Entry.filter_erase (hmem : e ∈ m) (hne : e.key ≠ key) :
    (m.erase e).filter (·.key = key) = m.filter (·.key = key) := by
  rw [← Entry.filter_cons hne, Multiset.cons_erase hmem]

theorem Edit.Acts.others (h : edit.Acts m m') (hkey : edit.key ≠ key) :
    m'.filter (·.key = key) = m.filter (·.key = key) := by
  cases h with
  | pushInline e => exact Entry.filter_cons hkey
  | pushOverflow item e => exact Entry.filter_cons hkey
  | @writeValue _ e mem value =>
    have hne : (e.withValue value).key ≠ key := hkey
    exact (Entry.filter_cons hne).trans (Entry.filter_erase mem hkey)
  | remove mem => exact Entry.filter_erase mem hkey

theorem Edit.ActAll.others {edits : List Edit} (h : Edit.ActAll edits m m')
    (hkey : ∀ edit ∈ edits, edit.key ≠ key) :
    m'.filter (·.key = key) = m.filter (·.key = key) := by
  induction h with
  | nil => rfl
  | cons acts _ ih =>
    obtain ⟨hfirst, hrest⟩ := List.forall_mem_cons.mp hkey
    exact (ih hrest).trans (acts.others hfirst)

theorem Draft.finds (h : d.cell.locate d.held key = some place) :
    ∃ e, d.cell.Lies d.held e place ∧ d.Finds key place e := by
  obtain ⟨e, hlies, hkey⟩ := Cell.locate_eq_some h
  exact ⟨e, hlies, h, hlies.entryAt, hkey⟩

/-- Only the last strategy of a removal, to close the gap among the slots, needs no item. -/
theorem Cell.freed_eq_none_iff (hl : c.Lies held e place) :
    (c.remove held place).2.2 = none ↔ (∃ i, place = .inline i) ∧ c.chain = [] := by
  cases place with
  | inline i => cases hchain : c.chain <;> simp [Cell.remove, hchain]
  | overflow p =>
    obtain ⟨spill, hspill, _⟩ := hl.spill
    simp [Cell.remove, hspill]

/-- Whoever takes an item out of the chain looks at what is left of it. -/
theorem Cell.flagged_of_freed (h : (c.remove held place).2.2 ≠ none) :
    (c.remove held place).1.Flagged (c.remove held place).2.1 := by
  cases place with
  | inline i =>
    cases hchain : c.chain with
    | nil => simp [Cell.remove, hchain] at h
    | cons head rest => simp [Cell.remove, Cell.Flagged, hchain]
  | overflow p => simp [Cell.remove, Cell.Flagged]

theorem Cell.word_remove (c : Cell) (held : CellWord) (place : Place) :
    (c.remove held place).1.word = c.word := by
  cases place with
  | inline i => cases hchain : c.chain <;> simp [Cell.remove, hchain]
  | overflow p => rfl

/-- What an edit keeps, what it does to the entries, and how it moves items between the chain and the
outside. -/
structure Draft.Leads (d : Draft) (edit : Edit) (d' : Draft) (freed : Option Item) : Prop where
  dense : d'.cell.Dense d'.held
  flagged : d.cell.Flagged d.held → d'.cell.Flagged d'.held
  relinked : edit.item ≠ none ∨ freed ≠ none → d'.cell.Flagged d'.held
  word : d'.cell.word = d.cell.word
  acts : edit.Acts d.contents d'.contents
  fresh : ∀ item, edit.item = some item → item ∉ d.cell.items
  items : (edit.item.toList ++ d.cell.items).Perm (freed.toList ++ d'.cell.items)
  apart : edit.item = none ∨ freed = none

theorem Draft.leads_pushInline (hd : d.cell.Dense d.held) (hroom : d.held.count < inlineSlots)
    (e : Entry) : d.Leads (.pushInline e)
      ⟨(d.cell.pushInline d.held e).1, (d.cell.pushInline d.held e).2⟩ none := by
  refine ⟨hd.pushInline hroom e, fun hflag => hflag.pushInline hroom e, by simp [Edit.item], ?_, ?_,
    nofun, ?_, .inl rfl⟩
  · simp only [Cell.pushInline, Cell.fillSlot]
    split <;> rfl
  · have hcontents : Draft.contents ⟨(d.cell.pushInline d.held e).1, (d.cell.pushInline d.held e).2⟩
        = e ::ₘ d.contents := by
      rw [Draft.contents, Cell.entries_pushInline hd hroom]
      exact Multiset.coe_eq_coe.mpr List.perm_middle
    exact hcontents ▸ .pushInline e
  · exact List.Perm.of_eq (d.cell.items_pushInline d.held e).symm

theorem Draft.leads_pushOverflow (hd : d.cell.Dense d.held) {item : Item}
    (hfresh : item ∉ d.cell.items) (e : Entry) : d.Leads (.pushOverflow item e)
      ⟨(d.cell.pushOverflow d.held item e).1, (d.cell.pushOverflow d.held item e).2⟩ none := by
  have hflagged := d.cell.flagged_pushOverflow d.held item e
  refine ⟨hd.pushOverflow item e, fun _ => hflagged, fun _ => hflagged, rfl, ?_,
    fun _ hi => Option.some.inj hi ▸ hfresh, .refl _, .inr rfl⟩
  have hcontents : Draft.contents ⟨(d.cell.pushOverflow d.held item e).1,
      (d.cell.pushOverflow d.held item e).2⟩ = e ::ₘ d.contents := by
    rw [Draft.contents, Cell.entries_pushOverflow]
    exact Multiset.coe_eq_coe.mpr List.perm_middle
  exact hcontents ▸ .pushOverflow item e

theorem Draft.leads_writeValue (hd : d.cell.Dense d.held) (hl : d.cell.Lies d.held e place)
    (value : UInt64) :
    d.Leads (.writeValue e.key value) ⟨d.cell.writeValue value place, d.held⟩ none := by
  refine ⟨hd.writeValue value place, fun hflag => hflag.writeValue value place, by simp [Edit.item],
    ?_, ?_, nofun, ?_, .inl rfl⟩
  · cases place <;> rfl
  · have hmem : e ∈ d.contents := hl.mem
    have hcontents : Draft.contents ⟨d.cell.writeValue value place, d.held⟩
        = e.withValue value ::ₘ d.contents.erase e := by
      rw [← Multiset.cons_inj_right e, Multiset.cons_swap, Multiset.cons_erase hmem]
      exact Multiset.coe_eq_coe.mpr (Cell.perm_writeValue hl value)
    exact hcontents ▸ .writeValue hmem value
  · exact List.Perm.of_eq (d.cell.items_writeValue value place).symm

theorem Draft.contents_remove (hd : d.cell.Dense d.held) (hl : d.cell.Lies d.held e place) :
    d.contents
      = e ::ₘ Draft.contents ⟨(d.cell.remove d.held place).1, (d.cell.remove d.held place).2.1⟩ :=
  Multiset.coe_eq_coe.mpr (Cell.drops hd hl).entries

theorem Draft.leads_remove (hd : d.cell.Dense d.held) (hl : d.cell.Lies d.held e place) :
    d.Leads (.remove e.key) ⟨(d.cell.remove d.held place).1, (d.cell.remove d.held place).2.1⟩
      (d.cell.remove d.held place).2.2 := by
  have hdrops := Cell.drops hd hl
  refine ⟨hdrops.dense, hdrops.flagged, fun hrelink => ?_, d.cell.word_remove d.held place, ?_, nofun,
    d.cell.items_remove d.held place, .inl rfl⟩
  · exact Cell.flagged_of_freed (hrelink.resolve_left fun h => h rfl)
  · have herase := congrArg (Multiset.erase · e) (Draft.contents_remove hd hl)
    rw [Multiset.erase_cons_head] at herase
    exact herase ▸ .remove hl.mem

theorem Draft.leads (hd : d.cell.Dense d.held) (h : d.edit edit = some (d', freed)) :
    d.Leads edit d' freed := by
  cases edit with
  | pushInline e =>
    obtain ⟨hroom, heq⟩ := Option.ite_none_right_eq_some.mp h
    cases heq
    exact Draft.leads_pushInline hd hroom e
  | pushOverflow item e =>
    obtain ⟨hfresh, heq⟩ := Option.ite_none_left_eq_some.mp h
    cases heq
    exact Draft.leads_pushOverflow hd hfresh e
  | writeValue key value =>
    obtain ⟨place, hplace, heq⟩ := Option.map_eq_some_iff.mp h
    obtain ⟨e, hlies, hfinds⟩ := Draft.finds hplace
    cases heq
    exact hfinds.key ▸ Draft.leads_writeValue hd hlies value
  | remove key =>
    obtain ⟨place, hplace, heq⟩ := Option.map_eq_some_iff.mp h
    obtain ⟨e, hlies, hfinds⟩ := Draft.finds hplace
    cases heq
    exact hfinds.key ▸ Draft.leads_remove hd hlies

theorem Draft.Leads.nodup (h : d.Leads edit d' freed) (hn : d.cell.items.Nodup) :
    (edit.item.toList ++ d.cell.items).Nodup := by
  cases hitem : edit.item with
  | none => simpa using hn
  | some item => simpa using ⟨h.fresh item hitem, hn⟩

theorem Draft.Leads.sound (h : d.Leads edit d' freed) (hs : d.Sound) : d'.Sound :=
  ⟨h.dense, (List.nodup_append'.mp (h.items.nodup_iff.mp (h.nodup hs.items))).2.1⟩

theorem Draft.edited (hs : d.Sound) (h : d.edit edit = some (d', freed)) :
    d.Edited edit d' freed := by
  have hleads := Draft.leads hs.dense h
  have hnodup := hleads.nodup hs.items
  refine ⟨hleads.acts, fun key hkey => hleads.acts.others hkey, ?_, ?_,
    eq_some_iff_of_perm hleads.items hnodup hleads.apart, fun item => ?_⟩
  · rintro key rfl
    obtain ⟨place, hplace, heq⟩ := Option.map_eq_some_iff.mp h
    obtain ⟨e, hlies, hfinds⟩ := Draft.finds hplace
    cases heq
    exact ⟨place, e, hfinds, Draft.contents_remove hs.dense hlies, Cell.freed_eq_none_iff hlies⟩
  · rintro key value rfl
    obtain ⟨place, hplace, heq⟩ := Option.map_eq_some_iff.mp h
    obtain ⟨e, hlies, hfinds⟩ := Draft.finds hplace
    cases heq
    exact ⟨place, e, hfinds, Multiset.coe_eq_coe.mpr (Cell.perm_writeValue hlies value)⟩
  · rw [eq_some_iff_of_perm hleads.items.symm (hleads.items.nodup_iff.mp hnodup) hleads.apart.symm,
      and_comm]

theorem Draft.locate_eq_none_iff :
    d.cell.locate d.held key = none ↔ ∀ e ∈ d.contents, e.key ≠ key := by
  refine ⟨Cell.locate_eq_none, fun hnone => Option.eq_none_iff_forall_ne_some.mpr ?_⟩
  intro place hplace
  obtain ⟨e, hlies, hkey⟩ := Cell.locate_eq_some hplace
  exact hnone e hlies.mem hkey

theorem Draft.edit_eq_none_iff : d.edit edit = none ↔ d.Refuses edit := by
  have hle := d.held.count_le
  cases edit with
  | pushInline e =>
    simp only [Draft.edit, Draft.Refuses, ite_eq_right_iff, reduceCtorEq, imp_false]
    omega
  | pushOverflow item e => simp [Draft.edit, Draft.Refuses]
  | writeValue key value => exact Option.map_eq_none_iff.trans Draft.locate_eq_none_iff
  | remove key => exact Option.map_eq_none_iff.trans Draft.locate_eq_none_iff

/-- What all edits from one draft to the other do together. -/
structure Draft.Leaves (d : Draft) (edits : List Edit) (d' : Draft) (freed : List Item) : Prop where
  sound : d'.Sound
  flagged : d.cell.Flagged d.held ∨ Edit.Relink edits freed → d'.cell.Flagged d'.held
  word : d'.cell.word = d.cell.word
  acts : Edit.ActAll edits d.contents d'.contents
  items : (edits.filterMap Edit.item ++ d.cell.items).Perm (freed ++ d'.cell.items)

theorem Draft.leaves {edits : List Edit} {freed : List Item} (hs : d.Sound)
    (h : d.edits edits = some (d', freed)) : d.Leaves edits d' freed := by
  induction edits generalizing d freed with
  | nil =>
    cases h
    exact ⟨hs, by simp [Edit.Relink], rfl, .nil, .refl _⟩
  | cons edit rest ih =>
    simp only [Draft.edits, Option.bind_eq_bind, Option.bind_eq_some_iff, Prod.exists] at h
    obtain ⟨d₁, gone, hfirst, d₂, more, hrest, heq⟩ := h
    cases heq
    have hleads := Draft.leads hs.dense hfirst
    have hleaves := ih (hleads.sound hs) hrest
    refine ⟨hleaves.sound, fun hflag => hleaves.flagged ?_, hleaves.word.trans hleads.word,
      .cons hleads.acts hleaves.acts, ?_⟩
    · rcases hflag with hflag | ⟨e, he, hitem⟩ | hfreed
      · exact .inl (hleads.flagged hflag)
      · rcases List.mem_cons.mp he with rfl | he
        · exact .inl (hleads.relinked (.inl hitem))
        · exact .inr (.inl ⟨e, he, hitem⟩)
      · by_cases hgone : gone = none
        · exact .inr (.inr (by simpa [hgone] using hfreed))
        · exact .inl (hleads.relinked (.inr hgone))
    -- An item may be linked, released and linked again, so items are counted and not just compared.
    have hitem : (edit :: rest).filterMap Edit.item
        = edit.item.toList ++ rest.filterMap Edit.item := by
      cases hi : edit.item <;> simp [hi]
    rw [hitem, List.append_assoc, List.append_assoc]
    refine (List.perm_append_comm_assoc _ _ _).trans ?_
    refine (hleads.items.append_left _).trans ?_
    refine (List.perm_append_comm_assoc _ _ _).trans ?_
    exact hleaves.items.append_left _

theorem Draft.Sound.truthful (h : d.Sound) : d.Truthful := by
  have hcount := Cell.length_inlined h.dense
  refine ⟨hcount, ?_, ?_⟩
  · rw [Draft.contents, Multiset.coe_card, Cell.entries, List.length_append, hcount, Cell.chained,
      List.length_map]
  · rw [h.dense.occupied, CellWord.bitmap, Nat.one_shiftLeft]

theorem Draft.Sound.of_agrees (h : d.Sound) (ha : d.cell.Agrees d.held d'.cell d'.held) :
    d'.Sound := by
  refine ⟨ha.dense h.dense, ?_⟩
  rw [ha.items]
  exact h.items

theorem Draft.contents_of_agrees (ha : d.cell.Agrees d.held d'.cell d'.held) :
    d'.contents = d.contents :=
  Multiset.coe_eq_coe.mpr (List.Perm.of_eq ha.entries)

theorem Draft.agrees_published (d : Draft) :
    d.cell.Agrees d.held d.published.cell d.published.held := d.cell.agrees_publish d.held

theorem Draft.agrees_begun (c : Cell) (held : CellWord) :
    c.Agrees held (c.begun held).cell (c.begun held).held := c.agrees_beginWrite held

/-- Any edits of a cell whose inline entries lie in the lowest slots and whose chain has an end. After
each of them the word tells the truth, about the chain too if it did so at first or an item has been
linked or released since, and the entries are those of a multiset that went through the same edits. The
next edit is refused only for a reason, and otherwise changes the one entry and moves the one item it
should. All the while readers see the announced word, and in the end the entries that are left. -/
theorem Cell.edits_act {edits : List Edit} {freed : List Item} (hdense : c.Dense held)
    (hitems : c.items.Nodup) (hrun : (c.begun held).edits edits = some (d, freed)) :
    (d.Truthful ∧ (c.Flagged held ∨ Edit.Relink edits freed → d.cell.Flagged d.held) ∧
      d.cell.word = held.writing) ∧
    Edit.ActAll edits (c.entries held) d.contents ∧
    (∀ key, (∀ edit ∈ edits, edit.key ≠ key) → d.contents.filter (·.key = key)
      = (c.entries held : Multiset Entry).filter (·.key = key)) ∧
    (edits.filterMap Edit.item ++ c.items).Perm (freed ++ d.cell.items) ∧
    (∀ edit, (d.edit edit = none ↔ d.Refuses edit) ∧
      ∀ d' released, d.edit edit = some (d', released) → d.Edited edit d' released) ∧
    d.published.Truthful ∧ (d.cell.Flagged d.held → d.published.cell.Flagged d.published.held) ∧
    d.published.contents = d.contents ∧
    d.published.held.isLocked = false ∧ d.published.held.isWriting = false := by
  have hagrees := Draft.agrees_begun c held
  have hbegun : (c.begun held).Sound :=
    Draft.Sound.of_agrees (d := ⟨c, held⟩) ⟨hdense, hitems⟩ hagrees
  have hcontents : (c.begun held).contents = c.entries held :=
    Draft.contents_of_agrees (d := ⟨c, held⟩) hagrees
  have hleaves := Draft.leaves hbegun hrun
  have hacts : Edit.ActAll edits (c.entries held) d.contents := hcontents ▸ hleaves.acts
  have hflagged (h : c.Flagged held ∨ Edit.Relink edits freed) : d.cell.Flagged d.held :=
    hleaves.flagged (h.imp_left hagrees.flagged)
  have hlast := d.agrees_published
  refine ⟨⟨hleaves.sound.truthful, hflagged, hleaves.word⟩, hacts, fun key hkey => hacts.others hkey,
    ?_, fun edit => ⟨Draft.edit_eq_none_iff, fun d' released hedit => ?_⟩, ?_, hlast.flagged,
    Draft.contents_of_agrees hlast, ?_, ?_⟩
  · exact hagrees.items ▸ hleaves.items
  · exact Draft.edited hleaves.sound hedit
  · exact (hleaves.sound.of_agrees hlast).truthful
  · exact d.held.isLocked_published
  · exact d.held.isWriting_published

/-- Two inline entries, a third one in an item while a slot is free, and a fourth one inline. When the
entry of key 1 is removed, the one in the chain takes its slot and its item is released. -/
theorem Cell.edits_act_refill : ∃ (c : Cell) (d : Draft),
    c.word = ⟨142⟩ ∧ c.inlined c.word = [⟨1, 10⟩, ⟨2, 20⟩] ∧ c.chain = [] ∧
    c.Dense c.word ∧ c.items.Nodup ∧
    (c.begun c.word).edits [.pushOverflow ⟨0, 4⟩ ⟨3, 30⟩, .pushInline ⟨4, 40⟩, .writeValue 3 31,
      .remove 1] = some (d, [⟨0, 4⟩]) ∧
    d.contents = {⟨3, 31⟩, ⟨2, 20⟩, ⟨4, 40⟩} ∧ d.held.count = 3 ∧ d.cell.Flagged d.held ∧
    d.Truthful ∧ d.published.contents = d.contents ∧
    ∃ d', d.edit (.remove 3) = some (d', none) ∧ d.Edited (.remove 3) d' none := by
  let c : Cell := ⟨⟨142⟩, [⟨1, 10⟩, ⟨2, 20⟩], []⟩
  have hdense : c.Dense ⟨142⟩ := ⟨by decide, by decide⟩
  have hitems : c.items.Nodup := List.nodup_nil
  have hrun : (c.begun ⟨142⟩).edits [.pushOverflow ⟨0, 4⟩ ⟨3, 30⟩, .pushInline ⟨4, 40⟩,
      .writeValue 3 31, .remove 1]
      = some (⟨⟨⟨174⟩, [⟨3, 31⟩, ⟨2, 20⟩, ⟨4, 40⟩], []⟩, ⟨191⟩⟩, [⟨0, 4⟩]) := by decide +kernel
  obtain ⟨⟨htruthful, hflagged, _⟩, _, _, _, hnext, _, _, hpublished, _⟩ :=
    Cell.edits_act hdense hitems hrun
  have hlast : Draft.edit ⟨⟨⟨174⟩, [⟨3, 31⟩, ⟨2, 20⟩, ⟨4, 40⟩], []⟩, ⟨191⟩⟩ (.remove 3)
      = some (⟨⟨⟨174⟩, [⟨4, 40⟩, ⟨2, 20⟩, ⟨4, 40⟩], []⟩, ⟨174⟩⟩, none) := by decide +kernel
  exact ⟨c, _, rfl, by decide, rfl, hdense, hitems, hrun, rfl, by decide, hflagged (.inl rfl), htruthful,
    hpublished, _, hlast, (hnext (.remove 3)).2 _ _ hlast⟩

end EpochTable
