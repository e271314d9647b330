import EpochTable.Proofs.LinkedBlocks

namespace EpochTable

/-- What is done to a block while its cells are locked, or by readers. An item can be linked or given back
only by those who have it. -/
inductive Handling.Act where
  | take (hash : UInt64)
  | giveBack (item : Item)
  | setWord (cell : Nat) (word : CellWord)
  | pushInline (cell : Nat) (held : CellWord) (entry : Entry)
  | pushOverflow (cell : Nat) (held : CellWord) (item : Item) (entry : Entry)
  | writeValue (cell : Nat) (held : CellWord) (key value : UInt64)
  | remove (cell : Nat) (held : CellWord) (key : UInt64)
  | read (cell : Nat) (key : UInt64) (limit : Nat)
  | list (cell : Nat) (held : CellWord)
  deriving DecidableEq, Repr

inductive Handling.Answer where
  | nothing
  | taken (item : Option Item)
  | pushed (held : CellWord)
  | written (old : Option UInt64)
  | removed (old : Option UInt64) (held : CellWord) (freed : Option Item)
  | reading (reading : Reading)
  | entries (entries : List Entry)
  deriving DecidableEq, Repr

def Handling.fresh (cells shelves : Nat) : Handling := ⟨.empty cells shelves, []⟩

/-- Nothing is done to a cell that there is not. -/
def Handling.withCell (x : Handling) (i : Nat) (act : Cell → Handling × Handling.Answer) :
    Handling × Handling.Answer :=
  if i < x.block.cellCount then act (x.block.cell i) else (x, .nothing)

/-- Nor for a key that is not in the cell. -/
def Handling.withPlace (x : Handling) (i : Nat) (held : CellWord) (key : UInt64)
    (act : Cell → Place → Handling × Handling.Answer) : Handling × Handling.Answer :=
  x.withCell i fun c =>
    match c.locate held key with
    | none => (x, .nothing)
    | some place => act c place

def Handling.setCell (x : Handling) (i : Nat) (c : Cell) (hands : List Item) : Handling :=
  ⟨x.block.setCell i c, hands⟩

def Handling.apply (x : Handling) : Handling.Act → Handling × Handling.Answer
  | .take hash =>
    match x.block.pool.alloc hash with
    | none => (x, .taken none)
    | some (item, pool) => (⟨{ x.block with pool := pool }, item :: x.hands⟩, .taken (some item))
  | .giveBack item =>
    if item ∈ x.hands then
      (⟨{ x.block with pool := x.block.pool.release item }, x.hands.erase item⟩, .nothing)
    else (x, .nothing)
  | .setWord i word =>
    x.withCell i fun c => (x.setCell i { c with word := word } x.hands, .nothing)
  | .pushInline i held entry =>
    if held.count < inlineSlots then
      x.withCell i fun c =>
        let (c, held) := c.pushInline held entry
        (x.setCell i c x.hands, .pushed held)
    else (x, .nothing)
  | .pushOverflow i held item entry =>
    if item ∈ x.hands then
      x.withCell i fun c =>
        let (c, held) := c.pushOverflow held item entry
        (x.setCell i c (x.hands.erase item), .pushed held)
    else (x, .nothing)
  | .writeValue i held key value =>
    x.withPlace i held key fun c place =>
      (x.setCell i (c.writeValue value place) x.hands, .written (c.valueAt place))
  | .remove i held key =>
    x.withPlace i held key fun c place =>
      let (left, held, freed) := c.remove held place
      (x.setCell i left (freed.toList ++ x.hands), .removed (c.valueAt place) held freed)
  | .read i key limit => x.withCell i fun c => (x, .reading (c.read key limit))
  | .list i held => x.withCell i fun c => (x, .entries (c.entries held))

def Handling.run (x : Handling) : List Handling.Act → Handling × List Handling.Answer
  | [] => (x, [])
  | act :: rest =>
    let (x, answer) := x.apply act
    let (x, answers) := x.run rest
    (x, answer :: answers)

/-- The same with the block in memory. An act answers `none` where a link leads to an item that is not
there, or on and on. -/
structure LinkedHandling where
  block : LinkedBlock
  hands : List Item

def LinkedHandling.fresh (cells shelves : Nat) : LinkedHandling := ⟨.empty cells shelves, []⟩

def LinkedHandling.withCell (l : LinkedHandling) (i : Nat)
    (act : LinkedCell → Option (LinkedHandling × Handling.Answer)) :
    Option (LinkedHandling × Handling.Answer) :=
  match l.block.cells[i]? with
  | none => some (l, .nothing)
  | some c => act c

def LinkedHandling.withSlot (l : LinkedHandling) (i : Nat) (held : CellWord) (key : UInt64)
    (act : LinkedCell → Slot → Option (LinkedHandling × Handling.Answer)) :
    Option (LinkedHandling × Handling.Answer) :=
  l.withCell i fun c =>
    (c.locate l.block.items held key l.block.itemCount).bind fun found =>
      match found with
      | none => some (l, .nothing)
      | some slot => act c slot

def LinkedHandling.setCell (l : LinkedHandling) (i : Nat) (c : LinkedCell) (items : ItemMemory)
    (hands : List Item) : LinkedHandling :=
  ⟨l.block.setCell i c items, hands⟩

def LinkedHandling.apply (l : LinkedHandling) :
    Handling.Act → Option (LinkedHandling × Handling.Answer)
  | .take hash =>
    (l.block.alloc hash).map fun taken =>
      match taken with
      | none => (l, .taken none)
      | some (item, block) => (⟨block, item :: l.hands⟩, .taken (some item))
  | .giveBack item =>
    if item ∈ l.hands then
      (l.block.release item).map fun block => (⟨block, l.hands.erase item⟩, .nothing)
    else some (l, .nothing)
  | .setWord i word =>
    l.withCell i fun c =>
      some (l.setCell i { c with word := word } l.block.items l.hands, .nothing)
  | .pushInline i held entry =>
    if held.count < inlineSlots then
      l.withCell i fun c =>
        let (c, held) := c.pushInline held entry
        some (l.setCell i c l.block.items l.hands, .pushed held)
    else some (l, .nothing)
  | .pushOverflow i held item entry =>
    if item ∈ l.hands then
      l.withCell i fun c =>
        (c.pushOverflow l.block.items held item entry).map fun (c, items, held) =>
          (l.setCell i c items (l.hands.erase item), .pushed held)
    else some (l, .nothing)
  | .writeValue i held key value =>
    l.withSlot i held key fun c slot =>
      (c.writeValue l.block.items value slot).map fun (left, items) =>
        (l.setCell i left items l.hands, .written (c.valueAt l.block.items slot))
  | .remove i held key =>
    l.withSlot i held key fun c slot =>
      (c.remove l.block.items held slot).map fun (left, items, held, freed) =>
        (l.setCell i left items (freed.toList ++ l.hands),
          .removed (c.valueAt l.block.items slot) held freed)
  | .read i key limit =>
    l.withCell i fun c =>
      (c.read l.block.items key limit).map fun reading => (l, .reading reading)
  | .list i held =>
    l.withCell i fun c =>
      (c.entries l.block.items held l.block.itemCount).map fun entries => (l, .entries entries)

def LinkedHandling.run (l : LinkedHandling) :
    List Handling.Act → Option (LinkedHandling × List Handling.Answer)
  | [] => some (l, [])
  | act :: rest =>
    (l.apply act).bind fun (l, answer) =>
      (l.run rest).map fun (l, answers) => (l, answer :: answers)

variable {x : Handling} {l : LinkedHandling} {m' : ItemMemory} {i : Nat} {c : LinkedCell} {cell : Cell}
  {held : CellWord} {key : UInt64}

theorem Handling.of_withCell {act : Cell → Handling × Handling.Answer}
    {p : Handling × Handling.Answer → Prop} (still : p (x, .nothing))
    (inside : i < x.block.cellCount → p (act (x.block.cell i))) : p (x.withCell i act) := by
  unfold Handling.withCell
  split
  next hi => exact inside hi
  next => exact still

theorem Handling.of_withPlace {act : Cell → Place → Handling × Handling.Answer}
    {p : Handling × Handling.Answer → Prop} (still : p (x, .nothing))
    (inside : i < x.block.cellCount → ∀ place, p (act (x.block.cell i) place)) :
    p (x.withPlace i held key act) := by
  refine Handling.of_withCell still fun hi => ?_
  split
  next => exact still
  next place _ => exact inside hi place

/-- An act does nothing, or it is one of the steps that blocks are handled by. -/
theorem Handling.eq_or_step_apply (x : Handling) (act : Handling.Act) :
    (x.apply act).1 = x ∨ x.Step (x.apply act).1 := by
  let p (y : Handling × Handling.Answer) : Prop := y.1 = x ∨ x.Step y.1
  change p (x.apply act)
  have still (answer : Handling.Answer) : p (x, answer) := .inl rfl
  cases act with
  | take hash =>
    simp only [Handling.apply]
    split
    next => exact still _
    next htaken => exact .inr (.alloc htaken)
  | giveBack item =>
    simp only [Handling.apply]
    split
    next hmine => exact .inr (.free hmine)
    next => exact still _
  | setWord i word => exact Handling.of_withCell (still _) fun hi => .inr (.edit hi rfl)
  | pushInline i held entry =>
    simp only [Handling.apply]
    split
    next =>
      refine Handling.of_withCell (still _) fun hi => ?_
      exact .inr (.edit hi (Cell.items_pushInline _ held entry))
    next => exact still _
  | pushOverflow i held item entry =>
    simp only [Handling.apply]
    split
    next hmine =>
      exact Handling.of_withCell (still _) fun hi => .inr (.pushOverflow hi hmine held entry)
    next => exact still _
  | writeValue i held key value =>
    refine Handling.of_withPlace (still _) fun hi place => ?_
    exact .inr (.edit hi (Cell.items_writeValue _ value place))
  | remove i held key =>
    exact Handling.of_withPlace (still _) fun hi place => .inr (.remove hi held place)
  | read i key limit => exact Handling.of_withCell (still _) fun _ => still _
  | list i held => exact Handling.of_withCell (still _) fun _ => still _

theorem Handling.accounts_apply (h : x.block.Accounts x.hands) (act : Handling.Act) :
    (x.apply act).1.block.Accounts (x.apply act).1.hands := by
  rcases x.eq_or_step_apply act with hsame | hstep
  · rwa [hsame]
  · exact hstep.accounts h

structure LinkedHandling.Shows (l : LinkedHandling) (x : Handling) : Prop where
  block : l.block.Lays x.block
  hands : l.hands = x.hands

/-- What is done goes through, answers the same, and leaves the same behind. -/
def LinkedHandling.Meets (out : Option (LinkedHandling × Handling.Answer))
    (done : Handling × Handling.Answer) : Prop :=
  ∃ l', out = some (l', done.2) ∧ l'.Shows done.1

theorem LinkedHandling.Shows.meets (shows : l.Shows x) (answer : Handling.Answer) :
    LinkedHandling.Meets (some (l, answer)) (x, answer) :=
  ⟨l, rfl, shows⟩

theorem LinkedHandling.Shows.withCell (shows : l.Shows x)
    {act : LinkedCell → Option (LinkedHandling × Handling.Answer)}
    {act' : Cell → Handling × Handling.Answer}
    (inside : ∀ c, i < x.block.cellCount → c.Shows l.block.items (x.block.cell i) →
      LinkedHandling.Meets (act c) (act' (x.block.cell i))) :
    LinkedHandling.Meets (l.withCell i act) (x.withCell i act') := by
  unfold LinkedHandling.withCell Handling.withCell
  rw [← shows.block.cellCount]
  split
  next hnone =>
    rw [if_neg (Nat.not_lt.mpr (Array.getElem?_eq_none_iff.mp hnone))]
    exact shows.meets _
  next c hc =>
    obtain ⟨hlt, _⟩ := Array.getElem?_eq_some_iff.mp hc
    rw [if_pos hlt]
    exact inside c (shows.block.cellCount ▸ hlt) (shows.block.cells i c hc)

/-- Changes of a cell that touch no items but its own. -/
theorem LinkedHandling.Shows.setCell (shows : l.Shows x) (keeps : x.block.KeepsItems x.hands)
    (inside : i < x.block.cellCount) (writes : l.block.items.Writes m' (x.block.cell i).items)
    (after : c.Shows m' cell) (hands : List Item) :
    (l.setCell i c m' hands).Shows (x.setCell i cell hands) := by
  have hown : ∀ item ∈ (x.block.cell i).items, item ∈ x.block.itemsAt x.hands (.chain i) :=
    fun _ hitem => hitem
  have hapart (spot : ItemSpot) (hne : spot ≠ .chain i) :
      (x.block.cell i).items.Disjoint (x.block.itemsAt x.hands spot) := keeps.apart hown hne
  exact ⟨shows.block.setCell inside writes (fun spot _ => hapart spot) after, rfl⟩

theorem LinkedHandling.Shows.take (shows : l.Shows x) (keeps : x.block.KeepsItems x.hands)
    (hash : UInt64) : LinkedHandling.Meets (l.apply (.take hash)) (x.apply (.take hash)) := by
  obtain ⟨found, halloc, hrel⟩ := shows.block.alloc keeps hash
  rw [LinkedHandling.apply, Handling.apply, halloc, Option.map_some]
  generalize x.block.pool.alloc hash = taken at hrel
  cases hrel with
  | none => exact shows.meets _
  | @some taken found same =>
    obtain ⟨item, pool⟩ := taken
    obtain ⟨_, block⟩ := found
    obtain ⟨rfl, hlays⟩ := same
    exact ⟨_, rfl, hlays, congrArg _ shows.hands⟩

theorem LinkedHandling.Shows.giveBack (shows : l.Shows x) (keeps : x.block.KeepsItems x.hands)
    (item : Item) : LinkedHandling.Meets (l.apply (.giveBack item)) (x.apply (.giveBack item)) := by
  simp only [LinkedHandling.apply, Handling.apply, shows.hands]
  split
  next hmine =>
    obtain ⟨block, hrelease, hlays⟩ := shows.block.release keeps hmine
    exact ⟨⟨block, x.hands.erase item⟩, by rw [hrelease, Option.map_some], hlays, rfl⟩
  next => exact shows.meets _

theorem LinkedHandling.Shows.setWord (shows : l.Shows x) (keeps : x.block.KeepsItems x.hands)
    (i : Nat) (word : CellWord) :
    LinkedHandling.Meets (l.apply (.setWord i word)) (x.apply (.setWord i word)) := by
  refine shows.withCell fun c hi hc => ?_
  rw [shows.hands]
  exact ⟨_, rfl, shows.setCell keeps hi (ItemMemory.writes_self _ _) (hc.setWord word) x.hands⟩

theorem LinkedHandling.Shows.pushInline (shows : l.Shows x) (keeps : x.block.KeepsItems x.hands)
    (i : Nat) (held : CellWord) (entry : Entry) : LinkedHandling.Meets
      (l.apply (.pushInline i held entry)) (x.apply (.pushInline i held entry)) := by
  simp only [LinkedHandling.apply, Handling.apply, shows.hands]
  split
  next =>
    refine shows.withCell fun c hi hc => ?_
    have hafter := hc.pushInline held entry
    exact ⟨_, rfl, shows.setCell keeps hi (ItemMemory.writes_self _ _) hafter x.hands⟩
  next => exact shows.meets _

theorem LinkedHandling.Shows.pushOverflow (shows : l.Shows x) (keeps : x.block.KeepsItems x.hands)
    (i : Nat) (held : CellWord) (item : Item) (entry : Entry) : LinkedHandling.Meets
      (l.apply (.pushOverflow i held item entry)) (x.apply (.pushOverflow i held item entry)) := by
  simp only [LinkedHandling.apply, Handling.apply, shows.hands]
  split
  next hmine =>
    refine shows.withCell fun c hi hc => ?_
    have hapart (spot : ItemSpot) (hne : spot ≠ .hands) :
        List.Disjoint [item] (x.block.itemsAt x.hands spot) :=
      keeps.apart_singleton (show item ∈ x.block.itemsAt x.hands .hands from hmine) hne
    obtain ⟨node, hnode⟩ := shows.block.exists_node keeps hmine
    have houtside : item ∉ (x.block.cell i).items :=
      List.singleton_disjoint.mp (hapart (.chain i) (by simp))
    obtain ⟨c', m', hpush, hshows, hwrites⟩ := hc.pushOverflow hnode houtside held entry
    have hlays := shows.block.setCell hi hwrites (fun spot hne _ => hapart spot hne) hshows
    exact ⟨⟨_, x.hands.erase item⟩, by rw [hpush, Option.map_some]; rfl, hlays, rfl⟩
  next => exact shows.meets _

/-- A walk along a chain is never given up. -/
theorem LinkedHandling.Shows.length_chain_le (shows : l.Shows x) (keeps : x.block.KeepsItems x.hands)
    (i : Nat) : (x.block.cell i).chain.length ≤ l.block.itemCount := by
  have hcount : l.block.itemCount = x.block.itemCount :=
    congrArg (· * shelfItems) shows.block.shelfCount
  rw [hcount]
  exact keeps.bounded i

theorem LinkedHandling.Shows.withSlot (shows : l.Shows x) (keeps : x.block.KeepsItems x.hands)
    {act : LinkedCell → Slot → Option (LinkedHandling × Handling.Answer)}
    {act' : Cell → Place → Handling × Handling.Answer}
    (inside : ∀ c place slot, i < x.block.cellCount → c.Shows l.block.items (x.block.cell i) →
      (x.block.cell i).Points place slot →
        LinkedHandling.Meets (act c slot) (act' (x.block.cell i) place)) :
    LinkedHandling.Meets (l.withSlot i held key act) (x.withPlace i held key act') := by
  refine shows.withCell fun c hi hc => ?_
  obtain ⟨found, hlocate, hrel⟩ := hc.locate (shows.length_chain_le keeps i) held key
  rw [hlocate, Option.bind_some]
  generalize (x.block.cell i).locate held key = place at hrel
  cases hrel with
  | none => exact shows.meets _
  | some points => exact inside c _ _ hi hc points

theorem LinkedHandling.Shows.writeValue (shows : l.Shows x) (keeps : x.block.KeepsItems x.hands)
    (i : Nat) (held : CellWord) (key value : UInt64) : LinkedHandling.Meets
      (l.apply (.writeValue i held key value)) (x.apply (.writeValue i held key value)) := by
  refine shows.withSlot keeps fun c place slot hi hc points => ?_
  obtain ⟨c', m', hwrite, hshows, hwrites⟩ := hc.writeValue (keeps.nodup (.chain i)) points value
  have hafter := shows.setCell keeps hi hwrites hshows x.hands
  rw [hwrite, hc.valueAt points, shows.hands]
  exact ⟨_, rfl, hafter⟩

theorem LinkedHandling.Shows.remove (shows : l.Shows x) (keeps : x.block.KeepsItems x.hands)
    (i : Nat) (held : CellWord) (key : UInt64) : LinkedHandling.Meets
      (l.apply (.remove i held key)) (x.apply (.remove i held key)) := by
  refine shows.withSlot keeps fun c place slot hi hc points => ?_
  obtain ⟨c', m', hremove, hshows, hwrites⟩ := hc.remove (keeps.nodup (.chain i)) points held
  have hafter := shows.setCell keeps hi hwrites hshows
  rw [hremove, hc.valueAt points, shows.hands]
  exact ⟨_, rfl, hafter _⟩

theorem LinkedHandling.Shows.read (shows : l.Shows x) (i : Nat) (key : UInt64) (limit : Nat) :
    LinkedHandling.Meets (l.apply (.read i key limit)) (x.apply (.read i key limit)) := by
  refine shows.withCell fun c _ hc => ?_
  rw [hc.read]
  exact shows.meets _

theorem LinkedHandling.Shows.list (shows : l.Shows x) (keeps : x.block.KeepsItems x.hands)
    (i : Nat) (held : CellWord) :
    LinkedHandling.Meets (l.apply (.list i held)) (x.apply (.list i held)) := by
  refine shows.withCell fun c _ hc => ?_
  rw [hc.entries (shows.length_chain_le keeps i)]
  exact shows.meets _

/-- What one act does with the links is what it does with the lists. -/
theorem LinkedHandling.Shows.apply (shows : l.Shows x) (accounts : x.block.Accounts x.hands)
    (act : Handling.Act) : LinkedHandling.Meets (l.apply act) (x.apply act) := by
  have keeps := accounts.keepsItems
  cases act with
  | take hash => exact shows.take keeps hash
  | giveBack item => exact shows.giveBack keeps item
  | setWord i word => exact shows.setWord keeps i word
  | pushInline i held entry => exact shows.pushInline keeps i held entry
  | pushOverflow i held item entry => exact shows.pushOverflow keeps i held item entry
  | writeValue i held key value => exact shows.writeValue keeps i held key value
  | remove i held key => exact shows.remove keeps i held key
  | read i key limit => exact shows.read i key limit
  | list i held => exact shows.list keeps i held

theorem LinkedHandling.Shows.run (shows : l.Shows x) (accounts : x.block.Accounts x.hands)
    (acts : List Handling.Act) : ∃ l', l.run acts = some (l', (x.run acts).2) ∧
      l'.Shows (x.run acts).1 ∧ (x.run acts).1.block.Accounts (x.run acts).1.hands := by
  induction acts generalizing l x with
  | nil => exact ⟨l, rfl, shows, accounts⟩
  | cons act rest ih =>
    obtain ⟨l₁, happly, hshows⟩ := shows.apply accounts act
    obtain ⟨l₂, hrun, hafter⟩ := ih hshows (Handling.accounts_apply accounts act)
    refine ⟨l₂, ?_, hafter⟩
    simp only [LinkedHandling.run, happly, Option.bind_some, hrun, Option.map_some, Handling.run]

/-- Whatever is done to a new block in memory, no link leads to an item that is not there, every walk
along a chain comes to an end, and all answers are those of the block whose chains and free lists are
lists. These lists are what is met from the heads on, one link for each item. -/
theorem LinkedHandling.runs_as_lists (cells shelves : Nat) (acts : List Handling.Act) :
    let done := (Handling.fresh cells shelves).run acts
    ∃ l, (LinkedHandling.fresh cells shelves).run acts = some (l, done.2) ∧ l.hands = done.1.hands ∧
      l.block.Lays done.1.block ∧ ∀ spot, spot ≠ .hands →
        Item.Linked l.block.items.next (done.1.block.itemsAt done.1.hands spot) := by
  intro done
  have hfresh : (LinkedHandling.fresh cells shelves).Shows (.fresh cells shelves) :=
    ⟨LinkedBlock.lays_empty cells shelves, rfl⟩
  obtain ⟨l, hrun, hshows, _⟩ := hfresh.run (Block.accounts_empty cells shelves) acts
  exact ⟨l, hrun, hshows.hands, hshows.block, fun _ hne => hshows.block.linked hne⟩

end EpochTable
