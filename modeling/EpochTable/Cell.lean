import EpochTable.CellWord

namespace EpochTable

structure Entry where
  key : UInt64
  value : UInt64
  deriving DecidableEq, Repr, Inhabited

def Entry.withValue (e : Entry) (value : UInt64) : Entry := { e with value := value }

/-- An overflow item: the shelf it belongs to, and its place on that shelf. -/
structure Item where
  home : Nat
  index : Nat
  deriving DecidableEq, Repr, Inhabited

structure Spill where
  item : Item
  entry : Entry
  deriving DecidableEq, Repr, Inhabited

def Spill.withValue (s : Spill) (value : UInt64) : Spill :=
  { s with entry := s.entry.withValue value }

/-- The inline slots written so far, of which the stored or held word says how many count; the slots
after those are leftovers. Readers look at the stored word. A writer locks the cell and from then on
carries the word it holds, which each change answers anew, until it publishes it. -/
structure Cell where
  word : CellWord
  slots : List Entry
  chain : List Spill
  deriving DecidableEq, Repr, Inhabited

inductive Place where
  | inline (index : Nat)
  | overflow (position : Nat)
  deriving DecidableEq, Repr

/-- The outcome of a lookup that takes no lock. A torn reading met a writer and has to be repeated;
`frozen` tells that the cell was locked. -/
inductive Reading where
  | torn
  | consistent (value : Option UInt64) (frozen : Bool)
  deriving DecidableEq, Repr

def Cell.empty : Cell := ⟨⟨0⟩, [], []⟩

/-- The inline entries that a word lets count. -/
def Cell.inlined (c : Cell) (w : CellWord) : List Entry :=
  c.slots.take w.count

def Cell.chained (c : Cell) : List Entry :=
  c.chain.map Spill.entry

def Cell.entries (c : Cell) (w : CellWord) : List Entry :=
  c.inlined w ++ c.chained

/-- Sets the lock; the new word is the one it is held with. -/
def Cell.seize (c : Cell) : Cell := { c with word := c.word.locked }

def Cell.lock (c : Cell) : Option (Cell × CellWord) :=
  if c.word.isLocked then none else some (c.seize, c.seize.word)

/-- Locks the cell if its word is still `seen`, which is unlocked; otherwise tells its word. -/
def Cell.tryLock (c : Cell) (seen : CellWord) : Except CellWord (Cell × CellWord) :=
  if c.word = seen then .ok (c.seize, c.seize.word) else .error c.word

def Cell.unlock (c : Cell) (held : CellWord) : Cell :=
  { c with word := held.unlocked }

def Cell.forceUnlock (c : Cell) : Cell :=
  { c with word := c.word.unlocked }

def Cell.beginWrite (c : Cell) (held : CellWord) : Cell × CellWord :=
  ({ c with word := held.writing }, held.writing)

def Cell.publish (c : Cell) (held : CellWord) : Cell :=
  { c with word := held.published }

def Cell.locate (c : Cell) (held : CellWord) (key : UInt64) : Option Place :=
  match (c.inlined held).findIdx? (·.key == key) with
  | some i => some (.inline i)
  | none => (c.chain.findIdx? (·.entry.key == key)).map .overflow

def Cell.entryAt (c : Cell) : Place → Option Entry
  | .inline i => c.slots[i]?
  | .overflow p => c.chain[p]?.map Spill.entry

def Cell.valueAt (c : Cell) (place : Place) : Option UInt64 :=
  (c.entryAt place).map Entry.value

def Cell.writeValue (c : Cell) (value : UInt64) : Place → Cell
  | .inline i => { c with slots := c.slots.modify i (·.withValue value) }
  | .overflow p => { c with chain := c.chain.modify p (·.withValue value) }

/-- Overwrites slot `index`, or adds it after the slots written so far. -/
def Cell.fillSlot (c : Cell) (index : Nat) (entry : Entry) : Cell :=
  if index < c.slots.length then { c with slots := c.slots.set index entry }
  else { c with slots := c.slots ++ [entry] }

/-- Appends an inline entry; the held word counts fewer than `inlineSlots`. -/
def Cell.pushInline (c : Cell) (held : CellWord) (entry : Entry) : Cell × CellWord :=
  (c.fillSlot held.count entry, held.withCount (held.count + 1))

def Cell.pushOverflow (c : Cell) (held : CellWord) (item : Item) (entry : Entry) :
    Cell × CellWord :=
  ({ c with chain := ⟨item, entry⟩ :: c.chain }, held.withOverflow true)

/-- Takes the entry at a place out and tells the item that is released. An inline hole is filled
from the head of the chain if there is one, otherwise by the last inline entry. -/
def Cell.remove (c : Cell) (held : CellWord) : Place → Cell × CellWord × Option Item
  | .inline i =>
    match c.chain with
    | [] =>
      let last := held.count - 1
      let slots := match c.slots[last]? with
        | some e => c.slots.set i e
        | none => c.slots
      ({ c with slots := slots }, held.withCount last, none)
    | head :: rest =>
      ({ c with slots := c.slots.set i head.entry, chain := rest },
        held.withOverflow (!rest.isEmpty), some head.item)
  | .overflow p =>
    let rest := c.chain.eraseIdx p
    ({ c with chain := rest }, held.withOverflow (!rest.isEmpty), c.chain[p]?.map Spill.item)

/-- Looks for a key along a chain, visiting at most `limit` items; `none` when more would have to be
visited. -/
def Spill.search (key : UInt64) : List Spill → Nat → Option (Option UInt64)
  | [], _ => some none
  | _ :: _, 0 => none
  | s :: rest, limit + 1 =>
    if s.entry.key = key then some (some s.entry.value) else search key rest limit

def Cell.read (c : Cell) (key : UInt64) (limit : Nat) : Reading :=
  if c.word.isWriting then .torn
  else
    match (c.inlined c.word).find? (·.key == key) with
    | some e => .consistent (some e.value) c.word.isLocked
    | none =>
      match Spill.search key c.chain limit with
      | some value => .consistent value c.word.isLocked
      | none => .torn

end EpochTable
