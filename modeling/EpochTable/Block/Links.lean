import EpochTable.Block

namespace EpochTable

/-- An item in memory. The link leads on along the chain or the free list that the item is in. -/
structure ItemNode where
  next : Option Item
  entry : Entry
  deriving DecidableEq, Repr

/-- The items of all shelves by their places. -/
structure ItemMemory where
  shelves : Array (Vector ItemNode shelfItems)
  deriving DecidableEq, Repr

def ItemMemory.node? (m : ItemMemory) (item : Item) : Option ItemNode :=
  m.shelves[item.home]?.bind fun nodes => nodes[item.index]?

/-- Writes to an item; `none` if there is no such item. -/
def ItemMemory.write (m : ItemMemory) (item : Item) (change : ItemNode → ItemNode) :
    Option ItemMemory :=
  (m.node? item).map fun node =>
    ⟨m.shelves.modify item.home fun nodes => nodes.setIfInBounds item.index (change node)⟩

/-- Nothing is stored yet, and every item is linked to the one after it on its shelf. -/
def ItemNode.fresh (home index : Nat) : ItemNode :=
  ⟨if index + 1 < shelfItems then some ⟨home, index + 1⟩ else none, ⟨0, 0⟩⟩

def ItemMemory.fresh (shelves : Nat) : ItemMemory :=
  ⟨Array.ofFn fun home : Fin shelves => Vector.ofFn fun index => ItemNode.fresh home index⟩

/-- Where an entry lies: an inline slot, or an item and the link that leads to it, which is that of
the item before it or, if there is none, the head of the cell. -/
inductive Slot where
  | inline (index : Nat)
  | overflow (link : Option Item) (item : Item)
  deriving DecidableEq, Repr

/-- Follows a chain to the item with a key, from `link` on. Like all that follow links it answers `none`
where an item is not there; this one also if there are more than `limit` items. -/
def ItemMemory.seek (m : ItemMemory) (key : UInt64) :
    Option Item → Option Item → Nat → Option (Option Slot)
  | _, none, _ => some none
  | _, some _, 0 => none
  | link, some item, limit + 1 =>
    (m.node? item).bind fun node =>
      if node.entry.key = key then some (some (.overflow link item))
      else m.seek key (some item) node.next limit

/-- Looks for a key along a chain and gives up, `some none`, before it visits more than `limit`
items. -/
def ItemMemory.search (m : ItemMemory) (key : UInt64) :
    Option Item → Nat → Option (Option (Option UInt64))
  | none, _ => some (some none)
  | some _, 0 => some none
  | some item, limit + 1 =>
    (m.node? item).bind fun node =>
      if node.entry.key = key then some (some (some node.entry.value))
      else m.search key node.next limit

def ItemMemory.collect (m : ItemMemory) : Option Item → Nat → Option (List Entry)
  | none, _ => some []
  | some _, 0 => none
  | some item, limit + 1 =>
    (m.node? item).bind fun node =>
      (m.collect node.next limit).map fun entries => node.entry :: entries

/-- A cell knows only the first item of its chain. -/
structure LinkedCell where
  word : CellWord
  slots : List Entry
  head : Option Item
  deriving DecidableEq, Repr

def LinkedCell.unchained (c : LinkedCell) : Cell := ⟨c.word, c.slots, []⟩

def LinkedCell.locate (c : LinkedCell) (m : ItemMemory) (held : CellWord) (key : UInt64)
    (limit : Nat) : Option (Option Slot) :=
  match (c.unchained.inlined held).findIdx? (·.key == key) with
  | some i => some (some (.inline i))
  | none => m.seek key none c.head limit

def LinkedCell.valueAt (c : LinkedCell) (m : ItemMemory) : Slot → Option UInt64
  | .inline i => c.slots[i]?.map Entry.value
  | .overflow _ item => (m.node? item).map fun node => node.entry.value

def LinkedCell.writeValue (c : LinkedCell) (m : ItemMemory) (value : UInt64) :
    Slot → Option (LinkedCell × ItemMemory)
  | .inline i => some ({ c with slots := c.slots.modify i (·.withValue value) }, m)
  | .overflow _ item =>
    (m.write item fun node => { node with entry := node.entry.withValue value }).map fun m => (c, m)

def LinkedCell.pushInline (c : LinkedCell) (held : CellWord) (entry : Entry) :
    LinkedCell × CellWord :=
  let (pushed, held) := c.unchained.pushInline held entry
  ({ c with slots := pushed.slots }, held)

def LinkedCell.pushOverflow (c : LinkedCell) (m : ItemMemory) (held : CellWord) (item : Item)
    (entry : Entry) : Option (LinkedCell × ItemMemory × CellWord) :=
  (m.write item fun _ => ⟨c.head, entry⟩).map fun m =>
    ({ c with head := some item }, m, held.withOverflow true)

/-- Lets the link of an item, or the head of the cell, lead elsewhere. -/
def LinkedCell.setLink (c : LinkedCell) (m : ItemMemory) (link next : Option Item) :
    Option (LinkedCell × ItemMemory) :=
  match link with
  | none => some ({ c with head := next }, m)
  | some before => (m.write before fun node => { node with next := next }).map fun m => (c, m)

/-- The item that is released keeps its link until it is put into a list again. -/
def LinkedCell.remove (c : LinkedCell) (m : ItemMemory) (held : CellWord) :
    Slot → Option (LinkedCell × ItemMemory × CellWord × Option Item)
  | .inline i =>
    match c.head with
    | none =>
      let (left, held, _) := c.unchained.remove held (.inline i)
      some ({ c with slots := left.slots }, m, held, none)
    | some head =>
      (m.node? head).map fun node =>
        ({ c with slots := c.slots.set i node.entry, head := node.next }, m,
          held.withOverflow node.next.isSome, some head)
  | .overflow link item =>
    (m.node? item).bind fun node =>
      (c.setLink m link node.next).map fun (c, m) =>
        (c, m, held.withOverflow c.head.isSome, some item)

def LinkedCell.entries (c : LinkedCell) (m : ItemMemory) (w : CellWord) (limit : Nat) :
    Option (List Entry) :=
  (m.collect c.head limit).map fun chained => c.unchained.inlined w ++ chained

def LinkedCell.read (c : LinkedCell) (m : ItemMemory) (key : UInt64) (limit : Nat) :
    Option Reading :=
  if c.word.isWriting then some .torn
  else
    match (c.unchained.inlined c.word).find? (·.key == key) with
    | some e => some (.consistent (some e.value) c.word.isLocked)
    | none =>
      (m.search key c.head limit).map fun found =>
        match found with
        | some value => .consistent value c.word.isLocked
        | none => .torn

/-- A shelf knows only the first of its free items. -/
structure LinkedShelf where
  free : Option Item
  available : Nat
  deriving DecidableEq, Repr

structure LinkedBlock where
  cells : Array LinkedCell
  shelves : Array LinkedShelf
  items : ItemMemory
  deriving DecidableEq, Repr

def LinkedBlock.empty (cells shelves : Nat) : LinkedBlock :=
  ⟨Array.replicate cells ⟨⟨0⟩, [], none⟩,
    Array.ofFn fun home : Fin shelves => ⟨some ⟨home, 0⟩, shelfItems⟩, .fresh shelves⟩

def LinkedBlock.itemCount (l : LinkedBlock) : Nat := l.shelves.size * shelfItems

def LinkedBlock.setCell (l : LinkedBlock) (i : Nat) (c : LinkedCell) (items : ItemMemory) :
    LinkedBlock :=
  { l with cells := l.cells.setIfInBounds i c, items := items }

def LinkedBlock.setShelf (l : LinkedBlock) (home : Nat) (shelf : LinkedShelf) (items : ItemMemory) :
    LinkedBlock :=
  { l with shelves := l.shelves.setIfInBounds home shelf, items := items }

def LinkedBlock.takeFrom (l : LinkedBlock) (home : Nat) : Option (Option (Item × LinkedBlock)) :=
  match l.shelves[home]? with
  | none => some none
  | some shelf =>
    match shelf.free with
    | none => some none
    | some item =>
      (l.items.node? item).bind fun node =>
        (l.items.write item fun node => { node with next := none }).map fun items =>
          some (item, l.setShelf home ⟨node.next, shelf.available - 1⟩ items)

/-- Tries `tries` shelves in cyclic order from `start`. -/
def LinkedBlock.probe (l : LinkedBlock) (start : Nat) : Nat → Option (Option (Item × LinkedBlock))
  | 0 => some none
  | tries + 1 =>
    (l.takeFrom (start % l.shelves.size)).bind fun taken =>
      match taken with
      | some taken => some (some taken)
      | none => l.probe (start + 1) tries

def LinkedBlock.alloc (l : LinkedBlock) (hash : UInt64) : Option (Option (Item × LinkedBlock)) :=
  l.probe (hash.toNat % l.shelves.size) l.shelves.size

def LinkedBlock.release (l : LinkedBlock) (item : Item) : Option LinkedBlock :=
  l.shelves[item.home]?.bind fun shelf =>
    (l.items.write item fun node => { node with next := shelf.free }).map fun items =>
      l.setShelf item.home ⟨some item, shelf.available + 1⟩ items

end EpochTable
