import EpochTable.Block
import EpochTable.Settings

namespace EpochTable

/-- A call that needs a cell which a held entry keeps locked would wait for it. Such calls answer `none`
and leave the table as it is. -/
structure Table where
  settings : Settings
  hash : UInt64 → UInt64
  memory : Memory
  block : Block
  growing : Bool

/-- The key is what stored keys are compared with, and the hash function is applied to the seed. Where a
key is asked for as it is stored both are the same. -/
structure Query where
  key : UInt64
  seed : UInt64
  deriving DecidableEq, Repr

def Query.of (key : UInt64) : Query := ⟨key, key⟩

/-- An entry whose cell is locked: the cell, the word it is held with, where the entry lies, and its
value when it was locked. -/
structure Hold where
  cell : Nat
  held : CellWord
  place : Place
  value : UInt64
  deriving DecidableEq, Repr

/-- Makes an empty table with a first block as the settings ask for. -/
def Table.make (settings : Settings) (hash : UInt64 → UInt64) (memory : Memory) :
    Except Fault Table :=
  let cells := settings.firstCells
  if cells > settings.maxCells.toNat then .error (.capacityOverflow cells)
  else (Block.allocate .words memory cells (settings.shelvesFor cells)).map fun block =>
    { settings := settings, hash := hash, memory := memory, block := block, growing := false }

def Table.setCell (t : Table) (index : Nat) (cell : Cell) : Table :=
  { t with block := t.block.setCell index cell }

def Table.releaseItem (t : Table) (item : Item) : Table :=
  { t with block := { t.block with pool := t.block.pool.release item } }

def Table.indexOf (t : Table) (q : Query) : Nat := t.block.indexOf (t.hash q.seed)

def Table.readPass (t : Table) (q : Query) : Reading :=
  (t.block.cell (t.indexOf q)).read q.key t.block.itemCount

/-- The value of a key. A torn pass, which only a writer in the middle of its work can cause, finds
nothing. -/
def Table.find (t : Table) (q : Query) : Option UInt64 :=
  match t.readPass q with
  | .torn => none
  | .consistent value _ => value

def Table.contains (t : Table) (q : Query) : Bool := (t.find q).isSome

def Table.lockAndLocate (t : Table) (q : Query) : Option (Nat × Cell × CellWord × Option Place) :=
  let i := t.indexOf q
  (t.block.cell i).lock.map fun (cell, held) => (i, cell, held, cell.locate held q.key)

/-- Removes a key and tells whether it was there. The item it frees goes back to its shelf. -/
def Table.remove (t : Table) (q : Query) : Option (Bool × Table) :=
  match t.lockAndLocate q with
  | none => none
  | some (i, cell, held, none) => some (false, t.setCell i (cell.unlock held))
  | some (i, cell, held, some place) =>
    let (cell, held) := cell.beginWrite held
    let (cell, held, freed) := cell.remove held place
    let t := t.setCell i (cell.publish held)
    match freed with
    | none => some (true, t)
    | some item => some (true, t.releaseItem item)

def Table.hold (t : Table) (q : Query) : Option (Option Hold × Table) :=
  match t.lockAndLocate q with
  | none => none
  | some (i, cell, held, none) => some (none, t.setCell i (cell.unlock held))
  | some (i, cell, held, some place) =>
    some (some ⟨i, held, place, (cell.valueAt place).getD 0⟩, t.setCell i cell)

/-- Writes a held entry and gives its cell back. -/
def Table.updateHeld (t : Table) (h : Hold) (value : UInt64) : Table :=
  let (cell, held) := (t.block.cell h.cell).beginWrite h.held
  t.setCell h.cell ((cell.writeValue value h.place).publish held)

/-- Gives the cell of a held entry back unchanged. -/
def Table.releaseHeld (t : Table) (h : Hold) : Table :=
  t.setCell h.cell ((t.block.cell h.cell).unlock h.held)

def Cell.count (c : Cell) : Nat := (c.entries c.seize.word).length

/-- The cell after it was locked and given back unchanged. -/
def Cell.visited (c : Cell) : Cell := c.seize.unlock c.seize.word

/-- The number of entries. Every cell is locked once. -/
def Table.len (t : Table) : Option (Nat × Table) :=
  if t.block.hasLock then none
  else
    some ((t.block.cells.toList.map Cell.count).foldr (· + ·) 0,
      { t with block := { t.block with cells := t.block.cells.map Cell.visited } })

def Table.isEmpty (t : Table) : Option (Bool × Table) :=
  t.len.map fun (n, t) => (n = 0, t)

end EpochTable
