import EpochTable.Block.Footprint
import EpochTable.Pool

namespace EpochTable

structure Block where
  cells : Array Cell
  pool : Pool
  deriving DecidableEq, Repr, Inhabited

def Block.empty (cells shelves : Nat) : Block :=
  ⟨Array.replicate cells Cell.empty, Pool.full shelves⟩

def Block.allocate (f : Footprint) (memory : Memory) (cells shelves : Nat) : Except Fault Block :=
  (f.reserve memory cells shelves).map fun _ => Block.empty cells shelves

def Block.cellCount (b : Block) : Nat := b.cells.size

def Block.shelfCount (b : Block) : Nat := b.pool.shelves.size

def Block.itemCount (b : Block) : Nat := b.pool.itemCount

def capacityOf (cells shelves : Nat) : Nat := cells * inlineSlots + shelves * shelfItems

def Block.capacity (b : Block) : Nat := capacityOf b.cellCount b.shelfCount

def cellIndex (cells : Nat) (hash : UInt64) : Nat := hash.toNat % cells

def Block.indexOf (b : Block) (hash : UInt64) : Nat := cellIndex b.cellCount hash

def Block.cell (b : Block) (index : Nat) : Cell := b.cells.getD index Cell.empty

def Block.setCell (b : Block) (index : Nat) (cell : Cell) : Block :=
  { b with cells := b.cells.setIfInBounds index cell }

def Block.entries (b : Block) : List Entry :=
  b.cells.toList.flatMap fun c => c.entries c.word

/-- The cells with a trace of use: a word that is not zero or a chain that is not empty. -/
def Block.used (b : Block) : List (Nat × Cell) :=
  b.cells.toList.zipIdx.filterMap fun (c, i) =>
    if c.word.raw ≠ 0 ∨ c.chain ≠ [] then some (i, c) else none

def Block.hasLock (b : Block) : Bool := b.cells.any fun c => c.word.isLocked

/-- Locks every cell; none of them is locked before. -/
def Block.lockAll (b : Block) : Block := { b with cells := b.cells.map Cell.seize }

def Block.forceUnlockAll (b : Block) : Block :=
  { b with cells := b.cells.map Cell.forceUnlock }

/-- Stores an entry in the cell of its hash; `none` if the inline slots are full and no item can be
had. Without `lend` the pool is left alone. The block must not be shared yet: no lock is taken. -/
def Block.place (b : Block) (hash : UInt64) (entry : Entry) (lend : Bool) : Option Block :=
  let i := b.indexOf hash
  let cell := b.cell i
  if cell.word.count < inlineSlots then
    let (cell, word) := cell.pushInline cell.word entry
    some (b.setCell i { cell with word := word })
  else
    match if lend then b.pool.alloc hash else none with
    | none => none
    | some (item, pool) =>
      let (cell, word) := cell.pushOverflow cell.word item entry
      some { b.setCell i { cell with word := word } with pool := pool }

/-- Places entries one after another up to the first that finds no room; tells whether all found
room. -/
def Block.placeAll (b : Block) (hash : UInt64 → UInt64) : List Entry → Bool × Block
  | [] => (true, b)
  | e :: rest =>
    match b.place (hash e.key) e true with
    | none => (false, b)
    | some b => b.placeAll hash rest

/-- Copies every entry of `source` into a fresh block. After a failure the block has to be thrown
away. -/
def Block.absorb (b source : Block) (hash : UInt64 → UInt64) : Bool × Block :=
  b.placeAll hash source.entries

end EpochTable
