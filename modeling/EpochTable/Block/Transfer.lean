import EpochTable.Block

namespace EpochTable

structure Transfer where
  source : Block
  target : Block
  placed : Bool
  deriving DecidableEq, Repr

def Transfer.visit (hash : UInt64 → UInt64) (x : Transfer) (e : Entry) : Transfer :=
  if x.placed then
    match x.target.place (hash e.key) e true with
    | none => { x with placed := false }
    | some target => { x with target := target }
  else x

def Transfer.visitCell (hash : UInt64 → UInt64) (x : Transfer) (i : Nat) : Transfer :=
  let cell := x.source.cell i
  (cell.entries cell.word).foldl (visit hash) x

/-- Visits so many cells from `i` on, up to the first with an entry that finds no room. -/
def Transfer.visitCells (hash : UInt64 → UInt64) (x : Transfer) (i : Nat) : Nat → Transfer
  | 0 => x
  | rounds + 1 =>
    let x := x.visitCell hash i
    if x.placed then x.visitCells hash (i + 1) rounds else x

def Block.migrate (b source : Block) (hash : UInt64 → UInt64) : Transfer :=
  Transfer.visitCells hash ⟨source, b, true⟩ 0 source.cellCount

end EpochTable
