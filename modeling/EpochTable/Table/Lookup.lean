import EpochTable.Table
import EpochTable.Waiter

namespace EpochTable

/-- What a pass over a block tells in the end. The cells of a replaced block stay locked, so the reading
of a locked cell counts only if the block is still the table's. -/
def Table.accept (t : Table) (block : Block) : Reading → Option (Option UInt64)
  | .torn => none
  | .consistent value frozen => if !frozen || t.block = block then some value else none

/-- A torn reading makes the lookup wait longer and longer; after another one it starts anew. -/
def Waiter.afterPass (w : Waiter) : Reading → Waiter
  | .torn => w.wait.2
  | .consistent _ _ => w.reset

/-- Looks a key up in at most so many passes, between which nobody else changes the table; tells how far
the waiter has come by then. -/
def Table.findWithin (t : Table) (q : Query) (w : Waiter) : Nat → Option (Option UInt64 × Waiter)
  | 0 => none
  | passes + 1 =>
    let block := t.block
    let reading := (block.cell (t.indexOf q)).read q.key block.itemCount
    match t.accept block reading with
    | some value => some (value, w)
    | none => t.findWithin q (w.afterPass reading) passes

end EpochTable
