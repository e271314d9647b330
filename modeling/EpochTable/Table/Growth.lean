import EpochTable.Reclaim.Job
import EpochTable.Table

namespace EpochTable

/-- A block is replaced by one with this many times its cells. -/
def growthFactor : Nat := 4

/-- A cell count is a 64-bit number. -/
def cellLimit : Nat := UInt64.size

/-- More rounds than a block can be multiplied while its cell count is a 64-bit number. -/
def growthRounds : Nat := 40

/-- What a storing call answers, the table after it, and the blocks it retired. -/
structure Stored (α : Type) where
  result : Except Fault α
  table : Table
  retired : List Job

def Block.successor (source : Block) (settings : Settings) (hash : UInt64 → UInt64)
    (memory : Memory) : Nat → Nat → Except Fault Block
  | 0, cells => .error (.capacityOverflow cells)
  | rounds + 1, cells =>
    let next := cells * growthFactor
    if next < cellLimit ∧ next ≤ settings.maxCells.toNat then
      match Block.allocate .words memory next (settings.shelvesFor next) with
      | .error fault => .error fault
      | .ok candidate =>
        match candidate.absorb source hash with
        | (true, block) => .ok block
        | (false, _) => source.successor settings hash memory rounds next
    else .error (.capacityOverflow (min next (cellLimit - 1)))

/-- Replaces the block, all of whose cells are locked meanwhile. If no larger block can be made they
are unlocked. -/
def Table.replaceBlock (t : Table) : Option (Stored Unit) :=
  if t.block.hasLock then none
  else
    let frozen := t.block.lockAll
    match frozen.successor t.settings t.hash t.memory growthRounds frozen.cellCount with
    | .error fault => some ⟨.error fault, { t with block := frozen.forceUnlockAll }, []⟩
    | .ok block => some ⟨.ok (), { t with block := block }, [.discard frozen.cellCount]⟩

/-- Replaces the block unless somebody else is about it. -/
def Table.grow (t : Table) : Option (Stored Unit) :=
  if t.growing then none
  else
    (Table.replaceBlock { t with growing := true }).map fun stored =>
      { stored with table := { stored.table with growing := false } }

inductive Attempt where
  | waits
  /-- The entry is stored, or was there; `inserted` tells which. -/
  | done (inserted : Bool) (table : Table)
  /-- There is no room; the cell is given back. -/
  | full (table : Table)

/-- Stores an entry if its key is absent and there is room for it. A key that is there gets the new
value if `update` says so. -/
def Table.attempt (t : Table) (entry : Entry) (update : Bool) : Attempt :=
  match t.lockAndLocate (.of entry.key) with
  | none => .waits
  | some (i, cell, held, some place) =>
    if update then
      let (cell, held) := cell.beginWrite held
      .done false (t.setCell i ((cell.writeValue entry.value place).publish held))
    else .done false (t.setCell i (cell.unlock held))
  | some (i, cell, held, none) =>
    if held.count < inlineSlots then
      let (cell, held) := cell.beginWrite held
      let (cell, held) := cell.pushInline held entry
      .done true (t.setCell i (cell.publish held))
    else
      match t.block.pool.alloc (t.hash entry.key) with
      | some (item, pool) =>
        let (cell, held) := cell.beginWrite held
        let (cell, held) := cell.pushOverflow held item entry
        let t := t.setCell i (cell.publish held)
        .done true { t with block := { t.block with pool := pool } }
      | none => .full (t.setCell i (cell.unlock held))

def Table.storeWithin (t : Table) (entry : Entry) (update : Bool) : Nat → Option (Stored Bool)
  | 0 => none
  | rounds + 1 =>
    match t.attempt entry update with
    | .waits => none
    | .done inserted t => some ⟨.ok inserted, t, []⟩
    | .full t =>
      match t.grow with
      | none => none
      | some ⟨.error fault, t, retired⟩ => some ⟨.error fault, t, retired⟩
      | some ⟨.ok (), t, retired⟩ =>
        (t.storeWithin entry update rounds).map fun stored =>
          { stored with retired := retired ++ stored.retired }

/-- Stores an entry; `true` if the key was absent. -/
def Table.store (t : Table) (entry : Entry) (update : Bool) : Option (Stored Bool) :=
  t.storeWithin entry update growthRounds

def Table.insert (t : Table) (entry : Entry) : Option (Stored Bool) := t.store entry false

def Table.upsert (t : Table) (entry : Entry) : Option (Stored Bool) := t.store entry true

end EpochTable
