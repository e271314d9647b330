import EpochTable.Block
import EpochTable.Hashing
import EpochTable.Settings

namespace EpochTable

structure Bench where
  block : Block
  held : Array (Option CellWord)
  /-- The items handed out so far, in order of first appearance. -/
  known : Array Item
  /-- The items handed out at present. -/
  taken : List Item

inductive Bench.CellStep where
  | lock
  | tryLock (seen : CellWord)
  | unlock
  | forceUnlock
  | beginWrite
  | publish
  | pushInline (entry : Entry)
  | pushOverflow (entry : Entry)
  | locate (key : UInt64)
  | value (key : UInt64)
  | writeValue (entry : Entry)
  | remove (key : UInt64)
  | read (key : UInt64) (limit : Nat)
  | inspect
  deriving DecidableEq, Repr

inductive Bench.Step where
  | dump
  | cellOf (hash : UInt64)
  | alloc (hash : UInt64)
  | release (number : Nat)
  | place (entry : Entry) (lend : Bool)
  | migrate (cells shelves : Nat) (hashing : Hashing)
  | cell (index : Nat) (step : Bench.CellStep)

inductive Bench.Spot where
  | slot (index : Nat)
  | shelf (home : Nat)
  deriving DecidableEq, Repr

inductive Bench.CellAnswer where
  | nothing
  | invalid
  | flag (value : Bool)
  | value (value : Option UInt64)
  | located (spot : Option Bench.Spot)
  | locked (result : Except CellWord CellWord)
  | item (item : Option (Nat × Nat))
  | removed (home : Option Nat)
  | reading (reading : Reading)
  | contents (inlined : List Entry) (chain : List Spill)

inductive Bench.Answer where
  | nothing
  | invalid
  | number (value : Nat)
  | dump (block : Block)
  | item (item : Option (Nat × Nat))
  | placed (placed : Bool) (word : CellWord)
  | fault (fault : Fault)
  | migrated (complete : Bool) (block : Block)
  | cell (answer : Bench.CellAnswer) (word : CellWord) (held : Option CellWord)

def Bench.of (block : Block) : Bench :=
  ⟨block, Array.replicate block.cellCount none, #[], []⟩

/-- The number of an item, a new one if it was never seen before. -/
def Bench.numberOf (b : Bench) (item : Item) : Bench × Nat :=
  match b.known.toList.findIdx? (· == item) with
  | some n => (b, n)
  | none => ({ b with known := b.known.push item }, b.known.size)

def Bench.alloc (b : Bench) (hash : UInt64) : Option (Bench × Item × Nat) :=
  match b.block.pool.alloc hash with
  | none => none
  | some (item, pool) =>
    let (b, number) := { b with block := { b.block with pool := pool } }.numberOf item
    some (b, item, number)

def Bench.setCell (b : Bench) (index : Nat) (cell : Cell) (held : Option CellWord) : Bench :=
  { b with block := b.block.setCell index cell, held := b.held.setIfInBounds index held }

/-- Takes items that a cell gave up back into the pool. -/
def Bench.giveBack (b : Bench) (item : Item) : Bench :=
  { b with block := { b.block with pool := b.block.pool.release item } }

def Cell.spot (c : Cell) : Place → Option Bench.Spot
  | .inline i => some (.slot i)
  | .overflow p => c.chain[p]?.map fun s => .shelf s.item.home

def Bench.freeStep (b : Bench) (index : Nat) (cell : Cell) (held : Option CellWord) :
    Bench.CellStep → Bench × Bench.CellAnswer
  | .lock =>
    match cell.lock with
    | none => (b, .invalid)
    | some (cell, held) => (b.setCell index cell (some held), .nothing)
  | .tryLock seen =>
    if seen.isLocked then (b, .invalid)
    else
      match cell.tryLock seen with
      | .ok (cell, held) => (b.setCell index cell (some held), .locked (.ok held))
      | .error actual => (b, .locked (.error actual))
  | .forceUnlock => (b.setCell index cell.forceUnlock none, .nothing)
  | .locate key => (b, .located ((cell.locate (held.getD cell.word) key).bind cell.spot))
  | .value key => (b, .value ((cell.locate (held.getD cell.word) key).bind cell.valueAt))
  | .read key limit => (b, .reading (cell.read key limit))
  | .inspect => (b, .contents (cell.inlined cell.word) cell.chain)
  | _ => (b, .invalid)

/-- A step on a held cell that has announced a mutation. -/
def Bench.writingStep (b : Bench) (index : Nat) (cell : Cell) (held : CellWord) :
    Bench.CellStep → Bench × Bench.CellAnswer
  | .publish => (b.setCell index (cell.publish held) none, .nothing)
  | .pushInline entry =>
    if held.count < inlineSlots then
      let (cell, held) := cell.pushInline held entry
      (b.setCell index cell (some held), .nothing)
    else (b, .invalid)
  | .pushOverflow entry =>
    match b.alloc entry.key with
    | none => (b, .nothing)
    | some (b, item, number) =>
      let (cell, held) := cell.pushOverflow held item entry
      (b.setCell index cell (some held), .item (some (number, item.home)))
  | .writeValue entry =>
    match cell.locate held entry.key with
    | none => (b, .flag false)
    | some place => (b.setCell index (cell.writeValue entry.value place) (some held), .flag true)
  | .remove key =>
    match cell.locate held key with
    | none => (b, .flag false)
    | some place =>
      let (cell, held, freed) := cell.remove held place
      let b := b.setCell index cell (some held)
      match freed with
      | none => (b, .removed none)
      | some item => (b.giveBack item, .removed (some item.home))
  | _ => (b, .invalid)

def Bench.cellStep (b : Bench) (index : Nat) (cell : Cell) (held : Option CellWord)
    (step : Bench.CellStep) : Bench × Bench.CellAnswer :=
  match step, held with
  | .lock, _ | .tryLock _, _ | .forceUnlock, _ | .locate _, _ | .value _, _ | .read _ _, _
  | .inspect, _ => b.freeStep index cell held step
  | _, none => (b, .invalid)
  | .unlock, some held =>
    if held.isWriting then (b, .invalid) else (b.setCell index (cell.unlock held) none, .nothing)
  | .beginWrite, some held =>
    let (cell, held) := cell.beginWrite held
    (b.setCell index cell (some held), .nothing)
  | step, some held => if held.isWriting then b.writingStep index cell held step else (b, .invalid)

def Bench.heldAt (b : Bench) (index : Nat) : Option CellWord := b.held[index]?.join

def Bench.apply (b : Bench) : Bench.Step → Bench × Bench.Answer
  | .dump => (b, .dump b.block)
  | .cellOf hash => (b, .number (b.block.indexOf hash))
  | .alloc hash =>
    match b.alloc hash with
    | none => (b, .nothing)
    | some (b, item, number) =>
      ({ b with taken := item :: b.taken }, .item (some (number, item.home)))
  | .release number =>
    match b.known[number]? with
    | none => (b, .invalid)
    | some item =>
      if b.taken.contains item then
        ({ b with taken := b.taken.erase item }.giveBack item, .nothing)
      else (b, .invalid)
  | .place entry lend =>
    let i := b.block.indexOf entry.key
    if (b.heldAt i).isSome then (b, .invalid)
    else
      match b.block.place entry.key entry lend with
      | none => (b, .placed false (b.block.cell i).word)
      | some block => ({ b with block := block }, .placed true (block.cell i).word)
  | .migrate cells shelves hashing =>
    match Block.allocate .words .ordinary cells shelves with
    | .error fault => (b, .fault fault)
    | .ok target =>
      let (complete, target) := target.absorb b.block hashing.hash
      (if complete then .of target else b, .migrated complete target)
  | .cell index step =>
    match b.block.cells[index]? with
    | none => (b, .invalid)
    | some cell =>
      let (b, answer) := b.cellStep index cell (b.heldAt index) step
      (b, .cell answer (b.block.cell index).word (b.heldAt index))

def Bench.run (b : Bench) : List Bench.Step → Bench × List Bench.Answer
  | [] => (b, [])
  | step :: rest =>
    let (b, answer) := b.apply step
    let (b, answers) := b.run rest
    (b, answer :: answers)

end EpochTable
