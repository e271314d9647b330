import EpochTable.Table.Growth

namespace EpochTable

inductive Misfit where
  | overflow
  | zeroDivisor
  /-- The size of a layout is above the largest one for its alignment. -/
  | tooLarge
  deriving DecidableEq, Repr

abbrev Exact (α : Type) := Except Misfit α

def Exact.word (n : Nat) : Exact UInt64 :=
  if n < UInt64.size then .ok (.ofNat n) else .error .overflow

def Exact.add (a b : UInt64) : Exact UInt64 := word (a.toNat + b.toNat)

def Exact.sub (a b : UInt64) : Exact UInt64 :=
  if a < b then .error .overflow else word (a.toNat - b.toNat)

def Exact.mul (a b : UInt64) : Exact UInt64 := word (a.toNat * b.toNat)

def Exact.div (a b : UInt64) : Exact UInt64 :=
  if b = 0 then .error .zeroDivisor else word (a.toNat / b.toNat)

def Exact.rem (a b : UInt64) : Exact UInt64 :=
  if b = 0 then .error .zeroDivisor else word (a.toNat % b.toNat)

structure Layout where
  size : UInt64
  align : UInt64
  deriving DecidableEq, Repr

/-- The largest size that can still be rounded up without leaving the signed numbers. -/
def Layout.largest (align : UInt64) : Exact UInt64 := Exact.sub 9223372036854775808 align

def Layout.array (element : Layout) (count : UInt64) : Exact Layout :=
  if element.size = 0 then .ok ⟨0, element.align⟩
  else do
    let largest ← Layout.largest element.align
    if (← Exact.div largest element.size) < count then .error .tooLarge
    else return ⟨← Exact.mul element.size count, element.align⟩

/-- The least multiple of `align` that is not below `size`. -/
def Layout.roundUp (size align : UInt64) : Exact UInt64 := do
  let above ← Exact.add size (← Exact.sub align 1)
  Exact.sub above (← Exact.rem above align)

/-- One layout and after it another one; also tells where the second one begins. -/
def Layout.extend (l next : Layout) : Exact (Layout × UInt64) := do
  let align := max l.align next.align
  let offset ← Layout.roundUp l.size next.align
  let size ← Exact.add offset next.size
  if (← Layout.largest align) < size then .error .tooLarge else return (⟨size, align⟩, offset)

def Layout.padded (l : Layout) : Exact Layout := do
  return ⟨← Layout.roundUp l.size l.align, l.align⟩

/-- The layout of a block, and where its shelves begin. -/
def Footprint.layout (f : Footprint) (align cells shelves : UInt64) : Exact (Layout × UInt64) := do
  let first ← Layout.array ⟨.ofNat f.cell, align⟩ cells
  let second ← Layout.array ⟨.ofNat f.shelf, align⟩ shelves
  let (whole, offset) ← first.extend second
  return (← whole.padded, offset)

def Block.allocateWord (f : Footprint) (align : UInt64) (memory : Memory) (cells shelves : UInt64) :
    Exact (Except Fault Block) :=
  match f.layout align cells shelves with
  | .error .tooLarge => .ok (.error (.capacityOverflow cells.toNat))
  | .error misfit => .error misfit
  | .ok (layout, _) =>
    .ok (if memory layout.size.toNat then .ok (Block.empty cells.toNat shelves.toNat)
      else .error (.allocation layout.size.toNat))

def Block.capacityWord (cells shelves : UInt64) : Exact UInt64 := do
  Exact.add (← Exact.mul cells (.ofNat inlineSlots)) (← Exact.mul shelves (.ofNat shelfItems))

def Settings.shelvesWord (s : Settings) (cells : UInt64) : Exact UInt64 :=
  Exact.div cells (max s.overflowRatio 1)

/-- The cells of the next block to be tried, if the settings allow that many. -/
def Settings.nextWord (s : Settings) (cells : UInt64) : Except Fault UInt64 :=
  match Exact.mul cells (.ofNat growthFactor) with
  | .ok next =>
    if next ≤ s.maxCells then .ok next else .error (.capacityOverflow next.toNat)
  | .error _ => .error (.capacityOverflow (cellLimit - 1))

/-- The shelf that is tried after `offset` others. -/
def Pool.probeWord (shelves hash offset : UInt64) : Exact UInt64 := do
  let start ← Exact.rem hash shelves
  Exact.rem (← Exact.add start offset) shelves

end EpochTable
