import EpochTable.Fault

namespace EpochTable

/-- How many bytes a cell and a shelf take. Both are multiples of the alignment, so no padding arises
where one follows the other in a single allocation. -/
structure Footprint where
  cell : Nat
  shelf : Nat
  deriving DecidableEq, Repr

/-- Keys and values of eight bytes each. -/
def Footprint.words : Footprint := ⟨64, 384⟩

/-- Keys and values of one byte each. -/
def Footprint.bytes : Footprint := ⟨64, 320⟩

/-- Keys of eight bytes, values of sixty-four. -/
def Footprint.wide : Footprint := ⟨256, 960⟩

/-- The largest allocation that can be described: a signed 64-bit size, rounded down to the
alignment. -/
def Footprint.limit : Nat := 1 <<< 63 - 64

def Footprint.total (f : Footprint) (cells shelves : Nat) : Nat :=
  cells * f.cell + shelves * f.shelf

/-- Which allocations, by their number of bytes, can be served. -/
abbrev Memory := Nat → Bool

/-- Memory that runs out at a petabyte. -/
def Memory.ordinary : Memory := fun bytes => bytes < 1 <<< 50

/-- Checks the size of a block against the limit, then against the memory at hand. -/
def Footprint.reserve (f : Footprint) (memory : Memory) (cells shelves : Nat) : Except Fault Unit :=
  if cells * f.cell > Footprint.limit ∨ shelves * f.shelf > Footprint.limit
      ∨ f.total cells shelves > Footprint.limit then
    .error (.capacityOverflow cells)
  else if memory (f.total cells shelves) then .ok ()
  else .error (.allocation (f.total cells shelves))

end EpochTable
