namespace EpochTable

/-- How hard a waiter works before it gives the processor away: first `spinLimit` spins, then
`yieldLimit` yields, and afterwards a sleep of `sleep` nanoseconds before every attempt. -/
structure WaitPolicy where
  spinLimit : UInt32
  yieldLimit : UInt32
  sleep : UInt64
  deriving DecidableEq, Repr

def WaitPolicy.standard : WaitPolicy := ⟨64, 64, 50000⟩

/-- Yields on every attempt. -/
def WaitPolicy.yielding : WaitPolicy := ⟨0, 4294967295, 50000⟩

structure Settings where
  /-- The cells of the first block, before rounding up to a power of two. -/
  initialCells : UInt64
  /-- The number of cells that share one shelf of overflow items. -/
  overflowRatio : UInt64
  maxCells : UInt64
  wait : WaitPolicy
  /-- A collector with more jobs than this asks to be replaced. -/
  reclaimThreshold : UInt64
  deriving DecidableEq, Repr

def Settings.standard : Settings := ⟨256, 128, 4294967296, .standard, 128⟩

/-- The least power of two that is not below `n`. -/
def powerAbove (n : Nat) : Nat :=
  if n ≤ 1 then 1 else 1 <<< ((n - 1).log2 + 1)

/-- The cells of the first block: the least power of two not below the wish, or 2 ^ 63 if that is no
64-bit number. -/
def Settings.firstCells (s : Settings) : Nat :=
  min (powerAbove s.initialCells.toNat) (1 <<< 63)

def Settings.shelvesFor (s : Settings) (cells : Nat) : Nat :=
  cells / max 1 s.overflowRatio.toNat

end EpochTable
