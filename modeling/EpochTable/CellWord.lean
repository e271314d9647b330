namespace EpochTable

/-- The state of a cell in one word.

| bits   | field                                                |
|--------|------------------------------------------------------|
| `0..2` | number of occupied inline slots                      |
| `2..5` | bitmap of the occupied slots, always the lowest ones |
| `5`    | a mutation is under way                              |
| `6`    | the overflow chain is not empty                      |
| `7`    | the cell is locked                                   |
| `8..`  | version, one more after every finished mutation      | -/
structure CellWord where
  raw : UInt64
  deriving DecidableEq, Repr, Inhabited

def inlineSlots : Nat := 3

def CellWord.writingBit : UInt64 := 32

def CellWord.overflowBit : UInt64 := 64

def CellWord.lockedBit : UInt64 := 128

def CellWord.versionOne : UInt64 := 256

def CellWord.count (w : CellWord) : Nat := w.raw.toNat % 4

def CellWord.occupied (w : CellWord) : Nat := w.raw.toNat / 4 % 8

def CellWord.isWriting (w : CellWord) : Bool := w.raw.toNat / 32 % 2 = 1

def CellWord.hasOverflow (w : CellWord) : Bool := w.raw.toNat / 64 % 2 = 1

def CellWord.isLocked (w : CellWord) : Bool := w.raw.toNat / 128 % 2 = 1

def CellWord.version (w : CellWord) : Nat := w.raw.toNat / 256

def CellWord.bitmap (count : Nat) : Nat := 1 <<< count - 1

/-- Sets the number of inline entries together with its bitmap; `count` is at most `inlineSlots`. -/
def CellWord.withCount (w : CellWord) (count : Nat) : CellWord :=
  ⟨w.raw - w.raw % 32 + UInt64.ofNat (count + 4 * bitmap count)⟩

def CellWord.locked (w : CellWord) : CellWord :=
  if w.isLocked then w else ⟨w.raw + lockedBit⟩

def CellWord.unlocked (w : CellWord) : CellWord :=
  if w.isLocked then ⟨w.raw - lockedBit⟩ else w

def CellWord.writing (w : CellWord) : CellWord :=
  if w.isWriting then w else ⟨w.raw + writingBit⟩

def CellWord.settled (w : CellWord) : CellWord :=
  if w.isWriting then ⟨w.raw - writingBit⟩ else w

def CellWord.withOverflow (w : CellWord) (overflow : Bool) : CellWord :=
  if w.hasOverflow = overflow then w
  else if overflow then ⟨w.raw + overflowBit⟩
  else ⟨w.raw - overflowBit⟩

/-- The word after a finished mutation: unlocked, at rest and one version ahead, which may wrap. -/
def CellWord.published (w : CellWord) : CellWord :=
  ⟨w.settled.unlocked.raw + versionOne⟩

/-- No mutation lies between the two words: they differ at most in the lock, which alone moves no
entry. -/
def CellWord.sameContents (a b : CellWord) : Bool :=
  a.unlocked = b.unlocked

end EpochTable
