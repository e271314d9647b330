import EpochTable.CellWord

namespace EpochTable

/-- The state word with a mask for every field but the version, which stands above the masks. -/
structure MaskedWord where
  raw : UInt64
  deriving DecidableEq, Repr

def MaskedWord.countMask : UInt64 := 0b11

def MaskedWord.occupiedShift : UInt64 := 2

def MaskedWord.occupiedMask : UInt64 := 0b111 <<< occupiedShift

def MaskedWord.writingMask : UInt64 := (1 : UInt64) <<< 5

def MaskedWord.overflowMask : UInt64 := (1 : UInt64) <<< 6

def MaskedWord.lockedMask : UInt64 := (1 : UInt64) <<< 7

def MaskedWord.versionShift : UInt64 := 8

def MaskedWord.versionOne : UInt64 := 1 <<< versionShift

def MaskedWord.count (w : MaskedWord) : UInt64 := w.raw &&& countMask

def MaskedWord.occupied (w : MaskedWord) : UInt64 := (w.raw &&& occupiedMask) >>> occupiedShift

def MaskedWord.version (w : MaskedWord) : UInt64 := w.raw >>> versionShift

def MaskedWord.isLocked (w : MaskedWord) : Bool := w.raw &&& lockedMask != 0

def MaskedWord.isWriting (w : MaskedWord) : Bool := w.raw &&& writingMask != 0

def MaskedWord.hasOverflow (w : MaskedWord) : Bool := w.raw &&& overflowMask != 0

/-- Sets the number of inline entries along with the matching bitmap; `count` is at most
`inlineSlots`. -/
def MaskedWord.withCount (w : MaskedWord) (count : UInt64) : MaskedWord :=
  let occupied := ((1 <<< count) - 1) <<< occupiedShift
  ⟨w.raw &&& ~~~(countMask ||| occupiedMask) ||| count ||| occupied⟩

def MaskedWord.withOverflow (w : MaskedWord) (overflow : Bool) : MaskedWord :=
  if overflow then ⟨w.raw ||| overflowMask⟩ else ⟨w.raw &&& ~~~overflowMask⟩

def MaskedWord.locked (w : MaskedWord) : MaskedWord := ⟨w.raw ||| lockedMask⟩

def MaskedWord.unlocked (w : MaskedWord) : MaskedWord := ⟨w.raw &&& ~~~lockedMask⟩

def MaskedWord.writing (w : MaskedWord) : MaskedWord := ⟨w.raw ||| writingMask⟩

def MaskedWord.published (w : MaskedWord) : MaskedWord :=
  ⟨(w.raw &&& ~~~(writingMask ||| lockedMask)) + versionOne⟩

def MaskedWord.sameContents (a b : MaskedWord) : Bool :=
  a.raw ||| lockedMask == b.raw ||| lockedMask

end EpochTable
