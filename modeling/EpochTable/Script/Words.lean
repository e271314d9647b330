import EpochTable.CellWord

namespace EpochTable

inductive CellWord.Change where
  /-- Sets the count, at most `inlineSlots`. -/
  | count (n : Nat)
  | overflow (value : Bool)
  | locked
  | unlocked
  | writing
  | published
  deriving DecidableEq, Repr

def CellWord.apply (w : CellWord) : CellWord.Change → CellWord
  | .count n => w.withCount n
  | .overflow value => w.withOverflow value
  | .locked => w.locked
  | .unlocked => w.unlocked
  | .writing => w.writing
  | .published => w.published

inductive CellWord.Step where
  | change (change : CellWord.Change)
  | compare (other : CellWord)
  deriving DecidableEq, Repr

inductive CellWord.Report where
  | word (word : CellWord)
  /-- Whether the contents are the same, and whether the words are. -/
  | comparison (same equal : Bool)
  deriving DecidableEq, Repr

def CellWord.run (w : CellWord) : List CellWord.Step → List CellWord.Report
  | [] => []
  | .change change :: rest => .word (w.apply change) :: (w.apply change).run rest
  | .compare other :: rest => .comparison (w.sameContents other) (w = other) :: w.run rest

end EpochTable
