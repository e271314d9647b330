import EpochTable.Reclaim.Job

namespace EpochTable

/-- The word counts references: one for being current, one owned by the collector before it until that
one is drained, and one for every member counted in it. Members that entered while the collector is
current are added only when it is retired; until then their count in the word may lie below zero. -/
structure Collector (α : Type) where
  word : UInt64
  nodes : List α
  size : Nat
  deriving DecidableEq, Repr

variable {α : Type}

def Collector.currentRef : UInt64 := 1

def Collector.backLink : UInt64 := 2

def Collector.memberRef : UInt64 := 256

/-- The word of a collector that waits for its turn. -/
def Collector.idleWord : UInt64 := currentRef + backLink

/-- A new collector; only the first one of a ring has none before it. -/
def Collector.fresh (first : Bool) : Collector α :=
  ⟨if first then currentRef else idleWord, [], 0⟩

/-- Splices a batch in front of the list and tells the new length. -/
def Collector.push (c : Collector α) (batch : Batch α) : Collector α × Nat :=
  if batch.isEmpty then (c, c.size)
  else
    let size := c.size + batch.size
    ({ c with nodes := batch.nodes ++ c.nodes, size := size }, size)

/-- Takes `amount` off the word and tells whether that was the last reference. -/
def Collector.release (c : Collector α) (amount : UInt64) : Collector α × Bool :=
  ({ c with word := c.word - amount }, c.word = amount)

/-- Trades the reference of being current for one for each of the `entered` members, and tells
whether all of them have left already. -/
def Collector.retire (c : Collector α) (entered : UInt64) : Collector α × Bool :=
  let word := c.word + (entered * memberRef - currentRef)
  ({ c with word := word }, word = 0)

def Collector.unload (c : Collector α) : Collector α × List α :=
  ({ c with nodes := [], size := 0 }, c.nodes)

def Collector.recycle (c : Collector α) : Collector α :=
  { c with word := idleWord }

/-- Takes the list, which the caller runs, and readies the collector. -/
def Collector.drain (c : Collector α) : Collector α × List α :=
  let (c, jobs) := c.unload
  (c.recycle, jobs)

end EpochTable
