import EpochTable.Reclaim.Collector

namespace EpochTable

abbrev ringSize : Nat := 16

/-- The place of a collector in the ring; the place after the last is the first. -/
abbrev Seat := Fin ringSize

def Seat.next (s : Seat) : Seat := s + 1

def Seat.of (n : Nat) : Seat := Fin.ofNat ringSize n

/-- The index of the current collector in bits `0..4`, of the oldest collector not drained yet in
bits `4..8`, and above them the number of members that entered the current one. -/
structure MasterWord where
  raw : UInt64
  deriving DecidableEq, Repr

def MasterWord.current (w : MasterWord) : Seat := Seat.of w.raw.toNat

def MasterWord.tail (w : MasterWord) : Seat := Seat.of (w.raw.toNat / 16)

def MasterWord.entered (w : MasterWord) : UInt64 := w.raw / 256

def MasterWord.make (current tail : Seat) (entered : UInt64) : MasterWord :=
  ⟨UInt64.ofNat current + UInt64.ofNat tail * 16 + entered * 256⟩

/-- One more member entered; the count wraps. -/
def MasterWord.joined (w : MasterWord) : MasterWord := ⟨w.raw + 256⟩

/-- The next collector is current, and nobody has entered it yet. -/
def MasterWord.advanced (w : MasterWord) : MasterWord := make w.current.next w.tail 0

def MasterWord.drained (w : MasterWord) : MasterWord := make w.current w.tail.next w.entered

structure EpochRing where
  master : MasterWord
  collectors : Vector (Collector Node) ringSize
  /-- A collector with more nodes than this asks to be replaced. -/
  threshold : UInt64
  reclaimed : Nat
  deriving DecidableEq, Repr

def EpochRing.fresh (threshold : UInt64) : EpochRing :=
  ⟨⟨0⟩, Vector.ofFn fun seat => Collector.fresh (seat = 0), threshold, 0⟩

def EpochRing.current (r : EpochRing) : Seat := r.master.current

def EpochRing.tail (r : EpochRing) : Seat := r.master.tail

def EpochRing.entered (r : EpochRing) : UInt64 := r.master.entered

def EpochRing.collector (r : EpochRing) (seat : Seat) : Collector Node := r.collectors[seat]

def EpochRing.setCollector (r : EpochRing) (seat : Seat) (c : Collector Node) : EpochRing :=
  { r with collectors := r.collectors.set seat c }

def EpochRing.pending (r : EpochRing) : Nat :=
  (r.collectors.toList.map Collector.size).foldr (· + ·) 0

def EpochRing.enter (r : EpochRing) : EpochRing × Seat :=
  ({ r with master := r.master.joined }, r.current)

/-- Moves a batch to the current collector; tells which that is and its new length. -/
def EpochRing.flush (r : EpochRing) (batch : Batch Node) : EpochRing × Seat × Nat :=
  let (c, size) := (r.collector r.current).push batch
  (r.setCollector r.current c, r.current, size)

def EpochRing.release (r : EpochRing) (seat : Seat) (amount : UInt64) : EpochRing × Bool :=
  let (c, last) := (r.collector seat).release amount
  (r.setCollector seat c, last)

/-- Makes the collector after `observed` current, and tells whether nobody is left in the one
before. `none` if `observed` is not current any more, or if the ring is full. -/
def EpochRing.advance (r : EpochRing) (observed : Seat) : Option (EpochRing × Bool) :=
  if r.current ≠ observed ∨ r.tail = observed.next then none
  else
    let (c, last) := (r.collector observed).retire r.entered
    some ({ r with master := r.master.advanced }.setCollector observed c, last)

def EpochRing.unload (r : EpochRing) (seat : Seat) : EpochRing × List Node :=
  let (c, nodes) := (r.collector seat).unload
  (r.setCollector seat c, nodes)

/-- Ends the drain of a collector that ran `executed` nodes: it becomes idle, the tail moves on, and
the next collector loses its back link. Tells whether that was its last reference. -/
def EpochRing.finishDrain (r : EpochRing) (seat : Seat) (executed : Nat) : EpochRing × Bool :=
  let r := r.setCollector seat (r.collector seat).recycle
  let r := { r with master := r.master.drained, reclaimed := r.reclaimed + executed }
  r.release seat.next Collector.backLink

/-- The nodes left when the whole ring is dropped, in the order in which they run: collector after
collector. -/
def EpochRing.remainder (r : EpochRing) : List Node :=
  r.collectors.toList.flatMap Collector.nodes

def EpochRing.leftovers (r : EpochRing) : List Job := r.remainder.map Node.job

end EpochTable
