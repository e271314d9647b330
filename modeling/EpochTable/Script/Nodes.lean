import EpochTable.Reclaim.Activity

namespace EpochTable

inductive Batch.Step where
  | push (job : Job)
  /-- Takes the list and drops it, which runs its nodes. -/
  | takeAndDrop
  /-- Takes the list and runs it, counting. -/
  | takeAndRun
  deriving DecidableEq, Repr

structure Batch.Report where
  executed : Option Nat
  after : Batch Job
  ran : List Job

def Batch.apply (b : Batch Job) : Batch.Step → Batch.Report
  | .push job => ⟨none, b.push job, []⟩
  | .takeAndDrop => ⟨none, b.take.2, b.take.1.nodes⟩
  | .takeAndRun => ⟨some b.take.1.nodes.length, b.take.2, b.take.1.nodes⟩

def Batch.run (b : Batch Job) : List Batch.Step → Batch Job × List Batch.Report
  | [] => (b, [])
  | step :: rest =>
    let report := b.apply step
    let (b, reports) := report.after.run rest
    (b, report :: reports)

inductive Collector.Step where
  | push (jobs : List Job)
  | release (amount : UInt64)
  | retire (entered : UInt64)
  | drain
  deriving DecidableEq, Repr

inductive Collector.Result where
  | number (value : Nat)
  | last (value : Bool)
  deriving DecidableEq, Repr

structure Collector.Report where
  result : Collector.Result
  after : Collector Job
  ran : List Job

def Collector.apply (c : Collector Job) : Collector.Step → Collector.Report
  | .push jobs =>
    let (c, size) := c.push (Batch.ofList jobs)
    ⟨.number size, c, []⟩
  | .release amount =>
    let (c, last) := c.release amount
    ⟨.last last, c, []⟩
  | .retire entered =>
    let (c, last) := c.retire entered
    ⟨.last last, c, []⟩
  | .drain =>
    let (c, jobs) := c.drain
    ⟨.number jobs.length, c, jobs⟩

def Collector.run (c : Collector Job) : List Collector.Step → Collector Job × List Collector.Report
  | [] => (c, [])
  | step :: rest =>
    let report := c.apply step
    let (c, reports) := report.after.run rest
    (c, report :: reports)

inductive EpochRing.Step where
  | enter
  | leave (seat : Seat)
  | flush (jobs : List Job)
  | advance (seat : Seat)
  deriving DecidableEq, Repr

inductive EpochRing.Result where
  | nothing
  | seat (seat : Seat)
  | flushed (seat : Seat) (size : Nat)
  | advanced (success : Bool)
  deriving DecidableEq, Repr

structure EpochRing.Report where
  result : EpochRing.Result
  after : EpochRing
  journal : List Event

/-- Does some tasks on a ring that has no members, and all that follows from them. -/
def EpochRing.carryOut (r : EpochRing) (tasks : List Task) : Activity :=
  Activity.settle ⟨.bare r, tasks, []⟩

/-- Takes one member out of a collector; the last reference starts the drain. -/
def EpochRing.leave (r : EpochRing) (seat : Seat) : Activity :=
  let (r, last) := r.release seat Collector.memberRef
  r.carryOut (if last then [.drain seat] else [])

def EpochRing.apply (r : EpochRing) : EpochRing.Step → EpochRing.Report
  | .enter =>
    let (r, seat) := r.enter
    ⟨.seat seat, r, []⟩
  | .leave seat =>
    let a := r.leave seat
    ⟨.nothing, a.realm.ring, a.journal⟩
  | .flush jobs =>
    let (r, seat, size) := r.flush (Batch.ofList (Node.number 0 jobs))
    ⟨.flushed seat size, r, []⟩
  | .advance seat =>
    let a := r.carryOut [.advance seat]
    ⟨.advanced (r.advance seat).isSome, a.realm.ring, a.journal⟩

def EpochRing.run (r : EpochRing) : List EpochRing.Step → EpochRing × List EpochRing.Report
  | [] => (r, [])
  | step :: rest =>
    let report := r.apply step
    let (r, reports) := report.after.run rest
    (r, report :: reports)

end EpochTable
