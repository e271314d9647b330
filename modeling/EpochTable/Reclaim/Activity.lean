import EpochTable.Reclaim.Realm

namespace EpochTable

inductive Task where
  | advance (observed : Seat)
  | leave (member : Nat) (seat : Seat)
  /-- Counts a member that has just left in the current collector. -/
  | rejoin (member : Nat)
  | drain (seat : Seat)
  | run (node : Node)
  /-- Goes on with a running job, whose own members are known by their numbers in the realm. -/
  | proceed (own : List Nat) (script : Script)
  /-- Ends a drain that ran `executed` nodes. -/
  | finish (seat : Seat) (executed : Nat)
  deriving DecidableEq, Repr

inductive Event where
  | joined (member : Nat) (seat : Seat)
  | left (member : Nat) (seat : Seat)
  | deferred (member : Nat) (node : Node)
  /-- A batch went to a collector; its nodes, the latest first. -/
  | flushed (seat : Seat) (nodes : List Node)
  | advanced (seat : Seat)
  /-- An advance was asked for, but the collector was no longer current. -/
  | overtaken (seat : Seat)
  /-- An advance was asked for, but the next collector was not drained yet: the ring is full. -/
  | refused (seat : Seat)
  | drainBegan (seat : Seat)
  | ran (node : Node)
  | drainEnded (seat : Seat) (executed : Nat)
  deriving DecidableEq, Repr

def Event.notes (events : List Event) : List UInt64 :=
  events.filterMap fun
    | .ran node => node.job.noted
    | _ => none

/-- A realm with the tasks still to be done, the next one first, and what happened so far. -/
structure Activity where
  realm : Realm
  agenda : List Task
  journal : List Event
  deriving DecidableEq, Repr

def Activity.still (r : Realm) : Activity := ⟨r, [], []⟩

def Activity.followedBy (a : Activity) (tasks : List Task) : Activity :=
  { a with agenda := a.agenda ++ tasks }

def Realm.join (r : Realm) (i : Nat) (m : Member) (standing : Seat → Standing) : Activity :=
  let (ring, seat) := r.ring.enter
  ⟨{ r with ring := ring }.setMember i (some { m with standing := standing seat }), [],
    [.joined i seat]⟩

def Realm.acquire (r : Realm) (i : Nat) (m : Member) : Activity :=
  if m.depth = 0 then r.join i { m with depth := 1 } .acquired
  else .still (r.setMember i (some { m with depth := m.depth + 1 }))

/-- Hands a batch over, which a member does before it leaves. An advance becomes due if it was asked
for, or if the collector holds more nodes than the threshold. Nothing happens for an empty batch
without a request. -/
def Realm.handOver (r : Realm) (batch : Batch Node) (promote : Bool) : Activity :=
  if batch.isEmpty && !promote then .still r
  else
    let (ring, seat, size) := r.ring.flush batch
    let due := promote || size > ring.threshold.toNat
    ⟨{ r with ring := ring }, if due then [.advance seat] else [], [.flushed seat batch.nodes]⟩

def Realm.depart (r : Realm) (i : Nat) (m : Member) (seat : Seat) : Activity :=
  (r.handOver m.batch m.promote).followedBy [.leave i seat]

def Realm.release (r : Realm) (i : Nat) (m : Member) : Activity :=
  if m.depth ≠ 1 then .still (r.setMember i (some { m with depth := m.depth - 1 }))
  else
    match m.standing.seat? with
    | none => .still (r.setMember i (some { m with depth := 0 }))
    | some seat =>
      (r.setMember i (some { m.emptied with depth := 0, standing := .idle })).depart i m seat

def Realm.renew (r : Realm) (i : Nat) (m : Member) (seat : Seat) : Activity :=
  ((r.setMember i (some m.emptied)).depart i m seat).followedBy [.rejoin i]

/-- Passes a quiescent point. Only a member with a single pin can; it stays where it is if it is up
to date. -/
def Realm.quiesce (r : Realm) (i : Nat) (m : Member) : Activity :=
  if m.depth ≠ 1 then .still r
  else
    match m.standing.seat? with
    | none => .still r
    | some seat =>
      if m.isUpToDate r.ring seat then
        .still (r.setMember i (some { m with standing := .quiescent seat }))
      else r.renew i m seat

/-- Ends a membership. A member that is still counted because of lost pins hands its batch over and
leaves. A batch of one that is not counted is dropped, which runs its nodes. -/
def Realm.resign (r : Realm) (i : Nat) (m : Member) : Activity :=
  match m.standing.seat? with
  | none => ⟨r.setMember i none, m.batch.nodes.map .run, []⟩
  | some seat => (r.setMember i none).depart i m seat

def Realm.deferAll (r : Realm) (i : Nat) (m : Member) (jobs : List Job) : Activity :=
  let nodes := Node.number r.issued jobs
  ⟨{ r with issued := r.issued + jobs.length }.setMember i (some (nodes.foldl Member.defer m)), [],
    nodes.map (.deferred i)⟩

def Realm.retire (r : Realm) (i : Nat) (m : Member) (jobs : List Job) : Activity :=
  if jobs.isEmpty then .still r else r.deferAll i m.requestAdvance jobs

def Realm.withMember (r : Realm) (member : Option Member) (act : Member → Activity) : Activity :=
  match member with
  | none => .still r
  | some m => act m

/-- Does at once what an act does at once, and plans the rest. -/
def Realm.begin (r : Realm) : Realm.Act → Activity
  | .register => .still r.register
  | .move i .acquire => r.withMember (r.member? i) (r.acquire i)
  | .move i .release => r.withMember (r.pinned? i) (r.release i)
  | .move i .quiesce => r.withMember (r.pinned? i) (r.quiesce i)
  | .move i .requestAdvance =>
    r.withMember (r.pinned? i) fun m => .still (r.setMember i (some m.requestAdvance))
  | .move i .resign => r.withMember (r.member? i) (r.resign i)
  | .defer i job => r.withMember (r.pinned? i) fun m => r.deferAll i m [job]
  | .retire i jobs => r.withMember (r.pinned? i) fun m => r.retire i m jobs

/-- The act that a job means when it speaks of one of its own members. -/
def Realm.beginOwn (r : Realm) (own : List Nat) (k : Nat) (act : Nat → Realm.Act) : Activity :=
  match own[k]? with
  | none => .still r
  | some i => r.begin (act i)

def Realm.proceed (r : Realm) (own : List Nat) : Script → Activity
  | .done => .still r
  | .register rest => (r.begin .register).followedBy [.proceed (own ++ [r.members.length]) rest]
  | .move k move rest => (r.beginOwn own k (.move · move)).followedBy [.proceed own rest]
  | .defer k job rest => (r.beginOwn own k (.defer · job)).followedBy [.proceed own rest]

/-- Does one task; tells the realm after it, the tasks it gives rise to, and what happened. -/
def Realm.perform (r : Realm) : Task → Activity
  | .advance observed =>
    match r.ring.advance observed with
    | none =>
      ⟨r, [], [if r.ring.current = observed then .refused observed else .overtaken observed]⟩
    | some (ring, last) =>
      ⟨{ r with ring := ring }, if last then [.drain observed] else [], [.advanced observed]⟩
  | .leave i seat =>
    let (ring, last) := r.ring.release seat Collector.memberRef
    ⟨{ r with ring := ring }, if last then [.drain seat] else [], [.left i seat]⟩
  | .rejoin i => r.withMember (r.member? i) fun m => r.join i m .quiescent
  | .drain seat =>
    let (ring, nodes) := r.ring.unload seat
    ⟨{ r with ring := ring }, nodes.map .run ++ [.finish seat nodes.length], [.drainBegan seat]⟩
  | .run node => ⟨r, [.proceed [] node.job.script], [.ran node]⟩
  | .proceed own script => r.proceed own script
  | .finish seat executed =>
    let (ring, last) := r.ring.finishDrain seat executed
    ⟨{ r with ring := ring }, if last then [.drain seat.next] else [], [.drainEnded seat executed]⟩

/-- Works on the task at the top. What a task gives rise to comes before everything else. -/
def Activity.step (a : Activity) : Activity :=
  match a.agenda with
  | [] => a
  | task :: rest =>
    let b := a.realm.perform task
    ⟨b.realm, b.agenda ++ rest, a.journal ++ b.journal⟩

def Activity.steps : Nat → Activity → Activity
  | 0, a => a
  | n + 1, a => if a.agenda.isEmpty then a else a.step.steps n

/-- More tasks than a task gives rise to, those that run nodes apart. -/
def Task.effort : Task → Nat
  | .advance _ => 5
  | .leave _ _ => 5
  | .rejoin _ => 1
  | .drain _ => 4
  | .run node => node.job.effort
  | .proceed _ script => script.effort
  | .finish _ _ => 3

def Node.effort (nodes : List Node) : Nat := (nodes.map fun node => node.job.effort).foldr (· + ·) 0

/-- Two more tasks are due when only a back link keeps the collector from being drained. -/
def Collector.slack (c : Collector Node) : Nat := if c.word = backLink then 2 else 0

def Collector.effort (c : Collector Node) : Nat := Node.effort c.nodes + c.slack

def Member.effort (m : Member) : Nat := Node.effort m.batch.nodes

def EpochRing.effort (r : EpochRing) : Nat :=
  (r.collectors.toList.map Collector.effort).foldr (· + ·) 0

def Realm.effort (r : Realm) : Nat :=
  r.ring.effort + (r.members.map fun m => (m.map Member.effort).getD 0).foldr (· + ·) 0

/-- More steps than the tasks at hand can take. -/
def Activity.budget (a : Activity) : Nat :=
  (a.agenda.map Task.effort).foldr (· + ·) 0 + a.realm.effort

def Activity.settle (a : Activity) : Activity := a.steps a.budget

/-- Does an act and all that follows from it. -/
def Realm.apply (r : Realm) (act : Realm.Act) : Realm × List Event :=
  let a := (r.begin act).settle
  (a.realm, a.journal)

def Realm.run (r : Realm) : List Realm.Act → Realm × List Event
  | [] => (r, [])
  | act :: rest =>
    let (r, first) := r.apply act
    let (r, later) := r.run rest
    (r, first ++ later)

/-- What happens when the realm is dropped after its members: the nodes left run, and none of them
finds a realm to enter. -/
def Realm.close (r : Realm) : List Event := r.ring.remainder.map .ran

end EpochTable
