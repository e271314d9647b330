import EpochTable.Reclaim.Collector

namespace EpochTable

variable {α : Type}

structure Link (α : Type) where
  next : Option Nat
  job : α
  deriving DecidableEq, Repr

/-- Nodes by their addresses; one that has been freed is `none`. -/
structure Heap (α : Type) where
  links : List (Option (Link α))
  deriving DecidableEq, Repr

def Heap.empty : Heap α := ⟨[]⟩

def Heap.link? (h : Heap α) (a : Nat) : Option (Link α) := h.links[a]?.join

def Heap.alloc (h : Heap α) (job : α) : Heap α × Nat :=
  (⟨h.links ++ [some ⟨none, job⟩]⟩, h.links.length)

def Heap.free (h : Heap α) (a : Nat) : Heap α := ⟨h.links.set a none⟩

def Heap.setNext (h : Heap α) (a : Nat) (next : Option Nat) : Option (Heap α) :=
  (h.link? a).map fun link => ⟨h.links.set a (some { link with next := next })⟩

/-- The number of nodes that have not been freed. -/
def Heap.live (h : Heap α) : Nat := h.links.countP Option.isSome

theorem Heap.live_free {h : Heap α} {a : Nat} {link : Link α} (hl : h.link? a = some link) :
    (h.free a).live < h.live := by
  have ha : h.links[a]? = some (some link) := Option.join_eq_some_iff.mp hl
  obtain ⟨hlt, hget⟩ := List.getElem?_eq_some_iff.mp ha
  have hpos : 0 < h.links.countP Option.isSome :=
    List.countP_pos_iff.mpr ⟨some link, List.mem_of_getElem? ha, rfl⟩
  simp only [Heap.live, Heap.free, List.countP_set hlt, hget, Option.isSome_some, Option.isSome_none,
    Bool.false_eq_true, if_true, if_false]
  omega

/-- What running a list has run, in order, and how many it has counted. -/
structure Executed (α : Type) where
  jobs : List α
  count : Nat
  heap : Heap α
  deriving DecidableEq, Repr

/-- Runs and frees one node after another; the next one is read before. -/
def Heap.runAll (h : Heap α) (head : Option Nat) : Option (Executed α) :=
  match head with
  | none => some ⟨[], 0, h⟩
  | some a =>
    match hl : h.link? a with
    | none => none
    | some link =>
      ((h.free a).runAll link.next).map fun rest => ⟨link.job :: rest.jobs, rest.count + 1, rest.heap⟩
termination_by h.live
decreasing_by exact Heap.live_free hl

structure BatchLinks where
  head : Option Nat
  tail : Option Nat
  size : Nat
  deriving DecidableEq, Repr

def BatchLinks.empty : BatchLinks := ⟨none, none, 0⟩

def BatchLinks.push (b : BatchLinks) (h : Heap α) (job : α) : Option (BatchLinks × Heap α) :=
  let (h, a) := h.alloc job
  (h.setNext a b.head).map fun h => (⟨some a, b.tail <|> some a, b.size + 1⟩, h)

def BatchLinks.take (b : BatchLinks) : BatchLinks × BatchLinks := (b, empty)

structure CollectorLinks where
  head : Option Nat
  size : Nat
  deriving DecidableEq, Repr

def CollectorLinks.empty : CollectorLinks := ⟨none, 0⟩

/-- Links the last node of a batch to the first one of the list, and tells the new length. -/
def CollectorLinks.push (c : CollectorLinks) (h : Heap α) (b : BatchLinks) :
    Option (CollectorLinks × Heap α × Nat) :=
  if b.head.isNone then some (c, h, c.size)
  else
    b.tail.bind fun last => (h.setNext last c.head).map fun h =>
      (⟨b.head, c.size + b.size⟩, h, c.size + b.size)

def CollectorLinks.drain (c : CollectorLinks) (h : Heap α) : Option (CollectorLinks × Executed α) :=
  (h.runAll c.head).map fun executed => (empty, executed)

/-- What can be done with some batches and the collector that they are handed to. Batches are known by
the order in which they came to be. -/
inductive Handover.Act (α : Type) where
  | start
  | push (batch : Nat) (job : α)
  /-- The nodes of a batch become a new batch, and it goes on empty. -/
  | take (batch : Nat)
  /-- Hands a batch over, which ends it. -/
  | splice (batch : Nat)
  | drain
  deriving DecidableEq, Repr

inductive Handover.Answer (α : Type) where
  | nothing
  | size (size : Nat)
  | ran (jobs : List α) (count : Nat)
  deriving DecidableEq, Repr

structure Handover (α : Type) where
  batches : List (Option (Batch α))
  collector : Collector α

def Handover.fresh (first : Bool) : Handover α := ⟨[], .fresh first⟩

def Handover.batch? (x : Handover α) (i : Nat) : Option (Batch α) := x.batches[i]?.join

/-- An act on a batch that there is not, or not any more, does nothing. -/
def Handover.apply (x : Handover α) : Handover.Act α → Handover α × Handover.Answer α
  | .start => ({ x with batches := x.batches ++ [some .empty] }, .nothing)
  | .push i job =>
    match x.batch? i with
    | none => (x, .nothing)
    | some b => ({ x with batches := x.batches.set i (some (b.push job)) }, .nothing)
  | .take i =>
    match x.batch? i with
    | none => (x, .nothing)
    | some b =>
      let (taken, left) := b.take
      ({ x with batches := x.batches.set i (some left) ++ [some taken] }, .nothing)
  | .splice i =>
    match x.batch? i with
    | none => (x, .nothing)
    | some b =>
      let (c, size) := x.collector.push b
      (⟨x.batches.set i none, c⟩, .size size)
  | .drain =>
    let (c, jobs) := x.collector.drain
    ({ x with collector := c }, .ran jobs jobs.length)

def Handover.run (x : Handover α) :
    List (Handover.Act α) → Handover α × List (Handover.Answer α)
  | [] => (x, [])
  | act :: rest =>
    let (x, answer) := x.apply act
    let (x, answers) := x.run rest
    (x, answer :: answers)

/-- The same with nodes in memory. What is done to it answers `none` where a node is used that is gone, or
that never was. -/
structure LinkedHandover (α : Type) where
  heap : Heap α
  batches : List (Option BatchLinks)
  collector : CollectorLinks

def LinkedHandover.fresh : LinkedHandover α := ⟨.empty, [], .empty⟩

def LinkedHandover.batch? (x : LinkedHandover α) (i : Nat) : Option BatchLinks :=
  x.batches[i]?.join

def LinkedHandover.apply (x : LinkedHandover α) :
    Handover.Act α → Option (LinkedHandover α × Handover.Answer α)
  | .start => some ({ x with batches := x.batches ++ [some .empty] }, .nothing)
  | .push i job =>
    match x.batch? i with
    | none => some (x, .nothing)
    | some b => (b.push x.heap job).map fun (b, heap) =>
      ({ x with heap := heap, batches := x.batches.set i (some b) }, .nothing)
  | .take i =>
    match x.batch? i with
    | none => some (x, .nothing)
    | some b =>
      let (taken, left) := b.take
      some ({ x with batches := x.batches.set i (some left) ++ [some taken] }, .nothing)
  | .splice i =>
    match x.batch? i with
    | none => some (x, .nothing)
    | some b => (x.collector.push x.heap b).map fun (c, heap, size) =>
      (⟨heap, x.batches.set i none, c⟩, .size size)
  | .drain => (x.collector.drain x.heap).map fun (c, executed) =>
    ({ x with heap := executed.heap, collector := c }, .ran executed.jobs executed.count)

def LinkedHandover.run (x : LinkedHandover α) :
    List (Handover.Act α) → Option (LinkedHandover α × List (Handover.Answer α))
  | [] => some (x, [])
  | act :: rest =>
    (x.apply act).bind fun (x, answer) =>
      (x.run rest).map fun (x, answers) => (x, answer :: answers)

end EpochTable
