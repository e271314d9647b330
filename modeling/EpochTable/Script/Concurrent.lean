import EpochTable.Hashing
import EpochTable.Store

namespace EpochTable

inductive WorkerStep where
  | call (call : Call)
  /-- Adds to the value of a key under its lock; the sum wraps. -/
  | add (key amount : UInt64)
  | quiesce
  deriving DecidableEq, Repr

/-- The work on one store: entries stored first, the entry the main worker holds and writes, and the
steps of the workers. The answers are the same under every schedule, so the workers are run one after
another. -/
structure Workload where
  settings : Settings
  hashing : Hashing
  prepared : List Entry
  heldEntry : Option Entry
  workers : List (List WorkerStep)

structure Workload.Report where
  workers : List (List Store.Answer)
  held : Option UInt64
  entries : List Entry
  len : Nat

/-- Replaces the value of a key under its lock and tells the old one. -/
def Store.revise (s : Store) (member : Nat) (key : UInt64) (change : UInt64 → UInt64) :
    Store × Option UInt64 :=
  match s.apply (.call member (.hold (.of key))) with
  | (locked, .result (.held (some hold)), _) =>
    ((locked.apply (.updateHeld s.holds.length (change hold.value))).1, some hold.value)
  | (s, _, _) => (s, none)

def Store.work (s : Store) (member : Nat) : WorkerStep → Store × Store.Answer
  | .call call =>
    let (s, answer, _) := s.apply (.call member call)
    (s, answer)
  | .add key amount =>
    let (s, value) := s.revise member key (· + amount)
    (s, .result (.flag value.isSome))
  | .quiesce =>
    let (s, answer, _) := s.apply (.realm (.move member .quiesce))
    (s, answer)

def Store.workAll (s : Store) (member : Nat) : List WorkerStep → Store × List Store.Answer
  | [] => (s, [])
  | step :: rest =>
    let (s, answer) := s.work member step
    let (s, answers) := s.workAll member rest
    (s, answer :: answers)

def Store.join (s : Store) : Store × Nat :=
  let member := s.realm.members.length
  ((s.run [.realm .register, .realm (.move member .acquire)]).1, member)

/-- Lets workers come, work and go, one after another. -/
def Store.employ (s : Store) : List (List WorkerStep) → Store × List (List Store.Answer)
  | [] => (s, [])
  | steps :: rest =>
    let (s, member) := s.join
    let (s, answers) := s.workAll member steps
    let (s, _) := s.run [.realm (.move member .release), .realm (.move member .resign)]
    let (s, others) := s.employ rest
    (s, answers :: others)

/-- Inserts entries, up to the first that cannot be stored. -/
def Store.prepare (s : Store) (member : Nat) : List Entry → Except Fault Store
  | [] => .ok s
  | e :: rest =>
    match s.apply (.call member (.insert e)) with
    | (_, .result (.fault fault), _) => .error fault
    | (s, _, _) => s.prepare member rest

def WorkerStep.stored? : WorkerStep → Option UInt64
  | .call (.insert e) => some e.key
  | .call (.upsert e) => some e.key
  | _ => none

/-- The keys that may be in the table at the end, in order and each once. -/
def Workload.keys (w : Workload) : List UInt64 :=
  let stored := w.prepared.map Entry.key ++ w.workers.flatten.filterMap WorkerStep.stored?
  stored.eraseDups.mergeSort (· ≤ ·)

def Workload.run (w : Workload) : Except Fault Workload.Report := do
  let fresh ← Store.make w.settings w.hashing.hash .ordinary
  let (joined, main) := fresh.join
  let prepared ← joined.prepare main w.prepared
  let (revised, held) := match w.heldEntry with
    | none => (prepared, none)
    | some e => prepared.revise main e.key fun _ => e.value
  let (final, workers) := revised.employ w.workers
  return {
    workers := workers
    held := held
    entries := w.keys.filterMap fun key => (final.table.find (.of key)).map (⟨key, ·⟩)
    len := (final.table.len.map Prod.fst).getD 0 }

end EpochTable
