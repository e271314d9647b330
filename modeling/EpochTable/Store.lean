import EpochTable.Reclaim.Activity
import EpochTable.Table.Call

namespace EpochTable

/-- Holds are known by the order in which they were taken; one that has ended is `none`. -/
structure Store where
  table : Table
  realm : Realm
  holds : List (Option Hold)

inductive Store.Act where
  | realm (act : Realm.Act)
  | call (member : Nat) (call : Call)
  | updateHeld (hold : Nat) (value : UInt64)
  | releaseHeld (hold : Nat)
  /-- From now on these are the allocations that can be served. -/
  | setMemory (memory : Memory)

inductive Store.Answer where
  | nothing
  /-- The member holds no pin, or the hold has ended. Nothing happens. -/
  | invalid
  /-- The call needs a cell that is held. Nothing happens. -/
  | waits
  | result (result : CallResult)
  deriving DecidableEq, Repr

def Store.make (settings : Settings) (hash : UInt64 → UInt64) (memory : Memory) :
    Except Fault Store :=
  (Table.make settings hash memory).map fun table =>
    ⟨table, .fresh settings.reclaimThreshold, []⟩

def Store.hold? (s : Store) (i : Nat) : Option Hold := s.holds[i]?.join

def CallResult.hold? : CallResult → Option Hold
  | .held hold => hold
  | _ => none

/-- Does one act; the member of a call takes over the blocks that it retires. -/
def Store.apply (s : Store) : Store.Act → Store × Store.Answer × List Event
  | .realm act =>
    let (realm, events) := s.realm.apply act
    ({ s with realm := realm }, .nothing, events)
  | .call i call =>
    if (s.realm.pinned? i).isNone then (s, .invalid, [])
    else
      match s.table.call call with
      | none => (s, .waits, [])
      | some done =>
        let (realm, events) := s.realm.apply (.retire i done.retired)
        let holds := s.holds ++ (done.result.hold?.map some).toList
        (⟨done.table, realm, holds⟩, .result done.result, events)
  | .updateHeld i value =>
    match s.hold? i with
    | none => (s, .invalid, [])
    | some hold =>
      ({ s with table := s.table.updateHeld hold value, holds := s.holds.set i none }, .nothing, [])
  | .releaseHeld i =>
    match s.hold? i with
    | none => (s, .invalid, [])
    | some hold =>
      ({ s with table := s.table.releaseHeld hold, holds := s.holds.set i none }, .nothing, [])
  | .setMemory memory => ({ s with table := { s.table with memory := memory } }, .nothing, [])

def Store.run (s : Store) : List Store.Act → Store × List Store.Answer × List Event
  | [] => (s, [], [])
  | act :: rest =>
    let (s, answer, first) := s.apply act
    let (s, answers, later) := s.run rest
    (s, answer :: answers, first ++ later)

end EpochTable
