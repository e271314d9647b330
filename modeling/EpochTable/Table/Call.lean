import EpochTable.Table.Growth

namespace EpochTable

inductive Call where
  | insert (entry : Entry)
  | upsert (entry : Entry)
  | find (query : Query)
  | contains (query : Query)
  | remove (query : Query)
  | hold (query : Query)
  | len
  | isEmpty
  | cellCount
  | capacity
  deriving DecidableEq, Repr

def Call.query? : Call → Option Query
  | .insert entry | .upsert entry => some (.of entry.key)
  | .find q | .contains q | .remove q | .hold q => some q
  | _ => none

/-- The call takes no lock, so it never waits. -/
def Call.isLockFree : Call → Bool
  | .find _ | .contains _ | .cellCount | .capacity => true
  | _ => false

inductive CallResult where
  | flag (value : Bool)
  | number (value : Nat)
  | value (value : Option UInt64)
  | held (hold : Option Hold)
  | fault (fault : Fault)
  deriving DecidableEq, Repr

/-- A finished call: its result, the table after it, and the blocks it retired. -/
structure Finished where
  result : CallResult
  table : Table
  retired : List Job

def Stored.finished (s : Stored Bool) : Finished :=
  { result := match s.result with
      | .ok inserted => .flag inserted
      | .error fault => .fault fault
    table := s.table
    retired := s.retired }

/-- Makes a call; `none` if it would wait for a held entry. -/
def Table.call (t : Table) : Call → Option Finished
  | .insert entry => (t.insert entry).map Stored.finished
  | .upsert entry => (t.upsert entry).map Stored.finished
  | .find q => some ⟨.value (t.find q), t, []⟩
  | .contains q => some ⟨.flag (t.contains q), t, []⟩
  | .remove q => (t.remove q).map fun (removed, t) => ⟨.flag removed, t, []⟩
  | .hold q => (t.hold q).map fun (hold, t) => ⟨.held hold, t, []⟩
  | .len => t.len.map fun (n, t) => ⟨.number n, t, []⟩
  | .isEmpty => t.isEmpty.map fun (empty, t) => ⟨.flag empty, t, []⟩
  | .cellCount => some ⟨.number t.block.cellCount, t, []⟩
  | .capacity => some ⟨.number t.block.capacity, t, []⟩

end EpochTable
