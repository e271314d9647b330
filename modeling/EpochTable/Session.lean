import EpochTable.Hashing
import EpochTable.Reclaim.Activity
import EpochTable.Table.Call

namespace EpochTable

/-- A table in a session, and the realm it retires its blocks to. -/
structure Session.Opened where
  realm : Nat
  predictable : Bool
  table : Table

/-- An entry held in a session: its table, and the pin it was locked under. -/
structure Session.Held where
  table : Nat
  pin : Nat
  hold : Hold

/-- Everything is known by the order in which it came to be. A number whose thing is gone is dead, and
steps that use a dead number are invalid. -/
structure Session where
  realms : Array Realm
  handles : Array (Option Nat)
  members : Array (Option (Nat × Nat))
  pins : Array (Option Nat)
  tables : Array (Option Session.Opened)
  holds : Array (Option Session.Held)

def Session.fresh : Session := ⟨#[], #[], #[], #[], #[], #[]⟩

def Session.realm (s : Session) (i : Nat) : Realm := s.realms.getD i (.fresh 0)

def Session.handle? (s : Session) (i : Nat) : Option Nat := s.handles[i]?.join

def Session.member? (s : Session) (i : Nat) : Option (Nat × Nat) := s.members[i]?.join

def Session.table? (s : Session) (i : Nat) : Option Session.Opened := s.tables[i]?.join

def Session.hold? (s : Session) (i : Nat) : Option Session.Held := s.holds[i]?.join

/-- The realm of a pin, and the number of its member there. -/
def Session.pin? (s : Session) (i : Nat) : Option (Nat × Nat) :=
  s.pins[i]?.join.bind s.member?

def Session.record (s : Session) (realm number : Nat) : Member :=
  ((s.realm realm).member? number).getD .fresh

def Session.isPinUsed (s : Session) (pin : Nat) : Bool :=
  s.holds.any fun h => h.any fun h => h.pin = pin

def Session.isTableHeld (s : Session) (table : Nat) : Bool :=
  s.holds.any fun h => h.any fun h => h.table = table

def Session.isAlive (s : Session) (realm : Nat) : Bool :=
  s.handles.contains (some realm) || s.members.any (·.any fun m => m.1 = realm)
    || s.tables.any (·.any fun t => t.realm = realm)

def Session.setRealm (s : Session) (i : Nat) (realm : Realm) : Session :=
  { s with realms := s.realms.setIfInBounds i realm }

def Session.setTable (s : Session) (i : Nat) (opened : Option Session.Opened) : Session :=
  { s with tables := s.tables.setIfInBounds i opened }

def Session.act (s : Session) (realm : Nat) (act : Realm.Act) : Session × List Event :=
  let (r, events) := (s.realm realm).apply act
  (s.setRealm realm r, events)

/-- What happens when a reference to the realm has just gone. -/
def Session.afterLoss (s : Session) (realm : Nat) : List Event :=
  if s.isAlive realm then [] else (s.realm realm).close

/-- The state of a realm that outsiders can see. -/
structure RealmView where
  current : Nat
  tail : Nat
  entered : Nat
  pending : Nat
  reclaimed : Nat
  deriving DecidableEq, Repr

def EpochRing.view (r : EpochRing) : RealmView :=
  ⟨r.current, r.tail, r.entered.toNat, r.pending, r.reclaimed⟩

def Session.view (s : Session) (realm : Nat) : RealmView := (s.realm realm).ring.view

structure Session.Plan where
  settings : Settings
  hashing : Hashing
  /-- The handle of the realm to use; without one the table gets a realm of its own. -/
  realm : Option Nat
  /-- A table that cannot be made is a panic. -/
  insist : Bool

inductive Session.Step where
  | openRealm (threshold : Option UInt64)
  | realmOf (table : Nat)
  | dropRealm (handle : Nat)
  | realmState (handle : Nat)
  | sameRealm (first second : Nat)
  | openTable (plan : Session.Plan)
  | tableText (table : Nat)
  | tableSettings (table : Nat)
  | dropTable (table : Nat)
  | register (handle : Nat)
  | registerWith (table : Nat)
  | memberState (member : Nat)
  | resign (member : Nat)
  | acquire (member : Nat)
  | release (pin : Nat)
  | lose (pin : Nat)
  | quiesce (pin : Nat)
  | requestAdvance (pin : Nat)
  | pinText (pin : Nat)
  | pinState (pin : Nat)
  | defer (pin : Nat) (job : Job)
  | call (table pin : Nat) (call : Call)
  | dump (table pin : Nat)
  | heldValue (hold : Nat)
  | heldText (hold : Nat)
  | updateHeld (hold : Nat) (value : UInt64)
  | releaseHeld (hold : Nat)

inductive Session.Answer where
  | nothing
  /-- A dead number, or a condition of the step that does not hold. Nothing happens. -/
  | invalid
  /-- The call would wait for ever, so it is not made. -/
  | blocked
  | panic (panic : Panic)
  | number (value : Nat)
  | flag (value : Bool)
  | text (text : String)
  | result (result : CallResult)
  | held (number : Nat) (value : UInt64)
  | settings (settings : Settings)
  | realmState (threshold : Nat) (text : String)
  | memberState (member : Member)
  | pinState (member : Member)
  | block (block : Block)

/-- The reply to a step: its answer, the index and the word of the cell it was about, the realm it
used, and the numbers noted by nodes that ran meanwhile. -/
structure Session.Reply where
  answer : Session.Answer
  cell : Option (Nat × CellWord) := none
  realm : Option RealmView := none
  notes : List UInt64 := []

end EpochTable
