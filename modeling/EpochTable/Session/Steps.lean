import EpochTable.Session
import EpochTable.Text.Views

namespace EpochTable

abbrev Session.Outcome := Session × Session.Reply

def Session.refuse (s : Session) : Session.Outcome := (s, { answer := .invalid })

def Session.plain (s : Session) (answer : Session.Answer) : Session.Outcome :=
  (s, { answer := answer })

/-- An answer together with the realm that the step used and what happened in it. -/
def Session.inRealm (s : Session) (realm : Nat) (answer : Session.Answer) (events : List Event) :
    Session.Outcome :=
  (s, { answer := answer, realm := some (s.view realm), notes := Event.notes events })

def Session.addHandle (s : Session) (realm : Nat) : Session :=
  { s with handles := s.handles.push (some realm) }

def Session.addRealm (s : Session) (threshold : UInt64) : Session × Nat :=
  ({ s with realms := s.realms.push (.fresh threshold) }, s.realms.size)

/-- Makes a table. One that cannot be made takes no number. -/
def Session.openTable (s : Session) (plan : Session.Plan) : Session.Outcome :=
  match plan.realm.map s.handle? with
  | some none => s.refuse
  | existing =>
    match Table.make plan.settings plan.hashing.hash .ordinary with
    | .error fault =>
      s.plain (if plan.insist then .panic (.construction fault) else .result (.fault fault))
    | .ok table =>
      let (s, realm) := match existing.join with
        | some realm => (s, realm)
        | none => s.addRealm plan.settings.reclaimThreshold
      let opened : Session.Opened := ⟨realm, plan.hashing.isPredictable, table⟩
      ({ s with tables := s.tables.push (some opened) }).plain (.number s.tables.size)

def Session.registerIn (s : Session) (realm : Nat) : Session.Outcome :=
  let number := (s.realm realm).members.length
  let (s, events) := s.act realm .register
  ({ s with members := s.members.push (some (realm, number)) }).inRealm realm
    (.number s.members.size) events

/-- Ends a membership. Its live pins are lost first. -/
def Session.resign (s : Session) (member : Nat) : Session.Outcome :=
  match s.member? member with
  | none => s.refuse
  | some (realm, number) =>
    let own := fun pin => s.pins[pin]?.join == some member
    if (List.range s.pins.size).any fun pin => own pin && s.isPinUsed pin then s.refuse
    else
      let pins := s.pins.map fun owner => if owner = some member then none else owner
      let (s, events) := s.act realm (.move number .resign)
      let s := { s with pins := pins, members := s.members.setIfInBounds member none }
      s.inRealm realm .nothing (events ++ s.afterLoss realm)

/-- Ends a pin under which nothing is held, the pin dropped or lost. -/
def Session.endPin (s : Session) (pin : Nat) (dropped : Bool) : Session.Outcome :=
  match s.pin? pin with
  | none => s.refuse
  | some (realm, number) =>
    if s.isPinUsed pin then s.refuse
    else
      let (s, events) := if dropped then s.act realm (.move number .release) else (s, [])
      ({ s with pins := s.pins.setIfInBounds pin none }).inRealm realm .nothing events

def Session.actBy (s : Session) (pin : Nat) (act : Nat → Realm.Act) : Session.Outcome :=
  match s.pin? pin with
  | none => s.refuse
  | some (realm, number) =>
    let (s, events) := s.act realm (act number)
    s.inRealm realm .nothing events

/-- Makes a call, unless it would wait. The member takes over the blocks that the call retires. -/
def Session.makeCall (s : Session) (table pin : Nat) (opened : Session.Opened) (realm number : Nat)
    (call : Call) : Session × Session.Reply :=
  match opened.table.call call with
  | none => (s, { answer := .blocked })
  | some done =>
    let s := s.setTable table (some { opened with table := done.table })
    let (s, _) := s.act realm (.retire number done.retired)
    let cell := call.query?.map fun q =>
      let i := done.table.indexOf q
      (i, (done.table.block.cell i).word)
    match done.result with
    | .held (some hold) =>
      ({ s with holds := s.holds.push (some ⟨table, pin, hold⟩) },
        { answer := .held s.holds.size hold.value, cell := cell })
    | .held none => (s, { answer := .nothing, cell := cell })
    | result => (s, { answer := .result result, cell := cell })

/-- Calls a table under a pin. While an entry of an unpredictable table is held, nobody knows which
cells are free. -/
def Session.callTable (s : Session) (table pin : Nat) (call : Call) : Session.Outcome :=
  match s.table? table, s.pin? pin with
  | some opened, some (realm, number) =>
    let foreign := decide (realm ≠ opened.realm)
    let hidden := !opened.predictable && !call.isLockFree && s.isTableHeld table
    let (s, reply) :=
      if hidden then (s, { answer := .blocked })
      else if foreign then (s, { answer := .panic .foreignPin })
      else s.makeCall table pin opened realm number call
    (s, if opened.predictable then { reply with realm := some (s.view realm) }
      else { reply with cell := none })
  | _, _ => s.refuse

def Session.dump (s : Session) (table pin : Nat) : Session.Outcome :=
  match s.table? table, s.pin? pin with
  | some opened, some (realm, _) =>
    if opened.predictable then s.inRealm realm (.block opened.table.block) [] else s.plain .nothing
  | _, _ => s.refuse

/-- Uses a held entry. `change` says what becomes of its table, if the entry ends. -/
def Session.useHeld (s : Session) (hold : Nat) (answer : Hold → Session.Answer)
    (change : Option (Table → Hold → Table)) : Session.Outcome :=
  match s.hold? hold with
  | none => s.refuse
  | some held =>
    match s.table? held.table, s.pin? held.pin with
    | some opened, some (realm, _) =>
      let s := match change with
        | none => s
        | some change =>
          { s.setTable held.table (some { opened with table := change opened.table held.hold }) with
            holds := s.holds.setIfInBounds hold none }
      s.inRealm realm (answer held.hold) []
    | _, _ => s.refuse

def Session.dropTable (s : Session) (table : Nat) : Session.Outcome :=
  match s.table? table with
  | none => s.refuse
  | some opened =>
    if s.isTableHeld table then s.refuse
    else
      let s := s.setTable table none
      (s, { answer := .nothing, notes := Event.notes (s.afterLoss opened.realm) })

def Session.dropHandle (s : Session) (handle : Nat) : Session.Outcome :=
  match s.handle? handle with
  | none => s.refuse
  | some realm =>
    let s := { s with handles := s.handles.setIfInBounds handle none }
    (s, { answer := .nothing, notes := Event.notes (s.afterLoss realm) })

def Session.askMember (s : Session) (place : Option (Nat × Nat))
    (answer : Member → Session.Answer) : Session.Outcome :=
  match place with
  | none => s.refuse
  | some (realm, number) => s.inRealm realm (answer (s.record realm number)) []

def Session.askTable (s : Session) (table : Nat) (answer : Session.Opened → Session.Answer) :
    Session.Outcome :=
  match s.table? table with
  | none => s.refuse
  | some opened => s.plain (answer opened)

def Session.apply (s : Session) : Session.Step → Session.Outcome
  | .openRealm threshold =>
    let (s, realm) := s.addRealm (threshold.getD Settings.standard.reclaimThreshold)
    (s.addHandle realm).inRealm realm (.number s.handles.size) []
  | .realmOf table =>
    match s.table? table with
    | none => s.refuse
    | some opened => (s.addHandle opened.realm).plain (.number s.handles.size)
  | .dropRealm handle => s.dropHandle handle
  | .realmState handle =>
    match s.handle? handle with
    | none => s.refuse
    | some realm =>
      let ring := (s.realm realm).ring
      s.inRealm realm (.realmState ring.threshold.toNat ring.render) []
  | .sameRealm first second =>
    match s.table? first, s.table? second with
    | some a, some b => s.plain (.flag (a.realm = b.realm))
    | _, _ => s.refuse
  | .openTable plan => s.openTable plan
  | .tableText table =>
    s.askTable table fun opened => .text (opened.table.render (s.realm opened.realm).ring)
  | .tableSettings table => s.askTable table fun opened => .settings opened.table.settings
  | .dropTable table => s.dropTable table
  | .register handle =>
    match s.handle? handle with
    | none => s.refuse
    | some realm => s.registerIn realm
  | .registerWith table =>
    match s.table? table with
    | none => s.refuse
    | some opened => s.registerIn opened.realm
  | .memberState member => s.askMember (s.member? member) .memberState
  | .resign member => s.resign member
  | .acquire member =>
    match s.member? member with
    | none => s.refuse
    | some (realm, number) =>
      let (s, events) := s.act realm (.move number .acquire)
      ({ s with pins := s.pins.push (some member) }).inRealm realm (.number s.pins.size) events
  | .release pin => s.endPin pin true
  | .lose pin => s.endPin pin false
  | .quiesce pin => if s.isPinUsed pin then s.refuse else s.actBy pin (.move · .quiesce)
  | .requestAdvance pin => s.actBy pin (.move · .requestAdvance)
  | .pinText pin => s.askMember (s.pin? pin) fun m => .text m.renderPin
  | .pinState pin => s.askMember (s.pin? pin) .pinState
  | .defer pin job => s.actBy pin (.defer · job)
  | .call table pin call => s.callTable table pin call
  | .dump table pin => s.dump table pin
  | .heldValue hold => s.useHeld hold (fun h => .number h.value.toNat) none
  | .heldText hold => s.useHeld hold (fun h => .text h.render) none
  | .updateHeld hold value =>
    s.useHeld hold (fun _ => .nothing) (some fun t h => t.updateHeld h value)
  | .releaseHeld hold => s.useHeld hold (fun _ => .nothing) (some Table.releaseHeld)

def Session.run (s : Session) : List Session.Step → Session × List Session.Reply
  | [] => (s, [])
  | step :: rest =>
    let (s, reply) := s.apply step
    let (s, replies) := s.run rest
    (s, reply :: replies)

/-- How a session ends: what was noted while the pins, and then the members, went away; the realms
of the live handles at that point; and what was noted while the tables and the handles went away. -/
structure Session.Ending where
  pins : List UInt64
  members : List UInt64
  realms : List (Option RealmView)
  rest : List UInt64

def Session.notesOf (s : Session) (steps : List Session.Step) : Session × List UInt64 :=
  let (s, replies) := s.run steps
  (s, replies.flatMap fun r => r.notes)

def Session.finish (s : Session) : Session.Ending :=
  let (s, _) := s.notesOf ((List.range s.holds.size).map .releaseHeld)
  let (s, pins) := s.notesOf ((List.range s.pins.size).map .release)
  let (s, members) := s.notesOf ((List.range s.members.size).map .resign)
  let realms := s.handles.toList.map fun handle => handle.map s.view
  let (s, first) := s.notesOf ((List.range s.tables.size).map .dropTable)
  let (_, second) := s.notesOf ((List.range s.handles.size).map .dropRealm)
  ⟨pins, members, realms, first ++ second⟩

end EpochTable
