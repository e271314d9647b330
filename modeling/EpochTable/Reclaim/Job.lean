namespace EpochTable

inductive Move where
  | acquire
  /-- Drops a pin. A pin that is lost instead is no move: it stays counted. -/
  | release
  | quiesce
  | requestAdvance
  /-- Ends the membership, also one with lost pins. -/
  | resign
  deriving DecidableEq, Repr

mutual

inductive Job where
  | note (id : UInt64)
  /-- Notes a number and then, if the realm still exists, works with new members of it. -/
  | work (id : UInt64) (script : Script)
  /-- Drops a retired block of that many cells. -/
  | discard (cells : Nat)
  deriving DecidableEq, Repr

/-- The deeds of a running job, one after another. It acts through members that it registers itself
and knows by the order in which it did so. -/
inductive Script where
  | done
  | register (rest : Script)
  | move (own : Nat) (move : Move) (rest : Script)
  | defer (own : Nat) (job : Job) (rest : Script)
  deriving DecidableEq, Repr

end

/-- Enters the realm as a new member that defers a note of `inner`, asks for an advance if
`promote`, and leaves. -/
def Job.nested (id inner : UInt64) (promote : Bool) : Job :=
  let ending : Script := .move 0 .release (.move 0 .resign .done)
  .work id (.register (.move 0 .acquire (.defer 0 (.note inner)
    (if promote then .move 0 .requestAdvance ending else ending))))

def Job.noted : Job → Option UInt64
  | .note id => some id
  | .work id _ => some id
  | .discard _ => none

def Job.script : Job → Script
  | .work _ script => script
  | _ => .done

mutual

/-- More tasks than running a job and whatever it defers can take. -/
def Job.effort : Job → Nat
  | .work _ script => 1 + script.effort
  | .note _ => 2
  | .discard _ => 2

def Script.effort : Script → Nat
  | .done => 1
  | .register rest => 1 + rest.effort
  | .move _ _ rest => 12 + rest.effort
  | .defer _ job rest => 1 + job.effort + rest.effort

end

/-- A deferred job, numbered among all that were ever deferred in its realm. -/
structure Node where
  ticket : Nat
  job : Job
  deriving DecidableEq, Repr

def Node.number (first : Nat) : List Job → List Node
  | [] => []
  | job :: rest => ⟨first, job⟩ :: number (first + 1) rest

/-- Nodes not handed over yet, the latest first. `last` is the end of the list, where it is spliced
into another. -/
structure Batch (α : Type) where
  nodes : List α
  last : Option α
  size : Nat
  deriving DecidableEq, Repr

variable {α : Type}

def Batch.empty : Batch α := ⟨[], none, 0⟩

def Batch.isEmpty (b : Batch α) : Bool := b.nodes.isEmpty

def Batch.push (b : Batch α) (node : α) : Batch α :=
  ⟨node :: b.nodes, b.last <|> some node, b.size + 1⟩

def Batch.ofList (nodes : List α) : Batch α := nodes.foldl Batch.push Batch.empty

/-- The list starts and ends with the same node, or with none. -/
def Batch.isSingle (b : Batch α) : Bool :=
  match b.nodes with
  | [] | [_] => true
  | _ => false

def Batch.take (b : Batch α) : Batch α × Batch α := (b, Batch.empty)

end EpochTable
