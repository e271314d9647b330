import EpochTable.Settings

namespace EpochTable

inductive WaitAction where
  | spin
  | yield
  | sleep
  deriving DecidableEq, Repr

structure Waiter where
  policy : WaitPolicy
  attempt : UInt32
  deriving DecidableEq, Repr

def Waiter.fresh (policy : WaitPolicy) : Waiter := ⟨policy, 0⟩

def Waiter.next (w : Waiter) : WaitAction :=
  if w.attempt < w.policy.spinLimit then .spin
  else if w.attempt - w.policy.spinLimit < w.policy.yieldLimit then .yield
  else .sleep

/-- Waits once. The attempts are counted up to the largest 32-bit number and no further. -/
def Waiter.wait (w : Waiter) : WaitAction × Waiter :=
  (w.next, if w.attempt = 4294967295 then w else { w with attempt := w.attempt + 1 })

def Waiter.reset (w : Waiter) : Waiter := { w with attempt := 0 }

inductive Waiter.Step where
  | wait
  | reset
  deriving DecidableEq, Repr

/-- The actions of a run of orders, `none` for every reset. -/
def Waiter.run (w : Waiter) : List Waiter.Step → List (Option WaitAction)
  | [] => []
  | .wait :: rest => some w.next :: w.wait.2.run rest
  | .reset :: rest => none :: w.reset.run rest

end EpochTable
