import EpochTable.Reclaim.EpochRing

namespace EpochTable

inductive Standing where
  | idle
  /-- What was loaded under the pins may be in use. -/
  | acquired (seat : Seat)
  /-- Nothing that was loaded before the last quiescent point is in use. -/
  | quiescent (seat : Seat)
  deriving DecidableEq, Repr

def Standing.seat? : Standing → Option Seat
  | .idle => none
  | .acquired seat => some seat
  | .quiescent seat => some seat

def Standing.resumed : Standing → Standing
  | .quiescent seat => .acquired seat
  | standing => standing

structure Member where
  depth : Nat
  standing : Standing
  batch : Batch Node
  promote : Bool
  deriving DecidableEq, Repr

def Member.fresh : Member := ⟨0, .idle, .empty, false⟩

def Member.defer (m : Member) (node : Node) : Member :=
  { m with batch := m.batch.push node, standing := m.standing.resumed }

def Member.requestAdvance (m : Member) : Member := { m with promote := true }

/-- The member without batch and request, which it is about to hand over. -/
def Member.emptied (m : Member) : Member := { m with batch := .empty, promote := false }

/-- There is nothing to hand over, and the member is counted in the current collector. -/
def Member.isUpToDate (m : Member) (r : EpochRing) (seat : Seat) : Bool :=
  m.batch.isEmpty && !m.promote && r.current = seat

end EpochTable
