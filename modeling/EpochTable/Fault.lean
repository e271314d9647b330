namespace EpochTable

inductive Fault where
  | allocation (bytes : Nat)
  /-- A block of that many cells is larger than a limit allows. -/
  | capacityOverflow (cells : Nat)
  deriving DecidableEq, Repr

def Fault.message : Fault → String
  | .allocation bytes => "failed to allocate a block of " ++ Nat.repr bytes ++ " bytes"
  | .capacityOverflow cells =>
    "a block of " ++ Nat.repr cells ++ " cells exceeds the capacity limit"

inductive Panic where
  /-- The pin given to a table counts in another realm than the table's. -/
  | foreignPin
  /-- A table that must exist could not be made. -/
  | construction (fault : Fault)
  deriving DecidableEq, Repr

def Panic.message : Panic → String
  | .foreignPin => "the guard belongs to a different reclamation domain"
  | .construction fault => fault.message

end EpochTable
