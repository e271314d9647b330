namespace EpochTable

/-- An armed undo action, known by its number, and whether it is committed before its scope ends. -/
structure Undo where
  id : UInt64
  committed : Bool
  deriving DecidableEq, Repr

/-- The actions that run when scopes opened in this order end. -/
def Undo.unwind : List Undo → List UInt64
  | [] => []
  | u :: inner => unwind inner ++ if u.committed then [] else [u.id]

end EpochTable
