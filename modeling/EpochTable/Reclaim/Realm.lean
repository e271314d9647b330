import EpochTable.Reclaim.Member

namespace EpochTable

/-- Members are known by the order in which they joined; one that has resigned is `none`. `issued`
counts the nodes deferred so far. -/
structure Realm where
  ring : EpochRing
  members : List (Option Member)
  issued : Nat
  deriving DecidableEq, Repr

/-- An act that its member cannot do, because it has resigned or holds no pin, changes nothing. -/
inductive Realm.Act where
  | register
  | move (member : Nat) (move : Move)
  | defer (member : Nat) (job : Job)
  /-- Takes over what has been retired: defers it and asks for an advance. Without any jobs nothing
  is asked for. -/
  | retire (member : Nat) (jobs : List Job)
  deriving DecidableEq, Repr

def Realm.fresh (threshold : UInt64) : Realm := ⟨EpochRing.fresh threshold, [], 0⟩

def Realm.bare (ring : EpochRing) : Realm := ⟨ring, [], 0⟩

def Realm.member? (r : Realm) (i : Nat) : Option Member := r.members[i]?.join

def Realm.pinned? (r : Realm) (i : Nat) : Option Member :=
  (r.member? i).filter fun m => m.depth ≠ 0

def Realm.setMember (r : Realm) (i : Nat) (m : Option Member) : Realm :=
  { r with members := r.members.set i m }

def Realm.register (r : Realm) : Realm := { r with members := r.members ++ [some .fresh] }

def Realm.isDeserted (r : Realm) : Bool := r.members.all Option.isNone

end EpochTable
