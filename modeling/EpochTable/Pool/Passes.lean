import EpochTable.Pool

namespace EpochTable

/-- What a shelf answers to somebody who does not wait: nothing if it is locked. -/
def Pool.tryTake (p : Pool) (locked : Nat → Bool) (home : Nat) : Option (Option (Item × Pool)) :=
  if locked home then none else some (p.takeFrom home)

/-- One round through the shelves, from the one the hash points to, until `take` gets something. -/
def Pool.round (p : Pool) (hash : UInt64) (take : Nat → Option (Item × Pool)) :
    Option (Item × Pool) :=
  let start := hash.toNat % p.shelves.size
  (List.range p.shelves.size).findSome? fun offset => take ((start + offset) % p.shelves.size)

def Pool.allocTwice (p : Pool) (locked : Nat → Bool) (hash : UInt64) : Option (Item × Pool) :=
  if p.shelves.isEmpty then none
  else
    match p.round hash fun home => (p.tryTake locked home).join with
    | some taken => some taken
    | none => p.round hash p.takeFrom

end EpochTable
