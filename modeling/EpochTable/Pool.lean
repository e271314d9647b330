import EpochTable.Cell

namespace EpochTable

def shelfItems : Nat := 10

/-- The places of the free items, the next one to be given out first, and a count of them. -/
structure Shelf where
  free : List Nat
  available : Nat
  deriving DecidableEq, Repr, Inhabited

def Shelf.full : Shelf := ⟨List.range shelfItems, shelfItems⟩

def Shelf.pop (s : Shelf) : Option (Nat × Shelf) :=
  match s.free with
  | [] => none
  | index :: rest => some (index, ⟨rest, s.available - 1⟩)

def Shelf.push (s : Shelf) (index : Nat) : Shelf :=
  ⟨index :: s.free, s.available + 1⟩

structure Pool where
  shelves : Array Shelf
  deriving DecidableEq, Repr, Inhabited

def Pool.full (shelves : Nat) : Pool := ⟨Array.replicate shelves Shelf.full⟩

def Pool.itemCount (p : Pool) : Nat := p.shelves.size * shelfItems

-- A plain fold, here and wherever else a definition that runs adds up: no algebra is needed for it.
def Pool.available (p : Pool) : Nat := (p.shelves.toList.map Shelf.available).foldr (· + ·) 0

def Pool.takeFrom (p : Pool) (home : Nat) : Option (Item × Pool) :=
  match p.shelves[home]? with
  | none => none
  | some shelf =>
    match shelf.pop with
    | none => none
    | some (index, shelf) => some (⟨home, index⟩, ⟨p.shelves.setIfInBounds home shelf⟩)

/-- Tries `tries` shelves in cyclic order from `start`. -/
def Pool.probe (p : Pool) (start : Nat) : Nat → Option (Item × Pool)
  | 0 => none
  | tries + 1 =>
    match p.takeFrom (start % p.shelves.size) with
    | some taken => some taken
    | none => p.probe (start + 1) tries

/-- Takes a free item, trying every shelf once from the one the hash points to. -/
def Pool.alloc (p : Pool) (hash : UInt64) : Option (Item × Pool) :=
  p.probe (hash.toNat % p.shelves.size) p.shelves.size

def Pool.release (p : Pool) (item : Item) : Pool :=
  ⟨p.shelves.modify item.home fun s => s.push item.index⟩

end EpochTable
