namespace EpochTable

inductive Hashing where
  | identity
  | const (value : UInt64)
  | mul (factor : UInt64)
  /-- Shifts right by the amount modulo 64. -/
  | shift (amount : UInt64)
  | mask (bits : UInt64)
  /-- Spreads the keys; nobody relies on where to. -/
  | scattered
  deriving DecidableEq, Repr

def scatter (key : UInt64) : UInt64 :=
  let a := key + 0x9e3779b97f4a7c15
  let b := (a ^^^ (a >>> 30)) * 0xbf58476d1ce4e5b9
  let c := (b ^^^ (b >>> 27)) * 0x94d049bb133111eb
  c ^^^ (c >>> 31)

def Hashing.hash : Hashing → UInt64 → UInt64
  | .identity, key => key
  | .const value, _ => value
  | .mul factor, key => key * factor
  | .shift amount, key => key >>> amount
  | .mask bits, key => key &&& bits
  | .scattered, key => scatter key

def Hashing.isPredictable : Hashing → Bool
  | .scattered => false
  | _ => true

end EpochTable
