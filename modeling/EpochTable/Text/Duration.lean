namespace EpochTable

/-- Writes `n` with leading zeros to a width of `width` digits. -/
def zeroPadded (width n : Nat) : String :=
  let digits := Nat.repr n
  "".pushn '0' (width - digits.length) ++ digits

def trimZeros (digits : List Char) : List Char :=
  (digits.reverse.dropWhile (· = '0')).reverse

/-- The text of a number of parts, `10 ^ digits` of which make one. -/
def renderDecimal (digits n : Nat) : String :=
  let parts := Nat.pow 10 digits
  match trimZeros (zeroPadded digits (n % parts)).toList with
  | [] => Nat.repr (n / parts)
  | fraction => Nat.repr (n / parts) ++ "." ++ String.ofList fraction

/-- The text of a span of `ns` nanoseconds. -/
def renderDuration (ns : Nat) : String :=
  if ns ≥ 1000000000 then renderDecimal 9 ns ++ "s"
  else if ns ≥ 1000000 then renderDecimal 6 ns ++ "ms"
  else if ns ≥ 1000 then renderDecimal 3 ns ++ "µs"
  else Nat.repr ns ++ "ns"

end EpochTable
