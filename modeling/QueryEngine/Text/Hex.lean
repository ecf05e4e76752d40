/-!
# Digits in base sixteen
-/

set_option autoImplicit false

namespace QueryEngine

/-- The digit of a number below sixteen, in lower case. -/
def hexDigit (n : Nat) : Char := "0123456789abcdef".toList.getD n '0'

/-- The value of a digit, in either case. -/
def hexValue? (c : Char) : Option Nat :=
  if c.isDigit then some (c.toNat - '0'.toNat)
  else if 'a' ≤ c ∧ c ≤ 'f' then some (c.toNat - 'a'.toNat + 10)
  else if 'A' ≤ c ∧ c ≤ 'F' then some (c.toNat - 'A'.toNat + 10)
  else none

/-- The `width` low digits of a number, highest first. -/
def hexText (width n : Nat) : String :=
  String.ofList ((List.range width).reverse.map fun i => hexDigit ((n >>> (4 * i)) % 16))

/-- The number with these digits. -/
def readHex? (s : String) : Option Nat :=
  s.toList.foldlM (fun n c => (hexValue? c).map fun d => n * 16 + d) 0

end QueryEngine
