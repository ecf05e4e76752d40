import QueryEngine.Hash.Bytes

/-!
# A hash of words

Each word is mixed in by a rotation, an exclusive or and a multiplication with an odd constant.
Strings are cut into words of eight, four, two and one bytes.
-/

set_option autoImplicit false

namespace QueryEngine.WordMix

def factor : UInt64 := 0x517cc1b727220a95

/-- Mixes one word into the hash. -/
def add (h w : UInt64) : UInt64 := (((h <<< 5) ||| (h >>> 59)) ^^^ w) * factor

def word (bytes : List UInt8) : UInt64 := UInt64.ofNat (ofLittleEndian bytes)

/-- Mixes in the fewer than eight bytes at the end of a string. -/
def addRest (h : UInt64) (bytes : List UInt8) : UInt64 :=
  let afterFour := if 4 ≤ bytes.length then (add h (word (bytes.take 4)), bytes.drop 4) else (h, bytes)
  let afterTwo :=
    if 2 ≤ afterFour.2.length then
      (add afterFour.1 (word (afterFour.2.take 2)), afterFour.2.drop 2)
    else afterFour
  match afterTwo.2 with
  | b :: _ => add afterTwo.1 b.toUInt64
  | [] => afterTwo.1

/-- Mixes in a byte string. -/
def addBytes (h : UInt64) : List UInt8 → UInt64
  | a :: b :: c :: d :: e :: f :: g :: i :: rest =>
    addBytes (add h (word [a, b, c, d, e, f, g, i])) rest
  | rest => addRest h rest

end QueryEngine.WordMix
