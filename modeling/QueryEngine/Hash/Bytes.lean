/-!
# Words as little-endian bytes
-/

set_option autoImplicit false

namespace QueryEngine

/-- The `n` low bytes of a number, lowest first. -/
def littleEndian (n : Nat) (value : Nat) : List UInt8 :=
  (List.range n).map fun i => UInt8.ofNat (value >>> (8 * i))

def bytes32 (w : UInt32) : List UInt8 := littleEndian 4 w.toNat

def bytes64 (w : UInt64) : List UInt8 := littleEndian 8 w.toNat

/-- The number with the given bytes, lowest first. -/
def ofLittleEndian : List UInt8 → Nat
  | [] => 0
  | b :: rest => b.toNat + 256 * ofLittleEndian rest

/-- The UTF-8 bytes of a text. -/
def utf8Bytes (s : String) : List UInt8 := s.toByteArray.data.toList

end QueryEngine
