import QueryEngine.Binary.Number
import QueryEngine.Text.Hex

/-!
# Bit patterns in base sixteen
-/

set_option autoImplicit false

namespace QueryEngine.Binary

variable {f : BinaryFormat}

/-- All bits of a number in base sixteen. -/
def hex (x : Binary f) : String := hexText (f.width / 4) x.toNat

/-- The number with these bits. -/
def ofHex? (s : String) : Option (Binary f) := (readHex? s).map fun n => ⟨BitVec.ofNat _ n⟩

end QueryEngine.Binary
