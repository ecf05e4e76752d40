import QueryEngine.Hash.Bytes

/-!
# The XXH64 hash

The 64-bit xxHash of a byte string with seed zero: whole stripes of 32 bytes run through four
accumulators, the rest is folded in by words of eight, four and one bytes, and a final avalanche
spreads every bit.
-/

set_option autoImplicit false

namespace QueryEngine.XXH64

def prime1 : UInt64 := 11400714785074694791
def prime2 : UInt64 := 14029467366897019727
def prime3 : UInt64 := 1609587929392839161
def prime4 : UInt64 := 9650029242287828579
def prime5 : UInt64 := 2870177450012600261

def rotateLeft (w n : UInt64) : UInt64 := (w <<< n) ||| (w >>> (64 - n))

def round (acc lane : UInt64) : UInt64 := rotateLeft (acc + lane * prime2) 31 * prime1

def mergeRound (acc value : UInt64) : UInt64 := (acc ^^^ round 0 value) * prime1 + prime4

/-- Cuts off whole words of eight bytes; the second part holds fewer than eight. -/
def words : List UInt8 → List UInt64 × List UInt8
  | a :: b :: c :: d :: e :: f :: g :: h :: rest =>
    let tail := words rest
    (UInt64.ofNat (ofLittleEndian [a, b, c, d, e, f, g, h]) :: tail.1, tail.2)
  | rest => ([], rest)

structure Accumulators where
  v1 : UInt64
  v2 : UInt64
  v3 : UInt64
  v4 : UInt64

namespace Accumulators

def start : Accumulators := ⟨prime1 + prime2, prime2, 0, 0 - prime1⟩

/-- Runs whole stripes of four words; the second part holds fewer than four. -/
def stripes (s : Accumulators) : List UInt64 → Accumulators × List UInt64
  | a :: b :: c :: d :: rest =>
    stripes ⟨round s.v1 a, round s.v2 b, round s.v3 c, round s.v4 d⟩ rest
  | rest => (s, rest)

def merged (s : Accumulators) : UInt64 :=
  let h := rotateLeft s.v1 1 + rotateLeft s.v2 7 + rotateLeft s.v3 12 + rotateLeft s.v4 18
  [s.v1, s.v2, s.v3, s.v4].foldl mergeRound h

end Accumulators

def foldWord (h w : UInt64) : UInt64 := rotateLeft (h ^^^ round 0 w) 27 * prime1 + prime4

def foldHalfWord (h w : UInt64) : UInt64 := rotateLeft (h ^^^ (w * prime1)) 23 * prime2 + prime3

def foldByte (h : UInt64) (b : UInt8) : UInt64 :=
  rotateLeft (h ^^^ (b.toUInt64 * prime5)) 11 * prime1

/-- Folds in the fewer than eight bytes that are left at the end. -/
def foldRest (h : UInt64) (rest : List UInt8) : UInt64 :=
  match rest with
  | a :: b :: c :: d :: tail =>
    tail.foldl foldByte (foldHalfWord h (UInt64.ofNat (ofLittleEndian [a, b, c, d])))
  | short => short.foldl foldByte h

def avalanche (h : UInt64) : UInt64 :=
  let h := (h ^^^ (h >>> 33)) * prime2
  let h := (h ^^^ (h >>> 29)) * prime3
  h ^^^ (h >>> 32)

/-- The hash of a byte string. -/
def hash (bytes : List UInt8) : UInt64 :=
  let cut := words bytes
  let striped := Accumulators.start.stripes cut.1
  let h := if bytes.length < 32 then prime5 else striped.1.merged
  let h := striped.2.foldl foldWord (h + UInt64.ofNat bytes.length)
  avalanche (foldRest h cut.2)

end QueryEngine.XXH64
