import QueryEngine.Binary.Number
import QueryEngine.Hash.Bytes

/-!
# A seeded stream of random words

The stream is the keystream of ChaCha with twelve rounds. The key is spread from a 64-bit seed,
the block counter starts at zero, and the words of each block are used in order. A draw from the
unit interval takes the upper 24 bits of a word, so it is a multiple of `2⁻²⁴` below one.
-/

set_option autoImplicit false

namespace QueryEngine.ChaCha

def rotateLeft (w n : UInt32) : UInt32 := (w <<< n) ||| (w >>> (32 - n))

/-- One step of the generator that spreads a seed: the new state and a word. -/
def spreadStep (state : UInt64) : UInt64 × UInt32 :=
  let state := state * 6364136223846793005 + 11634580027462260723
  let mixed := (((state >>> 18) ^^^ state) >>> 27).toUInt32
  let turn := (state >>> 59).toUInt32
  (state, (mixed >>> turn) ||| (mixed <<< ((32 - turn) % 32)))

/-- `n` words spread from a seed. -/
def spread (state : UInt64) : Nat → List UInt32
  | 0 => []
  | n + 1 =>
    let step := spreadStep state
    step.2 :: spread step.1 n

/-- Four words of the state, mixed together by a quarter round. -/
def quarter (a b c d : UInt32) : UInt32 × UInt32 × UInt32 × UInt32 :=
  let a := a + b
  let d := rotateLeft (d ^^^ a) 16
  let c := c + d
  let b := rotateLeft (b ^^^ c) 12
  let a := a + b
  let d := rotateLeft (d ^^^ a) 8
  let c := c + d
  let b := rotateLeft (b ^^^ c) 7
  (a, b, c, d)

/-- A quarter round on the words at the given places. -/
def mixAt (s : List UInt32) (i j k l : Nat) : List UInt32 :=
  let r := quarter (s.getD i 0) (s.getD j 0) (s.getD k 0) (s.getD l 0)
  (((s.set i r.1).set j r.2.1).set k r.2.2.1).set l r.2.2.2

/-- A round over the columns and a round over the diagonals. -/
def doubleRound (s : List UInt32) : List UInt32 :=
  let s := mixAt (mixAt (mixAt (mixAt s 0 4 8 12) 1 5 9 13) 2 6 10 14) 3 7 11 15
  mixAt (mixAt (mixAt (mixAt s 0 5 10 15) 1 6 11 12) 2 7 8 13) 3 4 9 14

def rounds (s : List UInt32) : Nat → List UInt32
  | 0 => s
  | n + 1 => rounds (doubleRound s) n

/-- The sixteen words of a block. -/
def block (key : List UInt32) (counter : UInt64) : List UInt32 :=
  let constants : List UInt32 := [0x61707865, 0x3320646e, 0x79622d32, 0x6b206574]
  let start := constants ++ key ++
    [counter.toUInt32, (counter >>> 32).toUInt32, 0, 0]
  List.zipWith (· + ·) (rounds start 6) start

end ChaCha

/-- A place in a random stream: the words left of the current block and the next block's number. -/
structure RandomStream where
  key : List UInt32
  pending : List UInt32
  counter : UInt64

namespace RandomStream

def ofSeed (seed : UInt64) : RandomStream := ⟨ChaCha.spread seed 8, [], 0⟩

/-- The next word. -/
def next (s : RandomStream) : UInt32 × RandomStream :=
  match s.pending with
  | w :: rest => (w, { s with pending := rest })
  | [] =>
    let fresh := ChaCha.block s.key s.counter
    (fresh.headD 0, { s with pending := fresh.tail, counter := s.counter + 1 })

/-- A number drawn from the unit interval, below one. -/
def nextUnit (s : RandomStream) : Binary32 × RandomStream :=
  let drawn := s.next
  (Binary.ofQuotient false (drawn.1 >>> 8).toNat (Nat.pow 2 24), drawn.2)

end RandomStream

end QueryEngine
