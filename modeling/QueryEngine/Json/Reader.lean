import QueryEngine.Json.Basic
import QueryEngine.Decimal.Scaled

/-!
# Reading JSON documents

`Json.parse?` accepts exactly one document with blanks around it. Numbers keep their literal and
are given a value by `readNumber`. Parts that nobody asks for are only skimmed: their texts may
hold halves of characters.
-/

set_option autoImplicit false

namespace QueryEngine.Json

def isBlank (c : Char) : Bool := c == ' ' || c == '\n' || c == '\t' || c == '\r'

def skipBlanks (cs : List Char) : List Char := cs.dropWhile isBlank

/-- Drops a word from the front of the text. -/
def expect (word : List Char) (cs : List Char) : Option (List Char) :=
  if word.isPrefixOf cs then some (cs.drop word.length) else none

/-- Which parts of a document are read with care; the others are skimmed. -/
inductive Care where
  | everything
  /-- Everything but those fields of the outermost object that have another name. -/
  | fields (names : List String)
  | nothing
deriving DecidableEq

namespace Care

/-- The care for the items of an array. -/
def ofItems : Care → Care
  | nothing => nothing
  | _ => everything

/-- The care for the value of a field. -/
def ofField (name : String) : Care → Care
  | everything => everything
  | fields names => if name ∈ names then everything else nothing
  | nothing => nothing

end Care

/-! ## Texts -/

/-- Four hexadecimal digits. -/
def codeUnit? : List Char → Option (Nat × List Char)
  | a :: b :: c :: d :: rest => do
    let a ← hexValue? a
    let b ← hexValue? b
    let c ← hexValue? c
    let d ← hexValue? d
    return (((a * 16 + b) * 16 + c) * 16 + d, rest)
  | _ => none

def isHighSurrogate (n : Nat) : Bool := 0xd800 ≤ n && n < 0xdc00

def isLowSurrogate (n : Nat) : Bool := 0xdc00 ≤ n && n < 0xe000

/-- The character after `\u`; two surrogates make one character and none stands alone. In skimming,
surrogates count as unknown characters. -/
def unicodeEscape? (care : Care) (cs : List Char) : Option (Char × List Char) := do
  let (unit, rest) ← codeUnit? cs
  if !isLowSurrogate unit && !isHighSurrogate unit then return (Char.ofNat unit, rest)
  else if care = .nothing then return (Char.ofNat 0xfffd, rest)
  else if isLowSurrogate unit then none
  else
    let rest ← expect ['\\', 'u'] rest
    let (low, rest) ← codeUnit? rest
    if isLowSurrogate low then
      return (Char.ofNat (0x10000 + (unit - 0xd800) * 0x400 + (low - 0xdc00)), rest)
    else none

/-- The character after a backslash. -/
def escape? (care : Care) : List Char → Option (Char × List Char)
  | 'u' :: rest => unicodeEscape? care rest
  | c :: rest =>
    if c = '"' ∨ c = '\\' ∨ c = '/' then some (c, rest)
    else if c = 'b' then some (Char.ofNat 8, rest)
    else if c = 'f' then some (Char.ofNat 12, rest)
    else if c = 'n' then some ('\n', rest)
    else if c = 'r' then some ('\r', rest)
    else if c = 't' then some ('\t', rest)
    else none
  | [] => none

/-- The characters up to the closing quote. `fuel` bounds their number. -/
def textChars? (care : Care) : Nat → List Char → Option (List Char × List Char)
  | 0, _ => none
  | _ + 1, [] => none
  | fuel + 1, c :: rest =>
    if c = '"' then some ([], rest)
    else if c = '\\' then do
      let (d, rest) ← escape? care rest
      let (ds, rest) ← textChars? care fuel rest
      return (d :: ds, rest)
    else if c.toNat < 32 then none
    else do
      let (ds, rest) ← textChars? care fuel rest
      return (c :: ds, rest)

/-- A text without its opening quote. -/
def text? (care : Care) (cs : List Char) : Option (String × List Char) := do
  let (chars, rest) ← textChars? care (cs.length + 1) cs
  return (String.ofList chars, rest)

/-! ## Numbers -/

/-- The longest run of digits at the front. -/
def digitsOf (cs : List Char) : List Char × List Char := cs.span Char.isDigit

/-- A number: an optional minus, a whole part without leading zeros, then optionally a fraction and
an exponent. -/
structure NumberParts where
  negative : Bool
  whole : List Char
  fraction : Option (List Char)
  /-- The sign and the digits of the exponent. -/
  exponent : Option (Bool × List Char)

def fraction? (cs : List Char) : Option (Option (List Char) × List Char) :=
  match cs with
  | '.' :: rest =>
    match digitsOf rest with
    | ([], _) => none
    | (ds, rest) => some (some ds, rest)
  | _ => some (none, cs)

def exponent? (cs : List Char) : Option (Option (Bool × List Char) × List Char) :=
  match cs with
  | c :: rest =>
    if c = 'e' ∨ c = 'E' then
      let signed := match rest with
        | '-' :: r => (true, r)
        | '+' :: r => (false, r)
        | r => (false, r)
      match digitsOf signed.2 with
      | ([], _) => none
      | (ds, rest) => some (some (signed.1, ds), rest)
    else some (none, cs)
  | [] => some (none, cs)

def numberParts? (cs : List Char) : Option (NumberParts × List Char) := do
  let (negative, cs) := match cs with
    | '-' :: rest => (true, rest)
    | rest => (false, rest)
  let (whole, rest) := digitsOf cs
  if whole = [] ∨ (whole.head? = some '0' ∧ whole ≠ ['0']) then none
  else
    let (fraction, rest) ← fraction? rest
    let (exponent, rest) ← exponent? rest
    return (⟨negative, whole, fraction, exponent⟩, rest)

/-- A number as it is read: a count, a negative integer or a real number. -/
inductive NumberReading where
  | count (n : UInt64)
  | negative (n : Int64)
  | real (x : Binary64)

def digitValues (cs : List Char) : List Nat := cs.map fun c => c.toNat - '0'.toNat

/-- The largest exponent that is read digit by digit. -/
def largestExponent : Nat := 2147483647

/-- The value of `significand * 10 ^ (start + exponent)`; exponents beyond reach give zero or
nothing. -/
def scaledBy (significand : Nat) (start : Int) : Option (Bool × List Char) → Option Binary64
  | none => Binary.ofScaled significand start
  | some (down, ds) =>
    let e := Nat.ofDigitChars 10 ds 0
    if largestExponent < e then
      if significand = 0 ∨ down then some Binary.zero else none
    else Binary.ofScaled significand (if down then start - e else start + e)

/-- The value of a number with a fraction, an exponent or too many digits, its sign left aside. -/
def NumberParts.real? (p : NumberParts) : Option Binary64 :=
  let whole := appendDigits 0 (digitValues p.whole)
  let fraction := appendDigits whole.1 (digitValues (p.fraction.getD []))
  let taken := (p.fraction.getD []).length - fraction.2.length
  scaledBy fraction.1 ((whole.2.length : Int) - taken) p.exponent

/-- The value of a number; integers that fit a word stay exact, and `-0` is a real number. -/
def NumberParts.read? (p : NumberParts) : Option NumberReading :=
  let n := Nat.ofDigitChars 10 p.whole 0
  if p.fraction.isNone && p.exponent.isNone && n ≤ largestSignificand then
    if !p.negative then some (.count (UInt64.ofNat n))
    else if 0 < n ∧ Int64.minValue.toInt ≤ -(n : Int) then some (.negative (Int64.ofInt (-n)))
    else some (.real (Binary.ofNat n : Binary64).negate)
  else p.real?.map fun x => .real (if p.negative then x.negate else x)

/-- The value of a number's literal. -/
def readNumber (literal : String) : Option NumberReading := do
  let (parts, rest) ← numberParts? literal.toList
  if rest.isEmpty then parts.read? else none

def number? (cs : List Char) : Option (Json × List Char) := do
  let (_, rest) ← numberParts? cs
  return (.number (String.ofList (cs.take (cs.length - rest.length))), rest)

/-! ## Documents -/

mutual

/-- A document at the front of the text; `fuel` bounds the number of its parts. -/
def value? : Nat → Care → List Char → Option (Json × List Char)
  | 0, _, _ => none
  | fuel + 1, care, cs =>
    match skipBlanks cs with
    | '"' :: rest => (text? care rest).map fun (s, rest) => (.text s, rest)
    | '[' :: rest =>
      match skipBlanks rest with
      | ']' :: rest => some (.array [], rest)
      | rest => (items? fuel care.ofItems rest).map fun (items, rest) => (.array items, rest)
    | '\x7b' :: rest =>
      match skipBlanks rest with
      | '\x7d' :: rest => some (.object [], rest)
      | rest => (fields? fuel care rest).map fun (fields, rest) => (.object fields, rest)
    | 'n' :: rest => (expect "ull".toList rest).map fun rest => (.null, rest)
    | 't' :: rest => (expect "rue".toList rest).map fun rest => (.bool true, rest)
    | 'f' :: rest => (expect "alse".toList rest).map fun rest => (.bool false, rest)
    | rest => number? rest

/-- The items of an array, all read with the same care. -/
def items? : Nat → Care → List Char → Option (List Json × List Char)
  | 0, _, _ => none
  | fuel + 1, care, cs => do
    let (item, rest) ← value? fuel care cs
    match skipBlanks rest with
    | ',' :: rest =>
      let (items, rest) ← items? fuel care rest
      return (item :: items, rest)
    | ']' :: rest => return ([item], rest)
    | _ => none

/-- The fields of an object that is read with some care. -/
def fields? : Nat → Care → List Char → Option (List (String × Json) × List Char)
  | 0, _, _ => none
  | fuel + 1, care, cs => do
    let rest ← expect ['"'] (skipBlanks cs)
    let (key, rest) ← text? care rest
    let rest ← expect [':'] (skipBlanks rest)
    let (value, rest) ← value? fuel (care.ofField key) rest
    match skipBlanks rest with
    | ',' :: rest =>
      let (fields, rest) ← fields? fuel care rest
      return ((key, value) :: fields, rest)
    | '\x7d' :: rest => return ([(key, value)], rest)
    | _ => none

end

/-- The document that a text holds, with nothing but blanks around it. -/
def parse? (care : Care) (s : String) : Option Json := do
  let (document, rest) ← value? (s.length + 1) care s.toList
  if (skipBlanks rest).isEmpty then some document else none

end QueryEngine.Json
