import QueryEngine.Toml.Basic
import QueryEngine.Text.Hex

/-!
# Reading TOML documents

`Toml.parse?` reads a document line by line: comments, headers, and keys with values.
-/

set_option autoImplicit false

namespace QueryEngine.Toml

def isSpace (c : Char) : Bool := c == ' ' || c == '\t'

def skipSpaces (cs : List Char) : List Char := cs.dropWhile isSpace

/-- Whether a character may stand in comments and texts; line ends are not among these. -/
def isPrintable (c : Char) : Bool := c == '\t' || (32 ≤ c.toNat && c.toNat != 127)

/-- Drops a word from the front of the text. -/
def dropWord (word : List Char) (cs : List Char) : Option (List Char) :=
  if word.isPrefixOf cs then some (cs.drop word.length) else none

/-- Drops a line end. -/
def newline? : List Char → Option (List Char)
  | '\n' :: rest => some rest
  | '\r' :: '\n' :: rest => some rest
  | _ => none

/-- Drops a comment, if there is one. -/
def skipComment : List Char → List Char
  | '#' :: rest => rest.dropWhile isPrintable
  | cs => cs

/-- Drops what may follow a header or a value on its line, and the line end. -/
def lineEnd? (cs : List Char) : Option (List Char) :=
  match skipComment (skipSpaces cs) with
  | [] => some []
  | rest => newline? rest

/-- Drops blanks, comments and line ends; `fuel` bounds their number. -/
def skipLines : Nat → List Char → List Char
  | 0, cs => cs
  | fuel + 1, cs =>
    let rest := skipSpaces cs
    match newline? rest with
    | some rest => skipLines fuel rest
    | none =>
      match rest with
      | '#' :: _ => skipLines fuel (skipComment rest)
      | _ => rest

/-! ## Texts -/

/-- The character with a number of `n` hexadecimal digits. -/
def codePoint? (n : Nat) (cs : List Char) : Option (Char × List Char) := do
  let digits ← (cs.take n).mapM hexValue?
  let code := digits.foldl (fun acc d => acc * 16 + d) 0
  if digits.length = n ∧ code.isValidChar then some (Char.ofNat code, cs.drop n) else none

/-- The character after a backslash. -/
def escaped? : List Char → Option (Char × List Char)
  | 'u' :: rest => codePoint? 4 rest
  | 'U' :: rest => codePoint? 8 rest
  | c :: rest =>
    if c = '"' ∨ c = '\\' then some (c, rest)
    else if c = 'b' then some (Char.ofNat 8, rest)
    else if c = 't' then some ('\t', rest)
    else if c = 'n' then some ('\n', rest)
    else if c = 'f' then some (Char.ofNat 12, rest)
    else if c = 'r' then some ('\r', rest)
    else none
  | [] => none

/-- The characters up to the closing quote on the same line. Only texts in double quotes have
escapes. -/
def lineChars? (quote : Char) : Nat → List Char → Option (List Char × List Char)
  | 0, _ => none
  | _ + 1, [] => none
  | fuel + 1, c :: rest =>
    if c = quote then some ([], rest)
    else if c = '\\' ∧ quote = '"' then do
      let (d, rest) ← escaped? rest
      let (ds, rest) ← lineChars? quote fuel rest
      return (d :: ds, rest)
    else if isPrintable c then do
      let (ds, rest) ← lineChars? quote fuel rest
      return (c :: ds, rest)
    else none

/-- Drops blanks and line ends. -/
def skipBlankLines : List Char → List Char
  | '\n' :: rest => skipBlankLines rest
  | '\r' :: '\n' :: rest => skipBlankLines rest
  | c :: rest => if isSpace c then skipBlankLines rest else c :: rest
  | [] => []

/-- The rest after a backslash at the end of a line: blanks and line ends are dropped. -/
def continued? (cs : List Char) : Option (List Char) :=
  (newline? (skipSpaces cs)).map skipBlankLines

/-- The characters up to three closing quotes; one or two more quotes before these belong to the
text. Line ends become single characters. -/
def blockChars? (quote : Char) : Nat → List Char → Option (List Char × List Char)
  | 0, _ => none
  | _ + 1, [] => none
  | fuel + 1, c :: rest =>
    if c = quote then
      let run := (c :: rest).takeWhile (· == quote)
      if run.length < 3 then do
        let (ds, rest) ← blockChars? quote fuel rest
        return (c :: ds, rest)
      else
        let inner := min (run.length - 3) 2
        some (List.replicate inner quote, (c :: rest).drop (inner + 3))
    else if c = '\\' ∧ quote = '"' then
      match continued? rest with
      | some rest => blockChars? quote fuel rest
      | none => do
        let (d, rest) ← escaped? rest
        let (ds, rest) ← blockChars? quote fuel rest
        return (d :: ds, rest)
    else if isPrintable c then do
      let (ds, rest) ← blockChars? quote fuel rest
      return (c :: ds, rest)
    else do
      let rest ← newline? (c :: rest)
      let (ds, rest) ← blockChars? quote fuel rest
      return ('\n' :: ds, rest)

/-- A text within quotes of the given kind, on one line. -/
def lineText? (quote : Char) (cs : List Char) : Option (String × List Char) := do
  let rest ← dropWord [quote] cs
  let (chars, rest) ← lineChars? quote (rest.length + 1) rest
  return (String.ofList chars, rest)

/-- A text within quotes of the given kind; three quotes let it span lines, and a line end right
after these is dropped. -/
def quotedText? (quote : Char) (cs : List Char) : Option (String × List Char) :=
  match dropWord [quote, quote, quote] cs with
  | some rest => do
    let rest := (newline? rest).getD rest
    let (chars, rest) ← blockChars? quote (rest.length + 1) rest
    return (String.ofList chars, rest)
  | none => lineText? quote cs

/-! ## Keys -/

def isBareKey (c : Char) : Bool := c.isAlphanum || c == '_' || c == '-'

def simpleKey? (cs : List Char) : Option (String × List Char) :=
  match cs with
  | '"' :: _ => lineText? '"' cs
  | '\x27' :: _ => lineText? '\x27' cs
  | _ =>
    match cs.span isBareKey with
    | ([], _) => none
    | (key, rest) => some (String.ofList key, rest)

/-- A key of parts joined by dots: the path to its table and the last part. -/
def dottedKey? : Nat → List Char → Option ((List String × String) × List Char)
  | 0, _ => none
  | fuel + 1, cs => do
    let (part, rest) ← simpleKey? (skipSpaces cs)
    match skipSpaces rest with
    | '.' :: rest =>
      let ((path, key), rest) ← dottedKey? fuel rest
      return ((part :: path, key), rest)
    | rest => return (([], part), rest)

/-- Keys have fewer parts than this, and values are nested less deep. -/
def depthLimit : Nat := 80

def key? (cs : List Char) : Option ((List String × String) × List Char) :=
  (dottedKey? (cs.length + 1) cs).filter fun (key, _) => key.1.length + 1 < depthLimit

/-! ## Numbers, dates and words -/

/-- The digits of a number in the given base, with single underscores between digits. -/
def digits? (base : Nat) : Bool → List Char → Option (List Nat)
  | afterDigit, [] => if afterDigit then some [] else none
  | afterDigit, '_' :: rest =>
    if afterDigit then digits? base false rest else none
  | _, c :: rest => do
    let d ← hexValue? c
    if d < base then do
      let ds ← digits? base true rest
      return d :: ds
    else none

def ofDigits (base : Nat) (ds : List Nat) : Nat := ds.foldl (fun acc d => acc * base + d) 0

/-- A sign at the front: whether it is a minus, and the rest. -/
def sign : List Char → Bool × List Char
  | '-' :: rest => (true, rest)
  | '+' :: rest => (false, rest)
  | rest => (false, rest)

/-- The digits of a whole number in base ten, without leading zeros. -/
def wholeDigits? (cs : List Char) : Option (List Nat) := do
  let ds ← digits? 10 false cs
  if cs.head? = some '0' ∧ cs ≠ ['0'] then none else some ds

/-- The range of integers. -/
def inWord (n : Int) : Option Int :=
  if Int64.minValue.toInt ≤ n ∧ n ≤ Int64.maxValue.toInt then some n else none

def integer? (cs : List Char) : Option Int :=
  match cs with
  | '0' :: 'x' :: ds => (digits? 16 false ds).bind fun ds => inWord (ofDigits 16 ds)
  | '0' :: 'o' :: ds => (digits? 8 false ds).bind fun ds => inWord (ofDigits 8 ds)
  | '0' :: 'b' :: ds => (digits? 2 false ds).bind fun ds => inWord (ofDigits 2 ds)
  | _ => do
    let (negative, cs) := sign cs
    let n : Nat := ofDigits 10 (← wholeDigits? cs)
    inWord (if negative then -(n : Int) else n)

/-- Decimal exponents beyond this give zero or infinity for any number of digits below it. -/
def farExponent : Nat := 400

/-- The number nearest to the decimal with these digits and this exponent. -/
def decimal (negative : Bool) (ds : List Nat) (exponent : Int) : Binary64 :=
  let n := ofDigits 10 ds
  if n = 0 then Binary.ofMagnitude negative 0
  else if (farExponent : Int) < exponent + ds.length then
    if exponent ≤ farExponent + 400 then Binary.ofDecimal negative n exponent else .infinity negative
  else if exponent + ds.length < -(farExponent : Int) then Binary.ofMagnitude negative 0
  else Binary.ofDecimal negative n exponent

/-- The exponent after `e`. -/
def exponentOf? (cs : List Char) : Option Int := do
  let (negative, cs) := sign cs
  let n : Nat := ofDigits 10 (← digits? 10 false cs)
  return if negative then -(n : Int) else n

/-- A number with a fraction or an exponent; one too large is refused, unless it is negative. -/
def real? (cs : List Char) : Option Binary64 := do
  let (negative, cs) := sign cs
  match cs with
  | ['i', 'n', 'f'] => return Binary.infinity negative
  | ['n', 'a', 'n'] => return if negative then .invalid else Binary.invalid.negate
  | _ =>
    let (mantissa, tail) := cs.span fun c => c != 'e' && c != 'E'
    let (whole, fraction) := mantissa.span (· != '.')
    let exponent ← match tail with
      | [] => some none
      | _ :: tail => (exponentOf? tail).map some
    let places ← match fraction with
      | [] => some none
      | _ :: ds => (digits? 10 false ds).map some
    if exponent.isNone ∧ places.isNone then none
    else
      let whole ← wholeDigits? whole
      let places := places.getD []
      let x := decimal negative (whole ++ places) (exponent.getD 0 - places.length)
      if x = .infinity false then none else some x

/-- A decimal field of fixed width within bounds. -/
def field? (width least greatest : Nat) (cs : List Char) : Option (Nat × List Char) :=
  let ds := cs.take width
  let n := Nat.ofDigitChars 10 ds 0
  if ds.length = width ∧ ds.all Char.isDigit ∧ least ≤ n ∧ n ≤ greatest then
    some (n, cs.drop width)
  else none

def daysIn (year month : Nat) : Nat :=
  if month = 2 then
    if year % 4 = 0 ∧ (year % 100 ≠ 0 ∨ year % 400 = 0) then 29 else 28
  else if month = 4 ∨ month = 6 ∨ month = 9 ∨ month = 11 then 30
  else 31

/-- Drops a date. -/
def date? (cs : List Char) : Option (List Char) := do
  let (year, rest) ← field? 4 0 9999 cs
  let (month, rest) ← field? 2 1 12 (← dropWord ['-'] rest)
  let (_, rest) ← field? 2 1 (daysIn year month) (← dropWord ['-'] rest)
  return rest

/-- Drops a time of day. -/
def time? (cs : List Char) : Option (List Char) := do
  let (_, rest) ← field? 2 0 23 cs
  let (_, rest) ← field? 2 0 59 (← dropWord [':'] rest)
  let (_, rest) ← field? 2 0 60 (← dropWord [':'] rest)
  match rest with
  | '.' :: rest =>
    match rest.span Char.isDigit with
    | ([], _) => none
    | (_, rest) => some rest
  | rest => some rest

/-- Drops the distance from universal time, if there is one. -/
def offset? : List Char → Option (List Char)
  | c :: rest =>
    if c = 'Z' ∨ c = 'z' then some rest
    else if c = '+' ∨ c = '-' then do
      let (_, rest) ← field? 2 0 23 rest
      let (_, rest) ← field? 2 0 59 (← dropWord [':'] rest)
      return rest
    else some (c :: rest)
  | [] => some []

/-- Whether a text is a date, a time or both, with nothing else around. -/
def isMoment (cs : List Char) : Bool :=
  match date? cs with
  | some [] => true
  | some (c :: rest) =>
    (c == 'T' || c == 't' || c == ' ') && ((time? rest).bind offset? == some [])
  | none => time? cs == some []

/-- The value of a word without quotes. -/
def word? (cs : List Char) : Option Toml :=
  if cs = ['t', 'r', 'u', 'e'] then some (bool true)
  else if cs = ['f', 'a', 'l', 's', 'e'] then some (bool false)
  else if isMoment cs then some (moment (String.ofList cs))
  else
    match integer? cs with
    | some n => some (integer n)
    | none => (real? cs).map real

def endsWord (c : Char) : Bool :=
  isSpace c || c == ',' || c == ']' || c == '\x7d' || c == '#' || c == '\n' || c == '\r'

/-- A word at the front of the text; a date and a time may be parted by one blank. -/
def wordChars (cs : List Char) : List Char × List Char :=
  let (word, rest) := cs.span fun c => !endsWord c
  match date? word, rest with
  | some [], ' ' :: c :: tail =>
    if c.isDigit then
      let (time, rest) := (c :: tail).span fun c => !endsWord c
      (word ++ ' ' :: time, rest)
    else (word, rest)
  | _, _ => (word, rest)

/-! ## Values -/

mutual

/-- A value at the front of the text, within `depth` arrays and tables in braces; `fuel` bounds the
number of its parts. -/
def value? : Nat → Nat → List Char → Option (Toml × List Char)
  | 0, _, _ => none
  | fuel + 1, depth, cs =>
    match cs with
    | '"' :: _ => (quotedText? '"' cs).map fun (s, rest) => (text s, rest)
    | '\x27' :: _ => (quotedText? '\x27' cs).map fun (s, rest) => (text s, rest)
    | '[' :: rest =>
      if depth + 1 < depthLimit then
        (items? fuel (depth + 1) rest).map fun (items, rest) => (array items, rest)
      else none
    | '\x7b' :: rest =>
      if depth + 1 < depthLimit then
        match skipSpaces rest with
        | '\x7d' :: rest => some (table .inline [], rest)
        | rest => entries? fuel (depth + 1) rest (table .inline [])
      else none
    | _ => do
      let (word, rest) := wordChars cs
      return (← word? word, rest)

/-- The items of an array up to its closing bracket; a comma may follow the last one. -/
def items? : Nat → Nat → List Char → Option (List Toml × List Char)
  | 0, _, _ => none
  | fuel + 1, depth, cs =>
    match skipLines (cs.length + 1) cs with
    | ']' :: rest => some ([], rest)
    | rest => do
      let (item, rest) ← value? fuel depth rest
      match skipLines (rest.length + 1) rest with
      | ',' :: rest =>
        let (items, rest) ← items? fuel depth rest
        return (item :: items, rest)
      | ']' :: rest => return ([item], rest)
      | _ => none

/-- The entries of a table in braces, added to a table. -/
def entries? : Nat → Nat → List Char → Toml → Option (Toml × List Char)
  | 0, _, _, _ => none
  | fuel + 1, depth, cs, t => do
    let ((path, key), rest) ← key? cs
    let rest ← dropWord ['='] rest
    let (v, rest) ← value? fuel depth (skipSpaces rest)
    let t ← assign path key v t
    match skipSpaces rest with
    | ',' :: rest => entries? fuel depth rest t
    | '\x7d' :: rest => return (t, rest)
    | _ => none

end

/-! ## Documents -/

/-- A document in the course of reading: what has been read, and the table that keys go into. -/
structure Reading where
  root : Toml
  current : List String

namespace Reading

/-- Opens a table by a header in single or double brackets. -/
def header? (r : Reading) (repeated : Bool) (path : List String) (key : String) : Option Reading :=
  let edit := if repeated then openRepeated key else openTable key
  (editAt .implied edit path r.root).map fun root => ⟨root, path ++ [key]⟩

/-- Adds a key with its value to the current table. -/
def entry? (r : Reading) (path : List String) (key : String) (v : Toml) : Option Reading :=
  (editAt .implied (assign path key v) r.current r.root).map fun root => { r with root := root }

/-- Reads a header in the given brackets. -/
def headerLine? (r : Reading) (repeated : Bool) (closing cs : List Char) :
    Option (Reading × List Char) := do
  let ((path, key), rest) ← key? cs
  let rest ← dropWord closing rest
  return (← r.header? repeated path key, rest)

/-- Reads what stands on a line, up to blanks, a comment or its end. -/
def line? (r : Reading) (cs : List Char) : Option (Reading × List Char) :=
  match cs with
  | '[' :: '[' :: rest => r.headerLine? true [']', ']'] rest
  | '[' :: rest => r.headerLine? false [']'] rest
  | _ => do
    let ((path, key), rest) ← key? cs
    let rest ← dropWord ['='] rest
    let (v, rest) ← value? (rest.length + 1) 0 (skipSpaces rest)
    return (← r.entry? path key v, rest)

/-- Reads lines up to the end of the text; `fuel` bounds their number. -/
def lines? : Nat → Reading → List Char → Option Toml
  | 0, _, _ => none
  | fuel + 1, r, cs =>
    match skipSpaces cs with
    | [] => some r.root
    | rest =>
      match rest with
      | '#' :: _ | '\n' :: _ | '\r' :: _ =>
        match lineEnd? rest with
        | some rest => lines? fuel r rest
        | none => none
      | _ =>
        match r.line? rest with
        | none => none
        | some (r, rest) =>
          match lineEnd? rest with
          | some rest => lines? fuel r rest
          | none => none

end Reading

/-- The document that a text holds; a byte order mark may stand in front. -/
def parse? (s : String) : Option Toml :=
  let cs := s.toList
  let cs := if cs.head? = some (Char.ofNat 0xfeff) then cs.tail else cs
  Reading.lines? (cs.length + 1) ⟨document, []⟩ cs

end QueryEngine.Toml
