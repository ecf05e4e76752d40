import QueryEngine.Text.Hex

/-!
# Quoted texts in TOML

A text is written in the first of these forms that holds it without escapes: double quotes, single
quotes, three double quotes, three single quotes. Otherwise it is escaped, in three double quotes
if it spans lines.
-/

set_option autoImplicit false

namespace QueryEngine.Toml

def doubleQuote : Char := '"'

def singleQuote : Char := '\x27'

/-- The longest run of a character. -/
def longestRun (q : Char) (cs : List Char) : Nat :=
  (cs.foldl (fun (acc : Nat × Nat) c =>
    if c = q then (acc.1 + 1, max acc.2 (acc.1 + 1)) else (0, acc.2)) (0, 0)).2

/-- Control characters other than tabs and line ends. -/
def isControl (c : Char) : Bool :=
  (c.toNat < 32 && c != '\t' && c != '\n') || c.toNat == 127

/-- A character within double quotes; line ends are kept in texts that span lines. -/
def escape (multiline : Bool) (c : Char) : List Char :=
  if c = '\\' then ['\\', '\\']
  else if c = '\t' then ['\\', 't']
  else if c = '\n' then if multiline then [c] else ['\\', 'n']
  else if c = '\r' then ['\\', 'r']
  else if c.toNat = 8 then ['\\', 'b']
  else if c.toNat = 12 then ['\\', 'f']
  else if isControl c then
    ['\\', 'u', '0', '0', hexDigit (c.toNat / 16), (hexDigit (c.toNat % 16)).toUpper]
  else [c]

/-- Escapes a text in which at most `free` double quotes in a row stand bare; `run` counts those
just before. -/
def escapeAll (multiline : Bool) (free : Nat) : Nat → List Char → List Char
  | _, [] => []
  | run, c :: rest =>
    if c = doubleQuote then
      if run < free then c :: escapeAll multiline free (run + 1) rest
      else '\\' :: c :: escapeAll multiline free 0 rest
    else escape multiline c ++ escapeAll multiline free 0 rest

/-- A text between `n` quotes on either side. -/
def enclose (q : Char) (n : Nat) (cs : List Char) : String :=
  let quotes := List.replicate n q
  let lead := if n = 3 ∧ '\n' ∈ cs then ['\n'] else []
  String.ofList (quotes ++ lead ++ cs ++ quotes)

/-- The quoted form of a text. -/
def quote (s : String) : String :=
  let cs := s.toList
  let doubles := longestRun doubleQuote cs
  let singles := longestRun singleQuote cs
  let lines : Bool := '\n' ∈ cs
  let backslash : Bool := '\\' ∈ cs
  let control := cs.any isControl
  if !control && !backslash && doubles = 0 && !lines then
    enclose doubleQuote 1 (escapeAll false 0 0 cs)
  else if !control && singles = 0 && !lines then enclose singleQuote 1 cs
  else if !control && !backslash && doubles ≤ 2 then
    enclose doubleQuote 3 (escapeAll true 2 0 cs)
  else if !control && singles ≤ 2 then enclose singleQuote 3 cs
  else if lines then enclose doubleQuote 3 (escapeAll true 2 0 cs)
  else enclose doubleQuote 1 (escapeAll false 0 0 cs)

end QueryEngine.Toml
