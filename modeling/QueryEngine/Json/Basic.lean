import QueryEngine.Text.Hex

/-!
# JSON documents

A document keeps the order of its object fields and the literal text of its numbers. `render`
writes a document without spaces, `renderIndented` with one item per line.
-/

set_option autoImplicit false

namespace QueryEngine

inductive Json where
  | null
  | bool (b : Bool)
  | number (literal : String)
  | text (s : String)
  | array (items : List Json)
  | object (fields : List (String × Json))
deriving Inhabited

namespace Json

/-- A character within a quoted text. -/
def escape (c : Char) : List Char :=
  if c = '"' then ['\\', '"']
  else if c = '\\' then ['\\', '\\']
  else if c = '\n' then ['\\', 'n']
  else if c = '\r' then ['\\', 'r']
  else if c = '\t' then ['\\', 't']
  else if c.toNat = 8 then ['\\', 'b']
  else if c.toNat = 12 then ['\\', 'f']
  else if c.toNat < 32 then ['\\', 'u', '0', '0', hexDigit (c.toNat / 16), hexDigit (c.toNat % 16)]
  else [c]

/-- A text in double quotes. -/
def quote (s : String) : String := String.ofList ('"' :: s.toList.flatMap escape ++ ['"'])

mutual

/-- The document without spaces. -/
def render : Json → String
  | null => "null"
  | bool b => if b then "true" else "false"
  | number literal => literal
  | text s => quote s
  | array items => "[" ++ ",".intercalate (renderItems items) ++ "]"
  | object fields => "\x7b" ++ ",".intercalate (renderFields fields) ++ "\x7d"

def renderItems : List Json → List String
  | [] => []
  | item :: rest => render item :: renderItems rest

def renderFields : List (String × Json) → List String
  | [] => []
  | (key, value) :: rest => (quote key ++ ":" ++ render value) :: renderFields rest

end

/-- Items of a list, each on a line of its own, within brackets; an empty list stays on one line. -/
def enclose (opening closing : String) (depth : Nat) (items : List String) : String :=
  let indent (n : Nat) := String.ofList (List.replicate (2 * n) ' ')
  if items.isEmpty then opening ++ closing
  else
    opening ++ "\n" ++ ",\n".intercalate (items.map fun item => indent (depth + 1) ++ item) ++
      "\n" ++ indent depth ++ closing

mutual

/-- The document with one item per line, two spaces deeper at each level. -/
def renderIndented (depth : Nat) : Json → String
  | null => "null"
  | bool b => if b then "true" else "false"
  | number literal => literal
  | text s => quote s
  | array items => enclose "[" "]" depth (renderItemsIndented (depth + 1) items)
  | object fields => enclose "\x7b" "\x7d" depth (renderFieldsIndented (depth + 1) fields)

def renderItemsIndented (depth : Nat) : List Json → List String
  | [] => []
  | item :: rest => renderIndented depth item :: renderItemsIndented depth rest

def renderFieldsIndented (depth : Nat) : List (String × Json) → List String
  | [] => []
  | (key, value) :: rest =>
    (quote key ++ ": " ++ renderIndented depth value) :: renderFieldsIndented depth rest

end

end Json

end QueryEngine
