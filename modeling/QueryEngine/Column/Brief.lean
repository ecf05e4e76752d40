import QueryEngine.Column

/-!
# Brief spellings of columns

A column is spelled `name:type`, with a question mark behind if it is nullable. The types of
vectors end in their width.
-/

set_option autoImplicit false

namespace QueryEngine

namespace ColumnType

def brief : ColumnType → String
  | boolean => "bool"
  | long => "long"
  | float => "float"
  | double => "double"
  | text => "string"
  | floatVector dims => s!"fv{dims}"
  | doubleVector dims => s!"dv{dims}"

/-- The type with a brief spelling. -/
def ofBrief? (s : List Char) : Option ColumnType :=
  match s with
  | 'f' :: 'v' :: dims => (String.ofList dims).toNat?.map floatVector
  | 'd' :: 'v' :: dims => (String.ofList dims).toNat?.map doubleVector
  | _ => [boolean, long, float, double, text].find? fun t => t.brief.toList == s

end ColumnType

namespace Column

def brief (c : Column) : String :=
  c.name ++ ":" ++ c.type.brief ++ if c.nullable then "?" else ""

/-- The column with a brief spelling; the name ends at the last colon. -/
def ofBrief? (s : String) : Option Column :=
  let (nullable, spelled) :=
    match s.toList.reverse with
    | '?' :: rest => (true, rest)
    | rest => (false, rest)
  let type := spelled.takeWhile (· != ':')
  let name := spelled.drop (type.length + 1)
  (ColumnType.ofBrief? type.reverse).map fun t => ⟨String.ofList name.reverse, t, nullable⟩

end Column

end QueryEngine
