import QueryEngine.Binary.Number

/-!
# TOML documents

A document is a table of values. Tables remember how they came about, because that decides what a
later line may add to them.
-/

set_option autoImplicit false

namespace QueryEngine

/-- How a table came about. -/
inductive TableForm where
  /-- By a header of its own. -/
  | header
  /-- By the header of a table within it. -/
  | implied
  /-- By a dotted key. -/
  | dotted
  /-- As a value in braces. -/
  | inline
deriving DecidableEq

inductive Toml where
  | text (s : String)
  | integer (n : Int)
  | real (x : Binary64)
  | bool (b : Bool)
  /-- A date, a time or both. -/
  | moment (literal : String)
  | array (items : List Toml)
  | table (form : TableForm) (entries : List (String × Toml))
  /-- The tables under one repeated header. -/
  | tables (items : List Toml)
deriving Inhabited

namespace Toml

def document : Toml := table .header []

/-- Replaces the value of a key. -/
def put (entries : List (String × Toml)) (key : String) (v : Toml) : List (String × Toml) :=
  entries.map fun e => if e.1 = key then (key, v) else e

/-- Edits the table at the end of a path. Tables that are missing on the way arise as `form`. A
dotted path leads only through tables that dotted keys or headers below them brought about; any
path leads through the last of repeated tables. -/
def editAt (form : TableForm) (edit : Toml → Option Toml) : List String → Toml → Option Toml
  | [], t => edit t
  | key :: path, table f entries =>
    match entries.lookup key with
    | none =>
      (editAt form edit path (table form [])).map fun child => table f (entries ++ [(key, child)])
    | some (table g inner) =>
      if g = .inline ∨ (form = .dotted ∧ g = .header) then none
      else (editAt form edit path (table g inner)).map fun child => table f (put entries key child)
    | some (tables items) =>
      match items.getLast? with
      | none => none
      | some last =>
        (editAt form edit path last).map fun child =>
          table f (put entries key (tables (items.dropLast ++ [child])))
    | some _ => none
  | _ :: _, _ => none

/-- Adds a key to a table that has none of this name. The table is one of dotted keys exactly when
the key was written with a path. -/
def addKey (dotted : Bool) (key : String) (v : Toml) : Toml → Option Toml
  | table f entries =>
    if (f == .dotted) == dotted && (entries.lookup key).isNone then
      some (table f (entries ++ [(key, v)]))
    else none
  | _ => none

/-- Adds a value under a path of keys within a table. -/
def assign (path : List String) (key : String) (v : Toml) (t : Toml) : Option Toml :=
  editAt .dotted (addKey (!path.isEmpty) key v) path t

/-- Opens a table by its header; one that came about by headers below it may still be opened. -/
def openTable (key : String) : Toml → Option Toml
  | table f entries =>
    match entries.lookup key with
    | none => some (table f (entries ++ [(key, table .header [])]))
    | some (table .implied inner) => some (table f (put entries key (table .header inner)))
    | some _ => none
  | _ => none

/-- Appends a table to the tables of a repeated header. -/
def openRepeated (key : String) : Toml → Option Toml
  | table f entries =>
    match entries.lookup key with
    | none => some (table f (entries ++ [(key, tables [table .header []])]))
    | some (tables items) => some (table f (put entries key (tables (items ++ [table .header []]))))
    | some _ => none
  | _ => none

end Toml

end QueryEngine
