import QueryEngine.Storage.HashIndex
import QueryEngine.Statistics

/-!
# Tables

A table keeps its rows in the order of their numbers, which are given out in ascending order and
never again. Its indexes follow every write.
-/

set_option autoImplicit false

namespace QueryEngine

structure Table where
  name : String
  columns : List Column
  /-- The rows with their numbers, in ascending order. -/
  rows : List (RowId × List Value)
  nextRow : RowId
  indexes : List HashIndex
  /-- How many rows have been read. -/
  reads : Nat
deriving DecidableEq

namespace Table

def empty (name : String) (columns : List Column) : Table := ⟨name, columns, [], 0, [], 0⟩

variable (t : Table)

/-- The place of a column. -/
def position (c : Column) : Except StorageError Nat :=
  match t.columns.findIdx? (· = c) with
  | some i => .ok i
  | none => .error (.unknownColumn t.name c.name)

def positions (cs : List Column) : Except StorageError (List Nat) := cs.mapM t.position

/-- Whether a column may hold a value. -/
def checkValue (c : Column) (v : Value) : Except StorageError Unit :=
  if v.isNull && !c.nullable then .error (.nullRefused c.name)
  else if !c.type.accepts v then .error (.typeRefused c v.kindName)
  else .ok ()

/-- The values at the given places. -/
def valuesAt (row : List Value) (places : List Nat) : List Value :=
  places.map fun i => row.getD i .null

def row? (id : RowId) : Option (List Value) := t.rows.lookup id

/-! ## Indexes -/

/-- The value that a row has in the column of an index; an index on a foreign column has none. -/
def indexedValue? (x : HashIndex) (row : List Value) : Option Value :=
  (t.columns.findIdx? (· = x.column)).map fun i => row.getD i .null

def indexRow (id : RowId) (row : List Value) (x : HashIndex) : HashIndex :=
  match t.indexedValue? x row with
  | some v => x.add v id
  | none => x

def unindexRow (id : RowId) (row : List Value) (x : HashIndex) : HashIndex :=
  match t.indexedValue? x row with
  | some v => x.remove v id
  | none => x

/-- Adds an index on a column and fills it. -/
def createIndex (c : Column) : Except StorageError Table := do
  let _ ← t.position c
  let x := HashIndex.empty (t.name ++ ".idx_" ++ c.simpleName) c
  let filled := t.rows.foldl (fun x row => t.indexRow row.1 row.2 x) x
  return { t with indexes := t.indexes ++ [filled] }

/-! ## Writes -/

/-- Puts values into their places within a row. -/
def fill (row : List Value) : List (Column × Value) → Except StorageError (List Value)
  | [] => .ok row
  | (c, v) :: rest =>
    match t.position c with
    | .error e => .error e
    | .ok i => fill (row.set i v) rest

/-- Whether every column may hold its value. -/
def checkRow : List (Column × Value) → Except StorageError Unit
  | [] => .ok ()
  | (c, v) :: rest =>
    match checkValue c v with
    | .error e => .error e
    | .ok () => checkRow rest

/-- Inserts a row; columns that are not named are null. -/
def insert (cs : List Column) (vs : List Value) : Except StorageError (RowId × Table) := do
  if cs.length ≠ vs.length then .error (.valueCount t.name vs.length cs.length)
  else
    let row ← t.fill (t.columns.map fun _ => .null) (cs.zip vs)
    checkRow (t.columns.zip row)
    return (t.nextRow, { t with
      rows := t.rows ++ [(t.nextRow, row)]
      nextRow := t.nextRow + 1
      indexes := t.indexes.map (t.indexRow t.nextRow row) })

/-- Inserts a row with a value for every column. -/
def push (vs : List Value) : Except StorageError (RowId × Table) := t.insert t.columns vs

/-- A table with the given rows. -/
def ofRows (name : String) (columns : List Column) (rows : List (List Value)) :
    Except StorageError Table :=
  rows.foldlM (fun t vs => (t.push vs).map (·.2)) (empty name columns)

/-- Replaces the value at one place of a row. -/
def setValue (id : RowId) (c : Column) (place : Nat) (v : Value) : Table :=
  let old := ((t.row? id).getD []).getD place .null
  { t with
    rows := t.rows.map fun row => if row.1 = id then (id, row.2.set place v) else row
    indexes := t.indexes.map fun x => if x.column = c then (x.remove old id).add v id else x }

/-- Replaces values of a row one after another, up to the first that is refused. -/
def setValues (t : Table) (id : RowId) : List (Column × Value) → Table × Except StorageError Unit
  | [] => (t, .ok ())
  | (c, v) :: rest =>
    match checkValue c v with
    | .error e => (t, .error e)
    | .ok () =>
      match t.position c with
      | .error e => (t, .error e)
      | .ok place => setValues (t.setValue id c place v) id rest

/-- Replaces values of an existing row. -/
def update (id : RowId) (cs : List Column) (vs : List Value) : Table × Except StorageError Unit :=
  match t.row? id with
  | none => (t, .error (.unknownRow id t.name))
  | some _ => t.setValues id (cs.zip vs)

/-- Deletes a row and tells whether it existed. -/
def delete (id : RowId) : Table × Bool :=
  match t.row? id with
  | none => (t, false)
  | some row =>
    ({ t with
      rows := t.rows.filter (·.1 ≠ id)
      indexes := t.indexes.map (t.unindexRow id row) }, true)

/-! ## Reads -/

def countRows : Nat := t.rows.length

/-- Reads some columns of a row, if it exists. -/
def read (id : RowId) (cs : List Column) : Except StorageError (Option Tuple × Table) := do
  let places ← t.positions cs
  match t.row? id with
  | none => return (none, t)
  | some row => return (some ⟨id, cs, valuesAt row places⟩, { t with reads := t.reads + 1 })

/-- Statistics over the present rows. -/
def statistics? (c : Column) : Option ColumnStatistics :=
  (t.columns.findIdx? (· = c)).map fun i =>
    .ofValues c.type (t.rows.map fun row => row.2.getD i .null)

end Table

/-! ## Cursors -/

/-- A place in a scan of one of several partitions; a row belongs to the partition that is its
number modulo the number of partitions. Both are taken as signed words, as row numbers are. -/
structure Cursor where
  columns : List Column
  places : List Nat
  partition : Nat
  partitions : Nat
  /-- The row returned last. -/
  after : Option RowId
deriving DecidableEq

namespace Table

/-- A cursor before the first row of a partition. -/
def scan (t : Table) (cs : List Column) (partition partitions : Nat) :
    Except StorageError Cursor := do
  if partitions = 0 ∨ partitions ≤ partition then
    .error (.invalidPartition partition partitions)
  else return ⟨cs, ← t.positions cs, partition, partitions, none⟩

end Table

namespace Cursor

/-- A number read as a signed word of 64 bits. -/
def signedWord (n : Nat) : Int := (UInt64.ofNat n).toInt64.toInt

/-- Whether a row is still ahead and in the cursor's partition. -/
def covers (c : Cursor) (id : RowId) : Bool :=
  c.after.all (· < id) && id % signedWord c.partitions == signedWord c.partition

/-- Reads the next row as the table is now. -/
def next? (c : Cursor) (t : Table) : Option (Tuple × Cursor × Table) :=
  (t.rows.find? fun row => c.covers row.1).map fun row =>
    (⟨row.1, c.columns, Table.valuesAt row.2 c.places⟩, { c with after := some row.1 },
      { t with reads := t.reads + 1 })

/-- The tuples of at most `room` further rows, while nothing else changes the table. -/
def drain (t : Table) : Nat → Cursor → List Tuple × Table
  | 0, _ => ([], t)
  | room + 1, c =>
    match c.next? t with
    | none => ([], t)
    | some (u, c, t) =>
      let rest := drain t room c
      (u :: rest.1, rest.2)

end Cursor

namespace Table

/-- All tuples of a partition. -/
def readAll (t : Table) (cs : List Column) (partition partitions : Nat) :
    Except StorageError (List Tuple × Table) :=
  (t.scan cs partition partitions).map (Cursor.drain t t.rows.length)

end Table

end QueryEngine
