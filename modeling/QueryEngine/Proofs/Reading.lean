import QueryEngine.Proofs.Operators
import QueryEngine.Proofs.Tables

/-!
# Reading

Reads are counted and change nothing else: what a table or a store is apart from its counted reads
decides what can be read next.
-/

set_option autoImplicit false

namespace QueryEngine

/-- A table without its counted reads. -/
def Table.unread (t : Table) : Table := { t with reads := 0 }

namespace Table

variable {t t' : Table}

theorem rows_of_unread (h : t.unread = t'.unread) : t.rows = t'.rows :=
  show t.unread.rows = t'.unread.rows from congrArg Table.rows h

theorem positions_unread (t : Table) (cs : List Column) : t.unread.positions cs = t.positions cs :=
  rfl

theorem scan_unread (t : Table) (cs : List Column) (i n : Nat) :
    t.unread.scan cs i n = t.scan cs i n := rfl

theorem scan_of_unread (h : t.unread = t'.unread) (cs : List Column) (i n : Nat) :
    t.scan cs i n = t'.scan cs i n := by
  rw [← scan_unread t, h, scan_unread]

/-- Reading a row gives the same on tables that differ in counted reads. -/
theorem read_of_unread (h : t.unread = t'.unread) (id : RowId) (cs : List Column) :
    (∃ e, t.read id cs = .error e ∧ t'.read id cs = .error e) ∨
      ∃ found u u', t.read id cs = .ok (found, u) ∧ t'.read id cs = .ok (found, u') ∧
        u.unread = t.unread ∧ u'.unread = t'.unread := by
  have hpositions : t.positions cs = t'.positions cs := by
    rw [← positions_unread t, h, positions_unread]
  have hrow : t.row? id = t'.row? id := congrArg (·.lookup id) (rows_of_unread h)
  unfold read
  rw [← hpositions, ← hrow]
  cases t.positions cs with
  | error e => exact .inl ⟨e, rfl, rfl⟩
  | ok places =>
    cases t.row? id with
    | none => exact .inr ⟨none, t, t', rfl, rfl, rfl, rfl⟩
    | some row => exact .inr ⟨_, _, _, rfl, rfl, rfl, rfl⟩

theorem unread_read {id : RowId} {cs : List Column} {found : Option Tuple}
    (h : t.read id cs = .ok (found, t')) : t'.unread = t.unread := by
  obtain ⟨places, _, h⟩ := Except.bind_eq_ok.1 h
  cases hrow : t.row? id with
  | none =>
    rw [hrow] at h
    cases h
    rfl
  | some row =>
    rw [hrow] at h
    cases h
    rfl

end Table

/-- Pulling a cursor gives the same on tables that differ in counted reads. -/
theorem Cursor.next?_of_unread {t t' : Table} (h : t.unread = t'.unread) (c : Cursor) :
    (c.next? t = none ∧ c.next? t' = none) ∨
      ∃ u d table table', c.next? t = some (u, d, table) ∧ c.next? t' = some (u, d, table') ∧
        table.unread = t.unread ∧ table'.unread = t'.unread := by
  have hfind : (t'.rows.find? fun row => c.covers row.1) = t.rows.find? fun row => c.covers row.1 :=
    congrArg (·.find? fun row => c.covers row.1) (Table.rows_of_unread h).symm
  unfold next?
  rw [hfind]
  cases t.rows.find? fun row => c.covers row.1 with
  | none => exact .inl ⟨rfl, rfl⟩
  | some row => exact .inr ⟨_, _, _, _, rfl, rfl, rfl, rfl⟩

namespace Store

/-- A store without its counted reads. -/
def unread (s : Store) : Store := ⟨s.tables.map Table.unread⟩

theorem table_unread (s : Store) (n : Nat) : s.unread.table n = (s.table n).unread := by
  simp only [table, unread, List.getD_eq_getElem?_getD, List.getElem?_map]
  cases s.tables[n]? <;> rfl

theorem unread_setTable {s : Store} {n : Nat} {t : Table} (h : t.unread = (s.table n).unread) :
    (s.setTable n t).unread = s.unread := by
  simp only [unread, setTable, List.map_set, Store.mk.injEq]
  by_cases hn : n < s.tables.length
  · have ht : (s.table n) = s.tables[n] := by
      simp [table, List.getD_eq_getElem?_getD, hn]
    have hn' : n < (s.tables.map Table.unread).length := by simpa using hn
    have hset : (s.tables.map Table.unread).set n (s.tables.map Table.unread)[n] =
        s.tables.map Table.unread := List.set_getElem_self _
    rw [h, ht]
    rwa [List.getElem_map] at hset
  · rw [List.set_eq_of_length_le (by simpa using hn)]

theorem table_sound {s : Store} (h : ∀ t ∈ s.tables, t.Reachable) (n : Nat) : (s.table n).Sound := by
  simp only [table, List.getD_eq_getElem?_getD]
  cases hn : s.tables[n]? with
  | none => exact (Table.Reachable.empty "" []).sound
  | some t => exact (h t (List.mem_of_getElem? hn)).sound

theorem table_of_unread {s s' : Store} (h : s.unread = s'.unread) (n : Nat) :
    (s.table n).unread = (s'.table n).unread := by
  rw [← table_unread, h, table_unread]

theorem index_of_unread {s s' : Store} (h : s.unread = s'.unread) (x : IndexHandle) :
    s.index x = s'.index x := by
  have hx : s.index? x = s'.index? x :=
    show (s.table x.table).unread.indexes[x.number]? = (s'.table x.table).unread.indexes[x.number]? by
      rw [table_of_unread h]
  rw [index, index, hx]

end Store

theorem Cursor.remaining_of_rows {t t' : Table} (h : t.rows = t'.rows) (c : Cursor) :
    c.remaining t = c.remaining t' := by
  rw [remaining, remaining, h]

/-- A cursor answers with the first of the rows that are ahead of it, wherever the rows are those of
the table `x`. -/
theorem TupleStream.pull_ofCursor {h : TableHandle} {s : RunState} {x : Table}
    (hrows : (s.table h).rows = x.rows) (hasc : x.rows.Pairwise (·.1 < ·.1)) (pulls : Nat)
    (c : Cursor) :
    (c.remaining x = [] ∧ (ofCursor h (pulls + 1) c).pull s = .finished s (ofCursor h pulls c)) ∨
      ∃ u d t, c.next? (s.table h) = some (u, d, t) ∧ t.unread = (s.table h).unread ∧
        c.remaining x = u :: d.remaining x ∧
        (ofCursor h (pulls + 1) c).pull s = .row u (s.setTable h t) (ofCursor h pulls d) := by
  simp only [ofCursor, pull_of]
  rw [← c.remaining_of_rows hrows]
  rcases c.next?_cases (hrows ▸ hasc) with ⟨hn, hnil⟩ | ⟨u, d, hn, hcons⟩
  · rw [hn]
    exact .inl ⟨hnil, rfl⟩
  · rw [hn]
    exact .inr ⟨u, d, _, rfl, rfl, hcons.trans (congrArg _ (d.remaining_of_rows hrows)), rfl⟩

/-- A scan of a partition by a handle that does not fail. -/
theorem TupleStream.scan_partition {h : TableHandle} {s : Store} {cs : List Column}
    {places : List Nat} (hfaults : h.faults.scanFailure = none)
    (hplaces : (h.table s).positions cs = .ok places) {i p : Nat} (hi : i < p) :
    scan h s cs i p = .ok (ofCursor h unbounded ⟨cs, places, i, p, none⟩) := by
  have hcursor : (h.table s).scan cs i p = .ok ⟨cs, places, i, p, none⟩ := by
    rw [Table.scan, if_neg (by omega), hplaces]
    rfl
  rw [scan, hcursor]
  simp only [hfaults]

/-- A scan of a whole table by a handle that does not fail. -/
theorem TupleStream.scan_whole {h : TableHandle} {s : Store} {cs : List Column} {places : List Nat}
    (hfaults : h.faults.scanFailure = none) (hplaces : (h.table s).positions cs = .ok places) :
    scan h s cs 0 1 = .ok (ofCursor h unbounded ⟨cs, places, 0, 1, none⟩) :=
  scan_partition hfaults hplaces Nat.one_pos

theorem TableHandle.countRows_of_unread {s s' : Store} (h : s.unread = s'.unread)
    (t : TableHandle) : t.countRows s = t.countRows s' := by
  have hrows : (t.table s).rows = (t.table s').rows :=
    Table.rows_of_unread (Store.table_of_unread h t.number)
  simp only [countRows, Table.countRows, hrows]

end QueryEngine
