import QueryEngine.Execution.Sink
import QueryEngine.Proofs.Agreement
import QueryEngine.Proofs.Reading

/-!
# Writes behind a scan

A write for a tuple changes the tuple's own row and no other. Such writes stay behind a scan that has
come to the row: what lies beyond it, and with it everything that the scan and look-ups by the numbers
of later rows can find, is as it was.
-/

set_option autoImplicit false

namespace QueryEngine

namespace Table

variable {t t' : Table}

/-- A change of tables that leaves alone the rows beyond a number, and does not count as reading. -/
structure Behind (k : RowId) (change : Table → Table) : Prop where
  missing : change (.empty "" []) = .empty "" []
  name : ∀ t, (change t).name = t.name
  columns : ∀ t, (change t).columns = t.columns
  beyond : ∀ t, (change t).rows.filter (k < ·.1) = t.rows.filter (k < ·.1)
  reads : ∀ t n, change { t with reads := n } = { change t with reads := n }

/-- A change after which a reader finds other rows in one table `x`, if it looks there. -/
def refound (f : Table → Table) (x : Table) (rows : List (RowId × List Value)) (here : Bool) :
    Table → Table :=
  fun t => if here = true ∧ t.unread = x.unread then { f t with rows := rows } else f t

theorem lookup_filter {p : RowId → Bool} {id : RowId} (hid : p id = true)
    (rows : List (RowId × List Value)) :
    (rows.filter fun row => p row.1).lookup id = rows.lookup id := by
  induction rows with
  | nil => rfl
  | cons row rest ih =>
    obtain ⟨i, values⟩ := row
    by_cases he : id = i
    · subst he
      simp [hid]
    · have hb : (id == i) = false := by simpa using he
      by_cases hp : p i = true <;> simp [List.lookup_cons, hp, hb, ih]

theorem exists_row?_of_mem {id : RowId} (h : id ∈ t.rows.map (·.1)) : ∃ row, t.row? id = some row := by
  rw [← Option.ne_none_iff_exists']
  intro hnone
  obtain ⟨row, hrow, rfl⟩ := List.mem_map.1 h
  have hne := List.lookup_eq_none_iff.1 hnone row hrow
  simp at hne

namespace Behind

variable {k : RowId} {f g : Table → Table}

theorem id (k : RowId) : Behind k fun t => t :=
  ⟨rfl, fun _ => rfl, fun _ => rfl, fun _ => rfl, fun _ _ => rfl⟩

theorem mono {j : RowId} (hjk : j ≤ k) (h : Behind j f) : Behind k f := by
  refine { h with beyond := fun t => ?_ }
  have hsub (rows : List (RowId × List Value)) :
      (rows.filter (j < ·.1)).filter (k < ·.1) = rows.filter (k < ·.1) := by
    rw [List.filter_filter]
    refine List.filter_congr fun row _ => ?_
    by_cases hk : k < row.1
    · simp [hk, Int.lt_of_le_of_lt hjk hk]
    · simp [hk]
  rw [← hsub, h.beyond, hsub]

theorem comp (hg : Behind k g) (hf : Behind k f) : Behind k fun t => g (f t) where
  missing := by rw [hf.missing, hg.missing]
  name t := (hg.name _).trans (hf.name t)
  columns t := (hg.columns _).trans (hf.columns t)
  beyond t := (hg.beyond _).trans (hf.beyond t)
  reads t n := by rw [hf.reads, hg.reads]

variable (h : Behind k f)
include h

theorem reads_eq (t : Table) : (f t).reads = t.reads := by
  have hsame := congrArg Table.reads (h.reads t t.reads)
  exact hsame

theorem rows_of_unread {t t' : Table} (ht : t.unread = t'.unread) : (f t).rows = (f t').rows := by
  have hcounted (t : Table) : (f t).rows = (f t.unread).rows := by
    have hreads := h.reads t 0
    exact (congrArg Table.rows hreads).symm
  rw [hcounted t, ht, ← hcounted t']

theorem position (t : Table) (c : Column) : (f t).position c = t.position c := by
  simp only [Table.position, h.name, h.columns]

theorem positions (t : Table) (cs : List Column) : (f t).positions cs = t.positions cs :=
  congrArg (cs.mapM ·) (funext (h.position t))

theorem row? {id : RowId} (hid : k < id) (t : Table) : (f t).row? id = t.row? id := by
  have hp : decide (k < id) = true := decide_eq_true hid
  have hbeyond (t : Table) : (t.rows.filter (k < ·.1)).lookup id = t.row? id :=
    lookup_filter (p := fun i => decide (k < i)) hp t.rows
  rw [← hbeyond, h.beyond, hbeyond]

theorem mem_rows {id : RowId} (hid : k < id) (t : Table) :
    id ∈ (f t).rows.map (·.1) ↔ id ∈ t.rows.map (·.1) := by
  have hbeyond (rows : List (RowId × List Value)) :
      id ∈ rows.map (·.1) ↔ id ∈ (rows.filter (k < ·.1)).map (·.1) := by
    simp [hid]
  rw [hbeyond, h.beyond, ← hbeyond]

/-- A later row is read as before. -/
theorem read {id : RowId} (hid : k < id) (t : Table) (cs : List Column) :
    (f t).read id cs = (t.read id cs).map fun found => (found.1, f found.2) := by
  unfold Table.read
  rw [h.positions, h.row? hid]
  cases t.positions cs with
  | error e => rfl
  | ok places =>
    cases t.row? id with
    | none => rfl
    | some row =>
      have hcounted := h.reads t (t.reads + 1)
      have hreads := h.reads_eq t
      simp only [bind, Except.bind, pure, Except.pure, Except.map, hcounted, hreads]

/-- A cursor behind which all changes lie goes on as before. -/
theorem next? {c : Cursor} (hc : c.after = some k) (t : Table) :
    c.next? (f t) = (c.next? t).map fun found => (found.1, found.2.1, f found.2.2) := by
  have hfind (rows : List (RowId × List Value)) : (rows.find? fun row => c.covers row.1) =
      (rows.filter (k < ·.1)).find? fun row => c.covers row.1 := by
    rw [List.find?_filter]
    refine congrArg (rows.find? ·) (funext fun row => ?_)
    simp only [Cursor.covers, hc, Option.all_some]
    generalize (row.1 % Cursor.signedWord c.partitions == Cursor.signedWord c.partition) = here
    cases here <;> simp
  unfold Cursor.next?
  rw [hfind, h.beyond, ← hfind, Option.map_map]
  refine congrArg (Option.map · _) (funext fun row => ?_)
  have hcounted := h.reads t (t.reads + 1)
  have hreads := h.reads_eq t
  simp only [Function.comp_apply, hcounted, hreads]

/-- Rows may be found in another condition, if all those are found as they are that have not changed. -/
theorem refound (x : Table) {rows : List (RowId × List Value)}
    (hrows : ∀ p : RowId → Bool, (f x).rows.filter (p ·.1) = x.rows.filter (p ·.1) →
      rows.filter (p ·.1) = x.rows.filter (p ·.1)) (here : Bool) :
    Behind k (refound f x rows here) where
  missing := by
    unfold Table.refound
    split
    · rename_i hx
      have hempty : x = { Table.empty "" [] with reads := x.reads } :=
        calc x = { x.unread with reads := x.reads } := rfl
          _ = { (Table.empty "" []).unread with reads := x.reads } := by rw [hx.2]
      have hchanged : (f x).rows = [] := by
        rw [hempty, h.reads, h.missing]
        rfl
      have hnone := hrows (fun _ => true)
      rw [hchanged, hempty] at hnone
      have hnil : rows = [] := by simpa [empty] using hnone
      rw [h.missing, hnil]
      rfl
    · exact h.missing
  name t := by
    unfold Table.refound
    split
    · exact h.name t
    · exact h.name t
  columns t := by
    unfold Table.refound
    split
    · exact h.columns t
    · exact h.columns t
  beyond t := by
    unfold Table.refound
    split
    · rename_i hx
      have hsame : t.rows = x.rows := Table.rows_of_unread hx.2
      have hbeyond := hrows (fun id => decide (k < id)) (h.beyond x)
      rw [hsame]
      exact hbeyond
    · exact h.beyond t
  reads t n := by
    have hsame : ({ t with reads := n } : Table).unread = t.unread := rfl
    rw [Table.refound, Table.refound, hsame, h.reads]
    split <;> rfl

end Behind

/-! ## Updates and deletes -/

variable {k : RowId} {f : Nat → Table → Table}

theorem Behind.atPosition (c : Column) (h : ∀ place, Behind k (f place)) : Behind k fun t =>
    match t.position c with
    | .error _ => t
    | .ok place => f place t where
  missing := rfl
  name t := by
    cases t.position c with
    | error e => rfl
    | ok place => exact (h place).name t
  columns t := by
    cases t.position c with
    | error e => rfl
    | ok place => exact (h place).columns t
  beyond t := by
    cases t.position c with
    | error e => rfl
    | ok place => exact (h place).beyond t
  reads t n := by
    have hsame : ({ t with reads := n } : Table).position c = t.position c := rfl
    rw [hsame]
    cases t.position c with
    | error e => rfl
    | ok place => exact (h place).reads t n

theorem behind_setValue (id : RowId) (c : Column) (place : Nat) (v : Value) :
    Behind id fun t => t.setValue id c place v where
  missing := rfl
  name _ := rfl
  columns _ := rfl
  beyond t := by
    have hown : ((fun row : RowId × List Value => decide (id < row.1)) ∘
        fun row : RowId × List Value => if row.1 = id then (id, row.2.set place v) else row) =
          fun row => decide (id < row.1) := by
      funext row
      by_cases he : row.1 = id <;> simp [he]
    rw [setValue, List.filter_map, hown]
    refine (List.map_congr_left fun row hrow => ?_).trans (List.map_id _)
    have hlater : id < row.1 := by simpa using (List.mem_filter.1 hrow).2
    rw [if_neg fun he => Int.lt_irrefl _ (he ▸ hlater)]
    rfl
  reads _ _ := rfl

theorem behind_setValues (id : RowId) (pairs : List (Column × Value)) :
    Behind id fun t => (t.setValues id pairs).1 := by
  induction pairs with
  | nil => exact .id id
  | cons pair rest ih =>
    obtain ⟨c, v⟩ := pair
    simp only [setValues]
    cases checkValue c v with
    | error e => exact .id id
    | ok _ =>
      have hset : ∀ place, Behind id fun t => ((t.setValue id c place v).setValues id rest).1 :=
        fun place => ih.comp (behind_setValue id c place v)
      have hchoice := Behind.atPosition c hset
      refine (funext fun t => ?_ : (fun t : Table => _) = _) ▸ hchoice
      cases t.position c <;> rfl

theorem behind_update (id : RowId) (cs : List Column) (vs : List Value) :
    Behind id fun t => (t.update id cs vs).1 := by
  have hset := behind_setValues id (cs.zip vs)
  unfold update
  constructor
  · rfl
  · intro t
    cases t.row? id with
    | none => rfl
    | some _ => exact hset.name t
  · intro t
    cases t.row? id with
    | none => rfl
    | some _ => exact hset.columns t
  · intro t
    cases t.row? id with
    | none => rfl
    | some _ => exact hset.beyond t
  · intro t n
    have hsame : ({ t with reads := n } : Table).row? id = t.row? id := rfl
    rw [hsame]
    cases t.row? id with
    | none => rfl
    | some _ => exact hset.reads t n

theorem behind_delete (id : RowId) : Behind id fun t => (t.delete id).1 := by
  unfold delete
  constructor
  · rfl
  · intro t
    cases t.row? id <;> rfl
  · intro t
    cases t.row? id <;> rfl
  · intro t
    cases t.row? id with
    | none => rfl
    | some row =>
      rw [List.filter_filter]
      refine List.filter_congr fun row _ => ?_
      by_cases hlater : id < row.1
      · simp [hlater, Ne.symm (Int.ne_of_lt hlater)]
      · simp [hlater]
  · intro t n
    have hsame : ({ t with reads := n } : Table).row? id = t.row? id := rfl
    rw [hsame]
    cases t.row? id <;> rfl

/-- Whether an update of a row is accepted does not depend on the row. -/
theorem setValues_result (hname : t'.name = t.name) (hcolumns : t'.columns = t.columns) (id : RowId)
    (pairs : List (Column × Value)) : (t'.setValues id pairs).2 = (t.setValues id pairs).2 := by
  induction pairs generalizing t t' with
  | nil => rfl
  | cons pair rest ih =>
    obtain ⟨c, v⟩ := pair
    have hposition : t'.position c = t.position c := by
      simp only [position, hname, hcolumns]
    rw [setValues, setValues, hposition]
    cases checkValue c v with
    | error e => rfl
    | ok _ =>
      cases t.position c with
      | error e => rfl
      | ok place => exact ih hname hcolumns

theorem update_result (hname : t'.name = t.name) (hcolumns : t'.columns = t.columns) {id : RowId}
    (hrow : id ∈ t.rows.map (·.1)) (hrow' : id ∈ t'.rows.map (·.1)) (cs : List Column)
    (vs : List Value) : (t'.update id cs vs).2 = (t.update id cs vs).2 := by
  obtain ⟨row, hrow⟩ := exists_row?_of_mem hrow
  obtain ⟨row', hrow'⟩ := exists_row?_of_mem hrow'
  rw [update, update, hrow, hrow']
  exact setValues_result hname hcolumns id (cs.zip vs)

theorem delete_result {id : RowId} (hrow : id ∈ t.rows.map (·.1)) : (t.delete id).2 = true := by
  obtain ⟨row, hrow⟩ := exists_row?_of_mem hrow
  rw [delete, hrow]

end Table

/-! ## In a store -/

namespace Store

/-- The store with one table changed. -/
def change (s : Store) (n : Nat) (f : Table → Table) : Store := s.setTable n (f (s.table n))

theorem table_setTable_of_ne {m n : Nat} (h : m ≠ n) (s : Store) (t : Table) :
    (s.setTable n t).table m = s.table m := by
  simp only [table, setTable, List.getD_eq_getElem?_getD, List.getElem?_set_ne h.symm]

theorem table_change {n : Nat} {f : Table → Table} (h : f (.empty "" []) = .empty "" [])
    (s : Store) : (s.change n f).table n = f (s.table n) := by
  simp only [change, table, setTable, List.getD_eq_getElem?_getD]
  by_cases hn : n < s.tables.length
  · simp [hn]
  · simp [hn, h]

theorem change_id (s : Store) (n : Nat) : (s.change n fun t => t) = s := by
  obtain ⟨tables⟩ := s
  simp only [change, table, setTable, List.getD_eq_getElem?_getD, Store.mk.injEq]
  by_cases hn : n < tables.length
  · simp [hn]
  · exact List.set_eq_of_length_le (Nat.not_lt.1 hn)

theorem change_change {n : Nat} {f : Table → Table} (h : f (.empty "" []) = .empty "" [])
    (s : Store) (g : Table → Table) : (s.change n f).change n g = s.change n fun t => g (f t) := by
  rw [change, table_change h]
  simp only [change, setTable, List.set_set]

theorem setTable_change_self (s : Store) (n : Nat) (f : Table → Table) (t : Table) :
    (s.change n f).setTable n (f t) = (s.setTable n t).change n f := by
  simp only [change, setTable, table, List.set_set, List.getD_eq_getElem?_getD]
  by_cases hn : n < s.tables.length
  · simp [hn]
  · simp only [List.set_eq_of_length_le (Nat.not_lt.1 hn)]

theorem setTable_change {m n : Nat} (h : m ≠ n) (s : Store) (f : Table → Table) (t : Table) :
    (s.change n f).setTable m t = (s.setTable m t).change n f := by
  rw [change, change, table_setTable_of_ne h.symm]
  simp only [setTable, List.set_comm _ _ h.symm]

theorem change_congr {n : Nat} {s : Store} {f g : Table → Table} (h : f (s.table n) = g (s.table n)) :
    s.change n f = s.change n g := by
  rw [change, change, h]

end Store

/-! ## Writes for tuples -/

/-- What is done for every tuple of an input. -/
inductive RowWrite where
  /-- Updates the tuple's row with values that are resolved on the tuple. -/
  | update (values : Assignments)
  | delete

namespace RowWrite

variable (w : RowWrite) (h : TableHandle)

def operator : Operator :=
  match w with
  | update values => .update h values
  | delete => .delete h

def apply : Tuple → RunState → Outcome Unit :=
  match w with
  | update values => TupleStream.updateRow h values
  | delete => TupleStream.deleteRow h

/-- Writes for one tuple after another, up to the first write that fails. -/
def applyAll : List Tuple → RunState → Outcome Unit
  | [], s => (.ok (), s)
  | u :: us, s =>
    match w.apply h u s with
    | (.ok (), s) => applyAll us s
    | (.error f, s) => (.error f, s)

/-- A write for a tuple whose row exists changes the table behind the row, and in the same way
wherever the tables have the same columns. -/
theorem apply_ok {u : Tuple} {s s' : RunState} (hok : w.apply h u s = (.ok (), s'))
    (hrow : u.row ∈ (s.table h).rows.map (·.1)) : ∃ f, Table.Behind u.row f ∧
      ∀ x : RunState, x.bindings.AgreeOn (fun _ => True) s.bindings →
        (x.table h).name = (s.table h).name → (x.table h).columns = (s.table h).columns →
        u.row ∈ (x.table h).rows.map (·.1) →
        w.apply h u x = (.ok (), { x with store := x.store.change h.number f,
                                          affected := x.affected + 1 }) := by
  cases w with
  | delete =>
    refine ⟨_, Table.behind_delete u.row, fun x _ _ _ hx => ?_⟩
    have hfound := Table.delete_result hx
    simp only [apply, TupleStream.deleteRow]
    generalize hd : (x.table h).delete u.row = found at hfound
    obtain ⟨table, _⟩ := found
    cases hfound
    simp only [RunState.setTable, RunState.affect, Store.change]
    rw [show table = ((x.table h).delete u.row).1 from (congrArg Prod.fst hd).symm]
    rfl
  | update values =>
    simp only [apply, TupleStream.updateRow] at hok
    cases hvs : TupleStream.resolveValues values (some u) s with
    | error e => simp [hvs] at hok
    | ok vs =>
      refine ⟨_, Table.behind_update u.row (values.map (·.1)) vs, fun x hb hname hcolumns hx => ?_⟩
      have hvx : TupleStream.resolveValues values (some u) x = .ok vs :=
        (hb.resolveEach_eq (some u) fun _ _ => trivial).trans hvs
      have hresult := Table.update_result hname hcolumns hrow hx (values.map (·.1)) vs
      simp only [hvs] at hok
      simp only [apply, TupleStream.updateRow, hvx]
      generalize hd : (x.table h).update u.row (values.map (·.1)) vs = found at hresult
      generalize (s.table h).update u.row (values.map (·.1)) vs = first at hok hresult
      obtain ⟨table, result⟩ := found
      obtain ⟨table', e | _⟩ := first
      · simp at hok
      · cases hresult
        simp only [RunState.setTable, RunState.affect, Store.change]
        rw [show table = ((x.table h).update u.row (values.map (·.1)) vs).1 from
          (congrArg Prod.fst hd).symm]
        rfl

end RowWrite

end QueryEngine
