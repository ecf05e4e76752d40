import QueryEngine.Proofs.Rows

/-!
# Calls on a table

A table answers one call after another, and any of them may be refused. Its indexes mirror its rows
all along. A refused call leaves behind what an update has set before the assignment it stops at.
-/

set_option autoImplicit false

namespace QueryEngine

namespace Table

inductive Call where
  | insert (cs : List Column) (vs : List Value)
  | push (vs : List Value)
  | update (id : RowId) (cs : List Column) (vs : List Value)
  | delete (id : RowId)
  | createIndex (c : Column)

variable {t t' : Table}

/-- The table that a call leaves when it answers with a new table or not at all. -/
def answer (t : Table) : Except StorageError Table → Table × Except StorageError Unit
  | .ok t' => (t', .ok ())
  | .error e => (t, .error e)

/-- What a call makes of a table, and whether the table refuses it. -/
def call (t : Table) : Call → Table × Except StorageError Unit
  | .insert cs vs => t.answer ((t.insert cs vs).map (·.2))
  | .push vs => t.answer ((t.push vs).map (·.2))
  | .update id cs vs => t.update id cs vs
  | .delete id => ((t.delete id).1, .ok ())
  | .createIndex c => t.answer (t.createIndex c)

/-- A table after one call after another, refused or not. -/
def run (t : Table) (calls : List Call) : Table := calls.foldl (fun t c => (t.call c).1) t

/-! ## What every call keeps -/

theorem answer_induct {P : Table → Prop} {r : Except StorageError Table} (ht : P t)
    (hr : ∀ t', r = .ok t' → P t') : P (t.answer r).1 := by
  cases r with
  | ok t' => exact hr t' rfl
  | error e => exact ht

theorem columns_setValues (t : Table) (id : RowId) (pairs : List (Column × Value)) :
    (t.setValues id pairs).1.columns = t.columns := by
  induction pairs generalizing t with
  | nil => rfl
  | cons p rest ih =>
    obtain ⟨c, v⟩ := p
    rw [setValues]
    cases checkValue c v with
    | error e => rfl
    | ok _ =>
      cases t.position c with
      | error e => rfl
      | ok place => exact ih _

theorem columns_call (t : Table) (c : Call) : (t.call c).1.columns = t.columns := by
  have hinsert (cs : List Column) (vs : List Value) :
      (t.answer ((t.insert cs vs).map (·.2))).1.columns = t.columns := by
    apply answer_induct (P := fun t' => t'.columns = t.columns) rfl
    intro t' ht
    obtain ⟨⟨id, t''⟩, hi, rfl⟩ := Except.map_eq_ok.1 ht
    obtain ⟨_, row, _, rfl⟩ := insert_eq_ok hi
    rfl
  cases c with
  | insert cs vs => exact hinsert cs vs
  | push vs => exact hinsert t.columns vs
  | update id cs vs =>
    simp only [call, update]
    cases t.row? id with
    | none => rfl
    | some row => exact columns_setValues t id _
  | delete id =>
    simp only [call, delete]
    cases t.row? id <;> rfl
  | createIndex c =>
    apply answer_induct (P := fun t' => t'.columns = t.columns) rfl
    intro t' ht
    obtain ⟨_, _, ht⟩ := Except.bind_eq_ok.1 ht
    cases ht
    rfl

theorem columns_run (t : Table) (calls : List Call) : (t.run calls).columns = t.columns := by
  induction calls generalizing t with
  | nil => rfl
  | cons c rest ih => exact (ih _).trans (columns_call t c)

theorem Consistent.call (h : t.Consistent) (c : Call) : (t.call c).1.Consistent := by
  have hinsert (cs : List Column) (vs : List Value) :
      (t.answer ((t.insert cs vs).map (·.2))).1.Consistent := by
    apply answer_induct h
    intro t' ht
    obtain ⟨⟨id, t''⟩, hi, rfl⟩ := Except.map_eq_ok.1 ht
    exact h.insert hi
  cases c with
  | insert cs vs => exact hinsert cs vs
  | push vs => exact hinsert t.columns vs
  | update id cs vs => exact h.update id cs vs
  | delete id => exact h.delete id
  | createIndex c =>
    apply answer_induct h
    intro t' ht
    exact h.createIndex ht

theorem Consistent.run (h : t.Consistent) (calls : List Call) : (t.run calls).Consistent := by
  induction calls generalizing t with
  | nil => exact h
  | cons c rest ih => exact ih (h.call c)

theorem consistent_run (name : String) (cs : List Column) (calls : List Call) :
    ((Table.empty name cs).run calls).Consistent :=
  (Consistent.empty name cs).run calls

/-! ## Indexes after any calls -/

theorem Consistent.hasAt_iff (h : t.Consistent) {c : Column} {place : Nat}
    (hp : t.columns.findIdx? (· = c) = some place) {id : RowId} {v : Value} :
    HasAt t.rows place id v ↔ (t.row? id).map (t.value · c) = some v := by
  rw [Option.map_eq_some_iff]
  apply exists_congr
  intro row
  rw [h.row?_eq_some, value, hp]
  rfl

/-- Whatever calls came before, an index has every row once under the value that the row has now
and nowhere else, no value without rows, and the number of rows. -/
theorem run_indexes_mirror (name : String) (cs : List Column) (calls : List Call) :
    ∀ x ∈ ((Table.empty name cs).run calls).indexes,
      x.column ∈ cs ∧ (x.entries.map (·.1)).Nodup ∧
      (∀ id v, (x.lookup v).count id =
        if (((Table.empty name cs).run calls).row? id).map
          (((Table.empty name cs).run calls).value · x.column) = some v then 1 else 0) ∧
      (∀ entry ∈ x.entries, entry.2 ≠ []) ∧
      x.rows = ((Table.empty name cs).run calls).countRows := by
  intro x hx
  have h := consistent_run name cs calls
  obtain ⟨place, hp, hmirrors⟩ := h.mirrored x hx
  refine ⟨?_, hmirrors.lists.keys, ?_, hmirrors.inhabited, hmirrors.counted⟩
  · have hcolumns : ((Table.empty name cs).run calls).columns = cs := columns_run _ calls
    exact hcolumns ▸ List.mem_of_getElem? (getElem?_of_findIdx? hp)
  · intro id v
    have hmem := (hmirrors.lists.mem id v).trans (h.hasAt_iff hp)
    split
    · rename_i hhas
      exact List.count_eq_one_of_mem (hmirrors.lists.nodup v) (hmem.2 hhas)
    · rename_i hnot
      exact List.count_eq_zero.2 fun hin => hnot (hmem.1 hin)

/-! ### A table of pairs -/

namespace Pairs

def first : Column := ⟨"t.x", .long, false⟩

def second : Column := ⟨"t.y", .long, false⟩

/-- One row with an index, written by two calls. -/
def written : List Call := [.createIndex first, .push [.long 0, .long 0]]

/-- The second assignment is refused. -/
def halfway : Call := .update 0 [first, second] [.long 1, .null]

end Pairs

open Pairs in
/-- The index follows an update as far as it goes. -/
theorem run_indexes_mirror_halfway :
    ∃ x ∈ ((Table.empty "t" [first, second]).run (written ++ [halfway])).indexes,
      (x.lookup (.long 1)).count 0 = 1 ∧ (x.lookup (.long 0)).count 0 = 0 ∧ x.rows = 1 := by
  have hfound : ∃ x, x ∈ ((Table.empty "t" [first, second]).run (written ++ [halfway])).indexes ∧
      x.column = first := ⟨⟨"t.idx_x", first, [(.long 1, [0])], 1⟩, by decide⟩
  obtain ⟨x, hx, hcolumn⟩ := hfound
  obtain ⟨-, -, hids, -, hrows⟩ :=
    run_indexes_mirror "t" [first, second] (written ++ [halfway]) x hx
  refine ⟨x, hx, ?_, ?_, ?_⟩
  · rw [hids, hcolumn]
    decide
  · rw [hids, hcolumn]
    decide
  · rw [hrows]
    decide

/-! ## Refused calls -/

end Table

namespace HashIndex

/-- Two indexes hold the same rows under the same values; how the rows of one value are ordered
does not matter to a look-up, which sorts them. -/
structure SameContents (x y : HashIndex) : Prop where
  name : x.name = y.name
  column : x.column = y.column
  rows : x.rows = y.rows
  keys : ∀ v, v ∈ x.entries.map (·.1) ↔ v ∈ y.entries.map (·.1)
  ids : ∀ v, (x.lookup v).Perm (y.lookup v)

variable {x y : HashIndex} {rows : List (RowId × List Value)} {place : Nat}

theorem Mirrors.mem_keys (h : x.Mirrors rows place) (v : Value) :
    v ∈ x.entries.map (·.1) ↔ ∃ id, Table.HasAt rows place id v := by
  constructor
  · intro hv
    obtain ⟨entry, hentry, rfl⟩ := List.mem_map.1 hv
    obtain ⟨ids, hids⟩ : ∃ ids, x.entries.lookup entry.1 = some ids := by
      rw [← Option.isSome_iff_exists, List.lookup_isSome_iff]
      exact ⟨entry, hentry, beq_self_eq_true entry.1⟩
    obtain ⟨before, behind, hsplit, -⟩ := List.lookup_eq_some_iff.1 hids
    have hmem : (entry.1, ids) ∈ x.entries := by simp [hsplit]
    obtain ⟨id, hid⟩ := List.exists_mem_of_ne_nil ids (h.inhabited _ hmem)
    have hlookup : x.lookup entry.1 = ids := by rw [lookup, hids, Option.getD_some]
    exact ⟨id, (h.lists.mem id entry.1).1 (hlookup ▸ hid)⟩
  · rintro ⟨id, hid⟩
    by_contra hv
    have hin := (h.lists.mem id v).2 hid
    rw [lookup, lookup_eq_none v hv] at hin
    cases hin

theorem Mirrors.sameContents (hx : x.Mirrors rows place) (hy : y.Mirrors rows place)
    (hname : x.name = y.name) (hcolumn : x.column = y.column) : x.SameContents y where
  name := hname
  column := hcolumn
  rows := hx.counted.trans hy.counted.symm
  keys v := (hx.mem_keys v).trans (hy.mem_keys v).symm
  ids v := by
    apply (List.perm_ext_iff_of_nodup (hx.lists.nodup v) (hy.lists.nodup v)).2
    intro id
    exact (hx.lists.mem id v).trans (hy.lists.mem id v).symm

end HashIndex

namespace Table

variable {t t' : Table}

/-- Two tables have the same rows, the same contents of every index and the same next number. -/
structure Unchanged (t t' : Table) : Prop where
  rows : t'.rows = t.rows
  nextRow : t'.nextRow = t.nextRow
  indexes : List.Forall₂ HashIndex.SameContents t.indexes t'.indexes

/-- The assignments up to the first that is refused. -/
def accepted (t : Table) (pairs : List (Column × Value)) : List (Column × Value) :=
  pairs.takeWhile fun p => decide (p.1 ∈ t.columns) && p.1.accepts p.2

theorem position_eq_error {c : Column} {e : StorageError} (h : t.position c = .error e) :
    c ∉ t.columns := by
  intro hc
  unfold position at h
  cases hi : t.columns.findIdx? (· = c) with
  | none => exact absurd hc (findIdx?_eq_none.1 hi)
  | some i => simp [hi] at h

theorem checkValue_eq_error {c : Column} {v : Value} {e : StorageError}
    (h : checkValue c v = .error e) : c.accepts v = false := by
  rw [← Bool.not_eq_true, ← checkValue_eq_ok, h]
  exact fun he => nomatch he

theorem fill_setValue (t : Table) (id : RowId) (d : Column) (place : Nat) (w : Value)
    (row : List Value) (pairs : List (Column × Value)) :
    (t.setValue id d place w).fill row pairs = t.fill row pairs := by
  induction pairs generalizing row with
  | nil => rfl
  | cons p rest ih =>
    obtain ⟨c, v⟩ := p
    rw [fill, fill]
    have hposition : (t.setValue id d place w).position c = t.position c := rfl
    rw [hposition]
    cases t.position c with
    | error e => rfl
    | ok i => exact ih _

theorem map_rows_self {rows : List (RowId × List Value)} (h : rows.Pairwise (·.1 < ·.1))
    {id : RowId} {row : List Value} (hrow : (id, row) ∈ rows) (left : List Value) :
    (rows.map fun r => if r.1 = id then (id, left) else r) = rows ↔ left = row := by
  constructor
  · intro he
    have hleft : (id, left) ∈ rows.map fun r => if r.1 = id then (id, left) else r :=
      List.mem_map.2 ⟨(id, row), hrow, if_pos rfl⟩
    exact eq_of_mem_rows h (he ▸ hleft) hrow
  · rintro rfl
    refine (List.map_congr_left fun r hr => ?_).trans (List.map_id rows)
    split
    · rename_i hid
      obtain ⟨i, old⟩ := r
      obtain rfl : i = id := hid
      rw [eq_of_mem_rows h hr hrow]
      rfl
    · rfl

/-- Assignments one after another leave the row with all that come before the first refused one. -/
theorem Consistent.setValues_rows (h : t.Consistent) {id : RowId} {row : List Value}
    (hrow : (id, row) ∈ t.rows) (pairs : List (Column × Value)) :
    ∃ left, t.fill row (t.accepted pairs) = .ok left ∧
      (t.setValues id pairs).1.rows = t.rows.map fun r => if r.1 = id then (id, left) else r := by
  induction pairs generalizing t row with
  | nil => exact ⟨row, rfl, ((map_rows_self h.ascending hrow row).2 rfl).symm⟩
  | cons p rest ih =>
    obtain ⟨c, v⟩ := p
    have hstop (ht : (t.setValues id ((c, v) :: rest)).1 = t)
        (hp : (decide (c ∈ t.columns) && c.accepts v) = false) :
        ∃ left, t.fill row (t.accepted ((c, v) :: rest)) = .ok left ∧
          (t.setValues id ((c, v) :: rest)).1.rows =
            t.rows.map fun r => if r.1 = id then (id, left) else r := by
      refine ⟨row, ?_, ?_⟩
      · rw [accepted, List.takeWhile_cons, hp]
        rfl
      · rw [ht, (map_rows_self h.ascending hrow row).2 rfl]
    cases hv : checkValue c v with
    | error e =>
      apply hstop
      · simp only [Table.setValues, hv]
      · rw [checkValue_eq_error hv, Bool.and_false]
    | ok _ =>
      cases hp : t.position c with
      | error e =>
        apply hstop
        · simp only [Table.setValues, hv, hp]
        · rw [decide_eq_false (position_eq_error hp), Bool.false_and]
      | ok place =>
        have haccepts := checkValue_eq_ok.1 hv
        have hplace := position_eq_ok.1 hp
        have hc : c ∈ t.columns := List.mem_of_getElem? (getElem?_of_findIdx? hplace)
        have hset : (id, row.set place v) ∈ (t.setValue id c place v).rows :=
          mem_replaced.2 (.inr ⟨rfl, row, hrow, rfl⟩)
        obtain ⟨left, hfill, hrows⟩ := ih (h.setValue hrow hplace haccepts) hset
        have haccepted : t.accepted ((c, v) :: rest) =
            (c, v) :: (t.setValue id c place v).accepted rest := by
          rw [accepted, List.takeWhile_cons, decide_eq_true hc, haccepts]
          rfl
        refine ⟨left, ?_, ?_⟩
        · rw [fill_setValue] at hfill
          rw [haccepted, fill, hp]
          exact hfill
        · simp only [Table.setValues, hv, hp]
          rw [hrows, Table.setValue, List.map_map]
          apply List.map_congr_left
          intro r _
          by_cases hid : r.1 = id <;> simp [hid]

theorem setValues_indexes (t : Table) (id : RowId) (pairs : List (Column × Value)) :
    List.Forall₂ (fun x y : HashIndex => x.name = y.name ∧ x.column = y.column) t.indexes
      (t.setValues id pairs).1.indexes := by
  induction pairs generalizing t with
  | nil => exact List.forall₂_same.2 fun _ _ => ⟨rfl, rfl⟩
  | cons p rest ih =>
    obtain ⟨c, v⟩ := p
    have hself : List.Forall₂ (fun x y : HashIndex => x.name = y.name ∧ x.column = y.column)
        t.indexes t.indexes := List.forall₂_same.2 fun _ _ => ⟨rfl, rfl⟩
    rw [setValues]
    cases checkValue c v with
    | error e => exact hself
    | ok _ =>
      cases t.position c with
      | error e => exact hself
      | ok place =>
        have hrest := ih (t.setValue id c place v)
        rw [setValue, List.forall₂_map_left_iff] at hrest
        refine hrest.imp fun x y hxy => ?_
        split at hxy <;> exact hxy

/-- Which tables have the same contents once an update is over: those with the same rows. -/
theorem Consistent.unchanged_setValues (h : t.Consistent) {id : RowId} {row : List Value}
    (hrow : (id, row) ∈ t.rows) (pairs : List (Column × Value)) :
    t.Unchanged (t.setValues id pairs).1 ↔ (t.setValues id pairs).1.rows = t.rows := by
  constructor
  · exact Unchanged.rows
  · intro hrows
    refine ⟨hrows, nextRow_setValues t id pairs, ?_⟩
    have hafter := h.setValues hrow pairs
    have hcolumns := columns_setValues t id pairs
    have hpairs := setValues_indexes t id pairs
    rw [List.forall₂_iff_get] at hpairs ⊢
    refine ⟨hpairs.1, fun i hi hi' => ?_⟩
    obtain ⟨hname, hcolumn⟩ := hpairs.2 i hi hi'
    obtain ⟨place, hp, hx⟩ := h.mirrored _ (List.get_mem t.indexes ⟨i, hi⟩)
    obtain ⟨place', hp', hy⟩ := hafter.mirrored _ (List.get_mem _ ⟨i, hi'⟩)
    rw [hcolumns, ← hcolumn, hp] at hp'
    cases hp'
    rw [hrows] at hy
    exact hx.sameContents hy hname hcolumn

theorem unchanged_self (t : Table) : t.Unchanged t :=
  ⟨rfl, rfl, List.forall₂_same.2 fun _ _ => ⟨rfl, rfl, rfl, fun _ => .rfl, fun _ => .refl _⟩⟩

/-- A refused call changes nothing, but for an update of a row that is there: this one has changed
nothing just where the assignments before the refused one write what the row has already. -/
theorem refused_call_unchanged_iff (name : String) (cs : List Column) (calls : List Call) (c : Call)
    (e : StorageError) (hrefused : (((Table.empty name cs).run calls).call c).2 = .error e) :
    ((Table.empty name cs).run calls).Unchanged (((Table.empty name cs).run calls).call c).1 ↔
      ∀ id ds vs row, c = .update id ds vs →
        ((Table.empty name cs).run calls).row? id = some row →
        ((Table.empty name cs).run calls).fill row
          (((Table.empty name cs).run calls).accepted (ds.zip vs)) = .ok row := by
  have h := consistent_run name cs calls
  generalize (Table.empty name cs).run calls = t at h hrefused ⊢
  have hanswer (r : Except StorageError Table) (hr : (t.answer r).2 = .error e) :
      t.Unchanged (t.answer r).1 := by
    cases r with
    | ok t' => cases hr
    | error e' => exact unchanged_self t
  cases c with
  | insert ds vs => exact iff_of_true (hanswer _ hrefused) fun _ _ _ _ he => nomatch he
  | push vs => exact iff_of_true (hanswer _ hrefused) fun _ _ _ _ he => nomatch he
  | delete id => cases hrefused
  | createIndex c => exact iff_of_true (hanswer _ hrefused) fun _ _ _ _ he => nomatch he
  | update id ds vs =>
    simp only [call, update]
    cases hrow : t.row? id with
    | none =>
      apply iff_of_true (unchanged_self t)
      rintro _ _ _ row he hsome
      cases he
      rw [hrow] at hsome
      cases hsome
    | some row =>
      have hmem := h.row?_eq_some.1 hrow
      obtain ⟨left, hfill, hrows⟩ := h.setValues_rows hmem (ds.zip vs)
      rw [h.unchanged_setValues hmem, hrows, map_rows_self h.ascending hmem]
      constructor
      · rintro rfl _ _ _ row' he hrow'
        cases he
        rw [hrow] at hrow'
        cases hrow'
        exact hfill
      · intro hall
        have hself := hall id ds vs row rfl hrow
        rw [hfill] at hself
        exact Except.ok.inj hself

open Pairs in
/-- An update whose only assignment is refused changes nothing. -/
theorem refused_call_unchanged_null :
    ((Table.empty "t" [first, second]).run written).Unchanged
      (((Table.empty "t" [first, second]).run written).call (.update 0 [first] [.null])).1 := by
  apply (refused_call_unchanged_iff "t" [first, second] written (.update 0 [first] [.null])
    (.nullRefused "t.x") (by decide)).2
  rintro id ds vs row he hrow
  cases he
  have hfound : ((Table.empty "t" [first, second]).run written).row? 0 =
      some [.long 0, .long 0] := by decide
  rw [hfound] at hrow
  cases hrow
  decide

open Pairs in
/-- An update that is refused keeps what its first assignment has written. -/
theorem refused_update_writes :
    (((Table.empty "t" [first, second]).run written).call halfway).2 =
      .error (.nullRefused "t.y") ∧
    ((Table.empty "t" [first, second]).run written).row? 0 = some [.long 0, .long 0] ∧
    (((Table.empty "t" [first, second]).run written).call halfway).1.row? 0 =
      some [.long 1, .long 0] ∧
    ¬ ((Table.empty "t" [first, second]).run written).Unchanged
      (((Table.empty "t" [first, second]).run written).call halfway).1 := by
  refine ⟨by decide, by decide, by decide, ?_⟩
  intro h
  have hrows : (((Table.empty "t" [first, second]).run written).call halfway).1.rows ≠
      ((Table.empty "t" [first, second]).run written).rows := by decide
  exact hrows h.rows

end Table

end QueryEngine
