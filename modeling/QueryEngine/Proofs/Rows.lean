import Mathlib.Data.List.Nodup
import QueryEngine.Execution.Pipeline
import QueryEngine.Proofs.Tables

/-!
# Tuples of stored rows

A tuple that reads its values off a row by column keeps doing so when it is projected, and when
columns of the same row are added to it.
-/

set_option autoImplicit false

namespace QueryEngine

namespace Tuple

/-- The tuple with the given value for each column. -/
def ofValues (row : RowId) (cs : List Column) (f : Column → Value) : Tuple := ⟨row, cs, cs.map f⟩

variable {row : RowId} {cs : List Column} {f : Column → Value} {c : Column}

theorem get?_ofValues (row : RowId) (cs : List Column) (f : Column → Value) (c : Column) :
    (ofValues row cs f).get? c = .ok (if c ∈ cs then some (f c) else none) := by
  simp only [get?, ofValues]
  cases hi : cs.findIdx? (· = c) with
  | none =>
    have hc : c ∉ cs := findIdx?_eq_none.1 hi
    simp [hc, pure, Except.pure]
  | some i =>
    have hget := Table.getElem?_of_findIdx? hi
    have hc : c ∈ cs := List.mem_of_getElem? hget
    simp [hc, valueAt, hget]

theorem getOrNull_ofValues (hc : c ∈ cs) : (ofValues row cs f).getOrNull c = .ok (f c) := by
  simp [getOrNull, get?_ofValues, hc, Except.map]

theorem project_ofValues {ds : List Column} (h : ∀ d ∈ ds, d ∈ cs) :
    (ofValues row cs f).project ds = .ok (ofValues row ds f) := by
  rw [project, Except.mapM_ok fun d hd => getOrNull_ofValues (h d hd)]
  rfl

theorem complete_ofValues {ds es : List Column} {other : RowId}
    (h : ∀ d ∈ ds, d ∈ cs ∨ d ∈ es) :
    TupleStream.complete ds (ofValues row cs f) (ofValues other es f) =
      .ok (ofValues row ds f) := by
  refine (congrArg (Except.map _) (Except.mapM_ok (g := f) fun d hd => ?_)).trans rfl
  by_cases hc : d ∈ cs
  · simp [get?_ofValues, hc, bind, Except.bind, pure, Except.pure]
  · simp [get?_ofValues, hc, bind, Except.bind, getOrNull_ofValues ((h d hd).resolve_left hc)]

theorem row_project {ds : List Column} {u v : Tuple} (h : u.project ds = .ok v) : v.row = u.row := by
  obtain ⟨vs, _, rfl⟩ := Except.map_eq_ok.1 h
  rfl

end Tuple

theorem TupleStream.row_complete {ds : List Column} {u other v : Tuple}
    (h : complete ds u other = .ok v) : v.row = u.row := by
  obtain ⟨vs, _, rfl⟩ := Except.map_eq_ok.1 h
  rfl

/-- Lists of copies of different elements are equal just where all numbers of copies are. -/
theorem flatMap_replicate_inj {α β : Type} [DecidableEq β] {f : α → β} {n m : α → Nat} {l : List α}
    (hf : (l.map f).Nodup) :
    (l.flatMap fun a => List.replicate (n a) (f a)) =
      (l.flatMap fun a => List.replicate (m a) (f a)) ↔ ∀ a ∈ l, n a = m a := by
  constructor
  · intro h a ha
    have hcount (k : α → Nat) : (l.flatMap fun a => List.replicate (k a) (f a)).count (f a) = k a := by
      clear h
      induction l with
      | nil => cases ha
      | cons b l ih =>
        have hn := List.nodup_cons.1 hf
        rw [List.flatMap_cons, List.count_append, List.count_replicate]
        by_cases he : f b = f a
        · have hrest : (l.flatMap fun a => List.replicate (k a) (f a)).count (f a) = 0 := by
            rw [List.count_eq_zero]
            intro hm
            obtain ⟨c, hc, hm⟩ := List.mem_flatMap.1 hm
            rw [he, (List.eq_of_mem_replicate hm)] at hn
            exact hn.1 (List.mem_map_of_mem hc)
          have hab : k b = k a := by
            rcases List.mem_cons.1 ha with rfl | ha
            · rfl
            · exact absurd (he ▸ List.mem_map_of_mem ha) hn.1
          simp [he, hrest, hab]
        · have ha' : a ∈ l := (List.mem_cons.1 ha).resolve_left fun hab => he (hab ▸ rfl)
          simp [he, ih hn.2 ha']
    rw [← hcount n, h, hcount m]
  · intro h
    exact List.flatMap_congr fun a ha => by rw [h a ha]

namespace Table

variable {t : Table}

/-- The value of a row in a column; a row lacks the columns of other tables. -/
def value (t : Table) (row : List Value) (c : Column) : Value :=
  ((t.columns.findIdx? (· = c)).map fun i => row.getD i .null).getD .null

theorem valuesAt_eq {cs : List Column} {places : List Nat} (h : t.positions cs = .ok places)
    (row : List Value) : valuesAt row places = cs.map (t.value row) := by
  have hall := Except.mapM_eq_ok.1 h
  clear h
  induction hall with
  | nil => rfl
  | @cons c i _ _ hc _ ih =>
    have hv : t.value row c = row.getD i .null := by
      rw [value, position_eq_ok.1 hc]
      rfl
    simp only [valuesAt, List.map_cons] at ih ⊢
    rw [ih, hv]

theorem positions_ok {cs : List Column} (h : ∀ c ∈ cs, c ∈ t.columns) :
    ∃ places, t.positions cs = .ok places := by
  have hplace : ∀ c ∈ cs, t.position c = .ok ((t.columns.findIdx? (· = c)).getD 0) := by
    intro c hc
    rw [position_eq_ok]
    cases hi : t.columns.findIdx? (· = c) with
    | none => exact absurd (h c hc) (findIdx?_eq_none.1 hi)
    | some i => rfl
  exact ⟨_, Except.mapM_ok hplace⟩

/-- A row laid out by columns. -/
def tuple (t : Table) (cs : List Column) (row : RowId × List Value) : Tuple :=
  .ofValues row.1 cs (t.value row.2)

theorem read_eq (h : t.Sound) {row : RowId × List Value} (hrow : row ∈ t.rows) {cs : List Column}
    (hcs : ∀ c ∈ cs, c ∈ t.columns) :
    t.read row.1 cs = .ok (some (t.tuple cs row), { t with reads := t.reads + 1 }) := by
  obtain ⟨places, hp⟩ := positions_ok hcs
  have hfound : t.row? row.1 = some row.2 := h.row?_eq_some.2 hrow
  rw [read, hp]
  simp only [hfound, bind, Except.bind, pure, Except.pure, valuesAt_eq hp, tuple, Tuple.ofValues]

/-- A row that is found is one of the table. -/
theorem read_eq_ok_some {t' : Table} {id : RowId} {cs : List Column} {u : Tuple}
    (h : t.read id cs = .ok (some u, t')) :
    ∃ places row, t.positions cs = .ok places ∧ t.row? id = some row ∧
      u = ⟨id, cs, valuesAt row places⟩ := by
  obtain ⟨places, hplaces, h⟩ := Except.bind_eq_ok.1 h
  cases hrow : t.row? id with
  | none =>
    rw [hrow] at h
    cases h
  | some row =>
    rw [hrow] at h
    cases h
    exact ⟨places, row, hplaces, rfl, rfl⟩

/-- The rows of a table laid out as `cs`, each a number of times. -/
def copies (t : Table) (cs : List Column) (n : List Value → Nat) : List Tuple :=
  t.rows.flatMap fun row => List.replicate (n row.2) (t.tuple cs row)

theorem mem_copies {cs : List Column} {n : List Value → Nat} {u : Tuple} (h : u ∈ t.copies cs n) :
    ∃ row ∈ t.rows, u = t.tuple cs row := by
  obtain ⟨row, hrow, hu⟩ := List.mem_flatMap.1 h
  exact ⟨row, hrow, List.eq_of_mem_replicate hu⟩

/-- Copies that are laid out anew. -/
theorem filterMap_copies {cs ds : List Column} {n : List Value → Nat} {f : Tuple → Option Tuple}
    (h : ∀ row ∈ t.rows, f (t.tuple cs row) = some (t.tuple ds row)) :
    (t.copies cs n).filterMap f = t.copies ds n := by
  rw [copies, List.filterMap_flatMap]
  exact List.flatMap_congr fun row hrow => by rw [List.filterMap_replicate_of_some (h row hrow)]

/-- Copies are equal just where the rows occur equally often. -/
theorem copies_inj (h : t.Sound) {cs : List Column} {n m : List Value → Nat} :
    t.copies cs n = t.copies cs m ↔ ∀ row ∈ t.rows, n row.2 = m row.2 := by
  have hnodup : (t.rows.map (t.tuple cs)).Nodup :=
    List.Nodup.of_map Tuple.row (by rw [List.map_map]; exact h.nodup)
  exact flatMap_replicate_inj hnodup

/-- A scan of a whole table has all rows ahead. -/
theorem remaining_whole {cs : List Column} {places : List Nat} (h : t.positions cs = .ok places) :
    (Cursor.mk cs places 0 1 none).remaining t = t.rows.map (t.tuple cs) := by
  have hcovers : ∀ row : RowId × List Value, (Cursor.mk cs places 0 1 none).covers row.1 = true := by
    intro row
    have hone : Cursor.signedWord 1 = 1 := by decide
    have hzero : Cursor.signedWord 0 = 0 := by decide
    simp [Cursor.covers, hone, hzero]
  rw [Cursor.remaining, List.filter_eq_self.2 fun row _ => hcovers row]
  refine List.map_congr_left fun row _ => ?_
  simp [tuple, Tuple.ofValues, valuesAt_eq h]

end Table

end QueryEngine
