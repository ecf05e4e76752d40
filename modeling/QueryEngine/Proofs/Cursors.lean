import Mathlib.Logic.Function.Basic
import QueryEngine.Proofs.Calls

/-!
# Scans while the table changes

One cursor for each of `p` partitions reads a table, and any calls come between the pulls. A cursor
knows the row that it has returned last and nothing else of the table, so every pull searches the
table as it is then.
-/

set_option autoImplicit false

namespace QueryEngine

/-! ## Partitions as signed words -/

namespace Cursor

theorem signedWord_eq (n : Nat) : signedWord n = (n : Int).bmod 18446744073709551616 := by
  show (BitVec.ofNat 64 n).toInt = _
  rw [BitVec.toInt_eq_toNat_bmod, BitVec.toNat_ofNat, Int.natCast_emod]
  exact Int.emod_bmod n 18446744073709551616

theorem signedWord_small {n : Nat} (h : n < 9223372036854775808) : signedWord n = n := by
  rw [signedWord_eq, Int.bmod_def]
  split <;> omega

theorem signedWord_large {n : Nat} (h : 9223372036854775808 ≤ n) (hw : n < 18446744073709551616) :
    signedWord n = n - 18446744073709551616 := by
  rw [signedWord_eq, Int.bmod_def]
  split <;> omega

theorem signedWord_inj {m n : Nat} (hm : m < 18446744073709551616) (hn : n < 18446744073709551616)
    (h : signedWord m = signedWord n) : m = n := by
  rw [signedWord_eq, signedWord_eq, Int.bmod_def, Int.bmod_def] at h
  split at h <;> split at h <;> omega

/-- The remainder by a word is the remainder by its absolute value. -/
theorem emod_signedWord {p : Nat} (hw : p < 18446744073709551616) (id : Int) :
    id % signedWord p =
      id % ((if p < 9223372036854775808 then p else 18446744073709551616 - p : Nat) : Int) := by
  split
  · rename_i h
    rw [signedWord_small h]
  · rename_i h
    have hneg : signedWord p = -((18446744073709551616 - p : Nat) : Int) := by
      rw [signedWord_large (by omega) hw]
      omega
    rw [hneg, Int.emod_neg]

/-- Every row belongs to a partition, whatever word the number of partitions is read as. -/
theorem exists_partition {p : Nat} (hp : 0 < p) (hw : p < 18446744073709551616) (id : Int) :
    ∃ i < p, id % signedWord p = signedWord i := by
  rw [emod_signedWord hw]
  generalize hk : (if p < 9223372036854775808 then p else 18446744073709551616 - p) = k
  have hsize : 0 < k ∧ k ≤ p ∧ k ≤ 9223372036854775808 := by split at hk <;> omega
  have hlt : id % (k : Int) < k := Int.emod_lt_of_pos id (by omega)
  have hge : 0 ≤ id % (k : Int) := Int.emod_nonneg id (by omega)
  generalize id % (k : Int) = r at hlt hge
  refine ⟨r.toNat, by omega, ?_⟩
  rw [signedWord_small (by omega)]
  omega

theorem partition_unique {p i j : Nat} (hw : p < 18446744073709551616) (hi : i < p) (hj : j < p)
    {id : Int} (hri : id % signedWord p = signedWord i) (hrj : id % signedWord p = signedWord j) :
    i = j :=
  signedWord_inj (Nat.lt_trans hi hw) (Nat.lt_trans hj hw) (hri.symm.trans hrj)

/-- Which rows of a partition have its number as their remainder: all of them, unless the number of
partitions has no positive word. -/
theorem mod_eq_iff {p i : Nat} (hw : p < 18446744073709551616) (hi : i < p) {id : Int}
    (hid : 0 ≤ id) (hbound : id < 9223372036854775808) (h : id % signedWord p = signedWord i) :
    id % (p : Int) = i ↔ p ≤ 9223372036854775808 ∨ id < 18446744073709551616 - p := by
  rw [emod_signedWord hw] at h
  by_cases hsmall : p ≤ 9223372036854775808
  · have hk : (if p < 9223372036854775808 then p else 18446744073709551616 - p) = p := by
      split <;> omega
    rw [hk, signedWord_small (by omega)] at h
    exact iff_of_true h (.inl hsmall)
  · rw [if_neg (by omega)] at h
    have hself : id % (p : Int) = id := Int.emod_eq_of_lt hid (by omega)
    generalize hk : 18446744073709551616 - p = k at h
    have hlt : id % (k : Int) < k := Int.emod_lt_of_pos id (by omega)
    have hge : 0 ≤ id % (k : Int) := Int.emod_nonneg id (by omega)
    have hsigned : signedWord i = i := by
      by_cases hi' : i < 9223372036854775808
      · exact signedWord_small hi'
      · have := signedWord_large (Nat.le_of_not_lt hi') (Nat.lt_trans hi hw)
        omega
    rw [hself]
    constructor
    · intro he
      right
      omega
    · intro hright
      have hsame : id % (k : Int) = id := Int.emod_eq_of_lt hid (by omega)
      omega

end Cursor

/-! ## Pulls and writes in any order -/

/-- A question to the cursor of a partition, with the table as it is then. -/
structure Pull where
  partition : Nat
  table : Table
  answer : Option Tuple

/-- A table and the open cursors of its partitions. -/
structure Scene where
  table : Table
  cursors : Nat → Option Cursor

namespace Scene

inductive Act where
  | open (i : Nat)
  | pull (i : Nat)
  | call (c : Table.Call)

/-- A table before any cursor is open. -/
def start (t : Table) : Scene := ⟨t, fun _ => none⟩

variable (cs : List Column) (p : Nat)

/-- One act and the pull that it makes. A cursor is opened once. -/
def step (s : Scene) : Act → Scene × List Pull
  | .open i =>
    match s.cursors i, s.table.scan cs i p with
    | none, .ok c => (⟨s.table, Function.update s.cursors i (some c)⟩, [])
    | _, _ => (s, [])
  | .pull i =>
    match s.cursors i with
    | none => (s, [])
    | some c =>
      match c.next? s.table with
      | none => (s, [⟨i, s.table, none⟩])
      | some (u, d, t) => (⟨t, Function.update s.cursors i (some d)⟩, [⟨i, s.table, some u⟩])
  | .call c => (⟨(s.table.call c).1, s.cursors⟩, [])

def run (s : Scene) : List Act → Scene × List Pull
  | [] => (s, [])
  | act :: rest =>
    let next := s.step cs p act
    let last := run next.1 rest
    (last.1, next.2 ++ last.2)

end Scene

/-- The numbers of the rows that pulls have yielded. -/
def yields (log : List Pull) : List RowId := log.filterMap fun pull => pull.answer.map (·.row)

/-! ## What the pulls of every partition see -/

/-- A row that a cursor of partition `i` has ahead behind the row `after`. -/
def Ahead (p i : Nat) (after : Option RowId) (id : RowId) : Prop :=
  (∀ a ∈ after, a < id) ∧ id % Cursor.signedWord p = Cursor.signedWord i

/-- Pulls that each yield the first row ahead as it is in the table then, or find none ahead. -/
inductive Faithful (cs : List Column) (p : Nat) : (Nat → Option RowId) → List Pull → Prop
  | nil (after : Nat → Option RowId) : Faithful cs p after []
  | ended {after : Nat → Option RowId} {i : Nat} {t : Table} {rest : List Pull} : i < p →
    (∀ row ∈ t.rows, ¬ Ahead p i (after i) row.1) → Faithful cs p after rest →
    Faithful cs p after (⟨i, t, none⟩ :: rest)
  | yielded {after : Nat → Option RowId} {i : Nat} {t : Table} {row : RowId × List Value}
    {rest : List Pull} : i < p → row ∈ t.rows → Ahead p i (after i) row.1 →
    (∀ other ∈ t.rows, Ahead p i (after i) other.1 → row.1 ≤ other.1) →
    Faithful cs p (Function.update after i (some row.1)) rest →
    Faithful cs p after (⟨i, t, some (t.tuple cs row)⟩ :: rest)

namespace Faithful

variable {cs : List Column} {p : Nat} {after : Nat → Option RowId} {log : List Pull}

theorem of_append {log' : List Pull} (h : Faithful cs p after (log ++ log')) :
    Faithful cs p after log := by
  induction log generalizing after with
  | nil => exact .nil after
  | cons pull rest ih =>
    cases h with
    | ended hi hnone hrest => exact .ended hi hnone (ih hrest)
    | yielded hi hrow hahead hfirst hrest => exact .yielded hi hrow hahead hfirst (ih hrest)

/-- A row that is yielded is in the table then, with its values, and in the partition. -/
theorem current (h : Faithful cs p after log) {pull : Pull} (hpull : pull ∈ log) {u : Tuple}
    (hu : pull.answer = some u) : pull.partition < p ∧
      u.row % Cursor.signedWord p = Cursor.signedWord pull.partition ∧
      ∃ row, (u.row, row) ∈ pull.table.rows ∧ u = pull.table.tuple cs (u.row, row) := by
  induction h with
  | nil => cases hpull
  | ended _ _ _ ih =>
    rcases List.mem_cons.1 hpull with rfl | hpull
    · cases hu
    · exact ih hpull
  | @yielded _ _ _ row _ hi hrow hahead _ _ ih =>
    rcases List.mem_cons.1 hpull with rfl | hpull
    · cases hu
      exact ⟨hi, hahead.2, row.2, hrow, rfl⟩
    · exact ih hpull

/-- A cursor yields only rows behind the last one. -/
theorem later (h : Faithful cs p after log) {pull : Pull} (hpull : pull ∈ log) {u : Tuple}
    (hu : pull.answer = some u) : ∀ a ∈ after pull.partition, a < u.row := by
  induction h with
  | nil => cases hpull
  | ended _ _ _ ih =>
    rcases List.mem_cons.1 hpull with rfl | hpull
    · cases hu
    · exact ih hpull
  | @yielded after i _ row _ _ _ hahead _ _ ih =>
    rcases List.mem_cons.1 hpull with rfl | hin
    · cases hu
      exact hahead.1
    · intro a ha
      by_cases hi : pull.partition = i
      · rw [hi] at ha
        have hlate := ih hin row.1 (by simp [hi])
        exact Int.lt_trans (hahead.1 a ha) hlate
      · exact ih hin a (by rwa [Function.update_of_ne hi])

theorem increasing (h : Faithful cs p after log) (i : Nat) :
    (yields (log.filter (·.partition = i))).Pairwise (· < ·) := by
  induction h with
  | nil => exact .nil
  | ended _ _ _ ih =>
    rw [List.filter_cons]
    split
    · exact ih
    · exact ih
  | @yielded after j t row rest _ _ _ _ hrest ih =>
    rw [List.filter_cons]
    split
    · rename_i hj
      obtain rfl : j = i := of_decide_eq_true hj
      refine List.pairwise_cons.2 ⟨fun id hid => ?_, ih⟩
      obtain ⟨pull, hpull, hid⟩ := List.mem_filterMap.1 hid
      obtain ⟨hpull, hpartition⟩ := List.mem_filter.1 hpull
      obtain ⟨u, hu, rfl⟩ := Option.map_eq_some_iff.1 hid
      apply hrest.later hpull hu
      rw [of_decide_eq_true hpartition, Function.update_self]
      rfl
    · exact ih

/-- No row is yielded twice: its number tells the partition, which yields in ascending order. -/
theorem nodup (h : Faithful cs p after log) (hw : p < 18446744073709551616) :
    (yields log).Nodup := by
  induction h with
  | nil => exact .nil
  | ended _ _ _ ih => exact ih
  | @yielded after i t row rest hi _ hahead _ hrest ih =>
    refine List.nodup_cons.2 ⟨fun hmem => ?_, ih⟩
    obtain ⟨pull, hpull, hid⟩ := List.mem_filterMap.1 hmem
    obtain ⟨u, hu, hrow⟩ := Option.map_eq_some_iff.1 hid
    obtain ⟨hlt, hresidue, -⟩ := hrest.current hpull hu
    obtain rfl : pull.partition = i :=
      Cursor.partition_unique hw hlt hi hresidue (hrow ▸ hahead.2)
    have hlate := hrest.later hpull hu row.1 (by simp)
    rw [hrow] at hlate
    exact Int.lt_irrefl _ hlate

/-- A cursor that comes to its end has yielded every row that it had ahead and that has been there
at all pulls. -/
theorem reached (h : Faithful cs p after log) {i : Nat} {id : RowId}
    (hahead : Ahead p i (after i) id)
    (hended : ∃ pull ∈ log, pull.partition = i ∧ pull.answer = none)
    (hpresent : ∀ pull ∈ log, id ∈ pull.table.rows.map (·.1)) : id ∈ yields log := by
  induction h with
  | nil =>
    obtain ⟨pull, hpull, -⟩ := hended
    cases hpull
  | @ended after j t rest _ hnone _ ih =>
    obtain ⟨hnow, hstays⟩ := List.forall_mem_cons.1 hpresent
    obtain ⟨pull, hpull, hi, hanswer⟩ := hended
    rcases List.mem_cons.1 hpull with rfl | hpull
    · obtain ⟨row, hrow, rfl⟩ := List.mem_map.1 hnow
      subst hi
      exact absurd hahead (hnone row hrow)
    · exact ih hahead ⟨pull, hpull, hi, hanswer⟩ hstays
  | @yielded after j t row rest _ _ _ hfirst _ ih =>
    obtain ⟨hnow, hstays⟩ := List.forall_mem_cons.1 hpresent
    obtain ⟨pull, hpull, hi, hanswer⟩ := hended
    rcases List.mem_cons.1 hpull with rfl | hpull
    · cases hanswer
    have hrest : ∃ pull ∈ rest, pull.partition = i ∧ pull.answer = none :=
      ⟨pull, hpull, hi, hanswer⟩
    by_cases hj : i = j
    · cases hj
      obtain ⟨other, hother, rfl⟩ := List.mem_map.1 hnow
      rcases Int.lt_or_eq_of_le (hfirst other hother hahead) with hlt | heq
      · refine List.mem_cons_of_mem _ (ih ⟨?_, hahead.2⟩ hrest hstays)
        rw [Function.update_self]
        rintro a ⟨⟩
        exact hlt
      · exact heq ▸ List.mem_cons_self
    · refine List.mem_cons_of_mem _ (ih ?_ hrest hstays)
      rwa [Function.update_of_ne hj]

end Faithful

/-! ## What a cursor finds -/

namespace Cursor

variable {c : Cursor} {t : Table} {p i : Nat}

theorem covers_iff (hi : c.partition = i) (hp : c.partitions = p) (id : RowId) :
    c.covers id = true ↔ Ahead p i c.after id := by
  subst hi hp
  unfold covers Ahead
  rw [Bool.and_eq_true, Option.all_eq_true, beq_iff_eq]
  simp only [decide_eq_true_eq, Option.mem_def]

theorem next?_eq_none (hi : c.partition = i) (hp : c.partitions = p) (h : c.next? t = none) :
    ∀ row ∈ t.rows, ¬ Ahead p i c.after row.1 := by
  intro row hrow hahead
  have hfind := Option.map_eq_none_iff.1 h
  have hnot := List.find?_eq_none.1 hfind row hrow
  exact hnot ((covers_iff hi hp row.1).2 hahead)

theorem next?_eq_some (hi : c.partition = i) (hp : c.partitions = p)
    (ht : t.rows.Pairwise (·.1 < ·.1)) {u : Tuple} {d : Cursor} {t' : Table}
    (h : c.next? t = some (u, d, t')) : ∃ row ∈ t.rows,
      u = ⟨row.1, c.columns, Table.valuesAt row.2 c.places⟩ ∧
      d = { c with after := some row.1 } ∧ t' = { t with reads := t.reads + 1 } ∧
      Ahead p i c.after row.1 ∧
      ∀ other ∈ t.rows, Ahead p i c.after other.1 → row.1 ≤ other.1 := by
  obtain ⟨row, hfind, he⟩ := Option.map_eq_some_iff.1 h
  cases he
  obtain ⟨hcovers, before, behind, hsplit, hbefore⟩ := List.find?_eq_some_iff_append.1 hfind
  have hmem : row ∈ t.rows := List.mem_of_find?_eq_some hfind
  refine ⟨row, hmem, rfl, rfl, rfl, (covers_iff hi hp _).1 hcovers, ?_⟩
  intro other hother hahead
  rw [hsplit] at hother ht
  rcases List.mem_append.1 hother with hin | hin
  · have hnot := hbefore other hin
    rw [(covers_iff hi hp other.1).2 hahead] at hnot
    cases hnot
  · rcases List.mem_cons.1 hin with rfl | hin
    · exact Int.le_refl _
    · exact Int.le_of_lt ((List.pairwise_cons.1 (List.pairwise_append.1 ht).2.1).1 other hin)

end Cursor

namespace Table

variable {t t' : Table}

theorem positions_of_columns {cs : List Column} {places : List Nat}
    (hcolumns : t'.columns = t.columns) (h : t.positions cs = .ok places) :
    t'.positions cs = .ok places := by
  rw [positions, Except.mapM_eq_ok] at h ⊢
  apply h.imp
  intro c place hplace
  rw [position_eq_ok] at hplace ⊢
  rwa [hcolumns]

/-- A number that has been given out and whose row is no longer there. -/
def Gone (t : Table) (id : RowId) : Prop := id < t.nextRow ∧ id ∉ t.rows.map (·.1)

theorem ids_setValues (t : Table) (id : RowId) (pairs : List (Column × Value)) :
    (t.setValues id pairs).1.rows.map (·.1) = t.rows.map (·.1) := by
  induction pairs generalizing t with
  | nil => rfl
  | cons p rest ih =>
    obtain ⟨c, v⟩ := p
    rw [setValues]
    cases checkValue c v with
    | error e => rfl
    | ok _ =>
      cases t.position c with
      | error e => rfl
      | ok place => exact (ih _).trans (ids_replaced t.rows id place v)

/-- Numbers are never given out again. -/
theorem Gone.call {id : RowId} (h : t.Gone id) (c : Call) : (t.call c).1.Gone id := by
  have hinsert (cs : List Column) (vs : List Value) :
      (t.answer ((t.insert cs vs).map (·.2))).1.Gone id := by
    apply answer_induct (P := fun t' => t'.Gone id) h
    intro t' ht
    obtain ⟨⟨new, t''⟩, hi, rfl⟩ := Except.map_eq_ok.1 ht
    obtain ⟨_, row, _, rfl⟩ := insert_eq_ok hi
    refine ⟨Int.lt_trans h.1 (Int.lt_succ _), ?_⟩
    rw [List.map_append, List.mem_append, List.map_singleton, List.mem_singleton]
    rintro (hmem | he)
    · exact h.2 hmem
    · exact Int.ne_of_lt h.1 he
  cases c with
  | insert cs vs => exact hinsert cs vs
  | push vs => exact hinsert t.columns vs
  | update row cs vs =>
    simp only [Table.call, update]
    cases t.row? row with
    | none => exact h
    | some _ =>
      refine ⟨?_, ?_⟩
      · rw [nextRow_setValues]
        exact h.1
      · rw [ids_setValues]
        exact h.2
  | delete row =>
    simp only [Table.call, delete]
    cases t.row? row with
    | none => exact h
    | some _ =>
      refine ⟨h.1, fun hmem => h.2 ?_⟩
      exact (List.filter_sublist.map _).subset hmem
  | createIndex c =>
    apply answer_induct (P := fun t' => t'.Gone id) h
    intro t' ht
    obtain ⟨_, _, ht⟩ := Except.bind_eq_ok.1 ht
    cases ht
    exact h

theorem Consistent.gone_delete (h : t.Consistent) {row : RowId × List Value} (hrow : row ∈ t.rows) :
    (t.call (.delete row.1)).1.Gone row.1 := by
  have hfound : t.row? row.1 = some row.2 := h.row?_eq_some.2 hrow
  simp only [Table.call, Table.delete, hfound]
  refine ⟨(h.numbered row hrow).2, fun hmem => ?_⟩
  obtain ⟨other, hother, he⟩ := List.mem_map.1 hmem
  have hne := (List.mem_filter.1 hother).2
  simp [he] at hne

end Table

/-! ## Runs -/

namespace Scene

variable {cs : List Column} {p : Nat} {s : Scene}

/-- A cursor of partition `i` that reads the columns `cs` at their places. -/
structure Serves (cs : List Column) (p i : Nat) (t : Table) (c : Cursor) : Prop where
  lt : i < p
  partition : c.partition = i
  partitions : c.partitions = p
  columns : c.columns = cs
  places : t.positions cs = .ok c.places

/-- What acts keep. -/
structure Ready (cs : List Column) (p : Nat) (s : Scene) : Prop where
  consistent : s.table.Consistent
  serves : ∀ i c, s.cursors i = some c → Serves cs p i s.table c

/-- The row that each cursor has returned last. -/
def after (s : Scene) (i : Nat) : Option RowId := (s.cursors i).bind (·.after)

theorem ready_start {t : Table} (h : t.Consistent) : (start t).Ready cs p :=
  ⟨h, fun _ _ hc => nomatch hc⟩

theorem Ready.setCursor (h : s.Ready cs p) {t : Table} (ht : t.Consistent)
    (hcolumns : t.columns = s.table.columns) {i : Nat} {d : Cursor}
    (hd : Serves cs p i s.table d) :
    Ready cs p ⟨t, Function.update s.cursors i (some d)⟩ := by
  refine ⟨ht, fun j e (he : Function.update s.cursors i (some d) j = some e) => ?_⟩
  have hserves : Serves cs p j s.table e := by
    by_cases hj : j = i
    · subst hj
      rw [Function.update_self] at he
      exact Option.some.inj he ▸ hd
    · rw [Function.update_of_ne hj] at he
      exact h.serves j e he
  exact { hserves with places := Table.positions_of_columns hcolumns hserves.places }

theorem after_setCursor (s : Scene) (t : Table) (i : Nat) (d : Cursor) :
    after ⟨t, Function.update s.cursors i (some d)⟩ = Function.update s.after i d.after := by
  funext j
  by_cases hj : j = i
  · subst hj
    simp [after]
  · simp [after, Function.update_of_ne hj]

/-- One act keeps a scene ready, and what it yields goes before what the next scene yields. -/
theorem Ready.step (h : s.Ready cs p) (act : Act) : (s.step cs p act).1.Ready cs p ∧
    ∀ rest, Faithful cs p (s.step cs p act).1.after rest →
      Faithful cs p s.after ((s.step cs p act).2 ++ rest) := by
  have hidle : s.Ready cs p ∧ ∀ rest, Faithful cs p s.after rest →
      Faithful cs p s.after ([] ++ rest) := ⟨h, fun _ hrest => hrest⟩
  cases act with
  | «open» i =>
    simp only [Scene.step]
    split
    · rename_i d hclosed hscan
      obtain ⟨hi, places, hplaces, rfl⟩ := Table.scan_eq_ok hscan
      have hserves : Serves cs p i s.table ⟨cs, places, i, p, none⟩ := ⟨hi, rfl, rfl, rfl, hplaces⟩
      refine ⟨h.setCursor h.consistent rfl hserves, fun rest hrest => ?_⟩
      -- A cursor that has returned nothing is as far as one that is not open.
      have hsame : Function.update s.after i none = s.after := by
        rw [Function.update_eq_self_iff, after, hclosed]
        rfl
      rw [after_setCursor, hsame] at hrest
      exact hrest
    · exact hidle
  | pull i =>
    simp only [Scene.step]
    split
    · exact hidle
    · rename_i c hc
      have hserves := h.serves i c hc
      have hafter : s.after i = c.after := by rw [after, hc, Option.bind_some]
      split
      · rename_i hnext
        refine ⟨h, fun rest hrest => .ended hserves.lt ?_ hrest⟩
        rw [hafter]
        exact Cursor.next?_eq_none hserves.partition hserves.partitions hnext
      · rename_i u d t hnext
        obtain ⟨row, hrow, rfl, rfl, rfl, hahead, hfirst⟩ :=
          Cursor.next?_eq_some hserves.partition hserves.partitions h.consistent.ascending hnext
        refine ⟨h.setCursor (h.consistent.read (s.table.reads + 1)) rfl { hserves with }, fun rest hrest => ?_⟩
        have htuple : (⟨row.1, c.columns, Table.valuesAt row.2 c.places⟩ : Tuple) =
            s.table.tuple cs row := by
          rw [Table.tuple, Tuple.ofValues, hserves.columns, Table.valuesAt_eq hserves.places]
        rw [after_setCursor] at hrest
        rw [← hafter] at hahead hfirst
        rw [htuple]
        exact .yielded hserves.lt hrow hahead hfirst hrest
  | call c =>
    refine ⟨⟨h.consistent.call c, fun i d hd => ?_⟩, fun rest hrest => hrest⟩
    have hserves := h.serves i d hd
    exact { hserves with
      places := Table.positions_of_columns (Table.columns_call s.table c) hserves.places }

theorem Ready.run (h : s.Ready cs p) (acts : List Act) : (s.run cs p acts).1.Ready cs p := by
  induction acts generalizing s with
  | nil => exact h
  | cons act rest ih => exact ih (h.step act).1

theorem Ready.faithful (h : s.Ready cs p) (acts : List Act) :
    Faithful cs p s.after (s.run cs p acts).2 := by
  induction acts generalizing s with
  | nil => exact .nil s.after
  | cons act rest ih => exact (h.step act).2 _ (ih (h.step act).1)

section Tables

variable {P : Table → Prop} (hread : ∀ t n, P t → P { t with reads := n })
  (hcall : ∀ t c, P t → P (t.call c).1)

include hread hcall

/-- What reads and calls keep of a table holds at every pull. -/
theorem step_tables (h : P s.table) (act : Act) :
    P (s.step cs p act).1.table ∧ ∀ pull ∈ (s.step cs p act).2, P pull.table := by
  have hidle : P s.table ∧ ∀ pull ∈ ([] : List Pull), P pull.table :=
    ⟨h, fun _ hpull => nomatch hpull⟩
  cases act with
  | «open» i =>
    simp only [Scene.step]
    split <;> exact hidle
  | pull i =>
    simp only [Scene.step]
    split
    · exact hidle
    · split
      · exact ⟨h, List.forall_mem_singleton.2 h⟩
      · rename_i hnext
        obtain ⟨_, _, he⟩ := Option.map_eq_some_iff.1 hnext
        cases he
        exact ⟨hread _ _ h, List.forall_mem_singleton.2 h⟩
  | call c => exact ⟨hcall _ c h, fun _ hpull => nomatch hpull⟩

theorem run_tables (h : P s.table) (acts : List Act) :
    ∀ pull ∈ (s.run cs p acts).2, P pull.table := by
  induction acts generalizing s with
  | nil => exact fun _ hpull => nomatch hpull
  | cons act rest ih =>
    have hstep : P (s.step cs p act).1.table ∧ ∀ pull ∈ (s.step cs p act).2, P pull.table :=
      step_tables hread hcall h act
    obtain ⟨hnext, hnow⟩ := hstep
    intro pull hpull
    rcases List.mem_append.1 hpull with hin | hin
    · exact hnow pull hin
    · exact ih hnext pull hin

end Tables

/-- A row that has gone is not yielded again. -/
theorem Ready.not_yielded (h : s.Ready cs p) {id : RowId} (hgone : s.table.Gone id)
    (acts : List Act) : id ∉ yields (s.run cs p acts).2 := by
  intro hmem
  obtain ⟨pull, hpull, hid⟩ := List.mem_filterMap.1 hmem
  obtain ⟨u, hu, rfl⟩ := Option.map_eq_some_iff.1 hid
  obtain ⟨-, -, row, hrow, -⟩ := (h.faithful acts).current hpull hu
  have hthen : pull.table.Gone u.row :=
    run_tables (P := fun t => t.Gone u.row) (fun _ _ h => h) (fun _ c h => h.call c) hgone acts
      pull hpull
  exact hthen.2 (List.mem_map.2 ⟨_, hrow, rfl⟩)

/-- The cursors of `p` partitions, pulled and opened in any order between any calls: each yields
ascending rows of its partition with the values that they have then, none is yielded twice, a row
that stays until all cursors have come to their end is yielded once, and one that is deleted before
is not yielded later. The partition of a row is its remainder as long as `p` is no more than `2^63`;
a larger number is read as a negative word, and then only the rows below its absolute value are in
the partition of their remainder. -/
theorem interleaved_scans (name : String) (ds : List Column) (calls : List Table.Call)
    (cs : List Column) {p : Nat} (hp : 0 < p) (hword : p < 18446744073709551616)
    (acts : List Act) :
    let s := start ((Table.empty name ds).run calls)
    let log := (s.run cs p acts).2
    (∀ i, (yields (log.filter (·.partition = i))).Pairwise (· < ·)) ∧
    (∀ pull ∈ log, ∀ u, pull.answer = some u → pull.partition < p ∧
      (∃ row, (u.row, row) ∈ pull.table.rows ∧ u = pull.table.tuple cs (u.row, row)) ∧
      (u.row < Table.rowBound → (u.row % (p : Int) = pull.partition ↔
        p ≤ 9223372036854775808 ∨ u.row < 18446744073709551616 - p))) ∧
    (yields log).Nodup ∧
    (∀ before behind, log = before ++ behind →
      (∀ i < p, ∃ pull ∈ before, pull.partition = i ∧ pull.answer = none) →
      ∀ id, (∀ pull ∈ before, id ∈ pull.table.rows.map (·.1)) →
        id ∈ yields before ∧ (yields log).count id = 1) ∧
    (∀ first rest id, id ∈ (s.run cs p first).1.table.rows.map (·.1) →
      id ∉ yields ((s.run cs p first).1.run cs p (.call (.delete id) :: rest)).2) := by
  intro s log
  have hready : s.Ready cs p := ready_start (Table.consistent_run name ds calls)
  have hfaithful : Faithful cs p s.after log := hready.faithful acts
  refine ⟨hfaithful.increasing, ?_, hfaithful.nodup hword, ?_, ?_⟩
  · intro pull hpull u hu
    obtain ⟨hlt, hresidue, row, hrow, htuple⟩ := hfaithful.current hpull hu
    have hthen : pull.table.Consistent :=
        run_tables (P := Table.Consistent) (fun _ n h => h.read n) (fun _ c h => h.call c)
        hready.consistent acts pull hpull
    have hnumbered : 0 ≤ u.row := (hthen.numbered _ hrow).1
    exact ⟨hlt, ⟨row, hrow, htuple⟩, fun hbound =>
      Cursor.mod_eq_iff hword hlt hnumbered hbound hresidue⟩
  · intro before behind hsplit hended id hpresent
    obtain ⟨i, hi, hresidue⟩ := Cursor.exists_partition hp hword id
    have hbefore : Faithful cs p s.after before := (hsplit ▸ hfaithful).of_append
    have hahead : Ahead p i (s.after i) id := ⟨fun a ha => (nomatch ha), hresidue⟩
    have hmem : id ∈ yields before := hbefore.reached hahead (hended i hi) hpresent
    refine ⟨hmem, List.count_eq_one_of_mem (hfaithful.nodup hword) ?_⟩
    rw [hsplit, yields, List.filterMap_append]
    exact List.mem_append_left _ hmem
  · intro first rest id hid
    have hfirst := hready.run first
    obtain ⟨⟨i, row⟩, hrow, rfl⟩ := List.mem_map.1 hid
    have hgone := hfirst.consistent.gone_delete hrow
    exact (hfirst.step (.call (.delete i))).1.not_yielded hgone rest

/-! ### A table of numbers -/

namespace Numbers

def column : Column := ⟨"t.x", .long, false⟩

/-- Three rows. -/
def written : List Table.Call := [.push [.long 10], .push [.long 11], .push [.long 12]]

/-- Two cursors, the second opened late, while the last row is deleted. -/
def halves : List Act :=
  [.open 0, .pull 0, .call (.delete 2), .open 1, .pull 1, .pull 0, .pull 1]

end Numbers

open Numbers in
/-- The row that stays is yielded once. -/
theorem interleaved_scans_halves :
    (yields ((start ((Table.empty "t" [column]).run written)).run [column] 2 halves).2).count 1 = 1 := by
  obtain ⟨-, -, -, hstays, -⟩ :=
    interleaved_scans "t" [column] written [column] (p := 2) (by decide) (by decide) halves
  exact (hstays _ [] (List.append_nil _).symm (by decide) 1 (by decide)).2

open Numbers in
/-- Among `2^64 - 1` partitions the first has all rows, also those with another remainder. -/
theorem interleaved_scans_misplaced :
    ∃ pull ∈ ((start ((Table.empty "t" [column]).run written)).run [column] 18446744073709551615
        [.open 0, .pull 0, .pull 0]).2,
      pull.partition = 0 ∧ pull.answer.map (·.row) = some 1 ∧
        (1 : Int) % (18446744073709551615 : Nat) ≠ pull.partition := by
  decide

end Scene

end QueryEngine
