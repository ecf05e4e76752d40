import Mathlib.Data.List.Nodup
import QueryEngine.Proofs.Results
import QueryEngine.Storage.Table

/-!
# Tables and their indexes

Every table that writes can lead to keeps its rows in ascending order, holds values that its columns
may hold and has indexes that list, for every value, exactly the rows that have it.
-/

set_option autoImplicit false

namespace QueryEngine

/-! ## Indexes -/

namespace HashIndex

/-- An index lists a row under a value just where `holds` says so, and once. -/
structure Lists (x : HashIndex) (holds : RowId → Value → Prop) : Prop where
  keys : (x.entries.map (·.1)).Nodup
  nodup : ∀ v, (x.lookup v).Nodup
  mem : ∀ id v, id ∈ x.lookup v ↔ holds id v

variable {x : HashIndex} {holds : RowId → Value → Prop}

theorem Lists.congr {holds' : RowId → Value → Prop} (h : x.Lists holds)
    (he : ∀ id v, holds id v ↔ holds' id v) : x.Lists holds' :=
  ⟨h.keys, h.nodup, fun id v => (h.mem id v).trans (he id v)⟩

theorem lists_empty (name : String) (c : Column) : (empty name c).Lists fun _ _ => False :=
  ⟨List.nodup_nil, fun _ => List.nodup_nil, fun _ _ => iff_of_false List.not_mem_nil id⟩

section Entries

variable (v w : Value) (id : RowId)

theorem lookup_entry (u : Value) (ids : List RowId) (rest : List (Value × List RowId)) :
    ((u, ids) :: rest).lookup w = if w = u then some ids else rest.lookup w := by
  rw [List.lookup_cons]
  by_cases h : w = u
  · simp [h]
  · have hb : (w == u) = false := by simpa using h
    simp [h, hb]

theorem lookup_addEntry (entries : List (Value × List RowId)) :
    ((addEntry v id entries).lookup w).getD [] =
      if w = v then (entries.lookup v).getD [] ++ [id] else (entries.lookup w).getD [] := by
  induction entries with
  | nil => by_cases h : w = v <;> simp [addEntry, lookup_entry, h]
  | cons entry rest ih =>
    obtain ⟨u, ids⟩ := entry
    by_cases hu : u = v
    · subst hu
      by_cases hw : w = u <;> simp [addEntry, lookup_entry, hw]
    · have hvu : v ≠ u := fun h => hu h.symm
      by_cases hw : w = u
      · subst hw
        simp [addEntry, hu]
      · simp [addEntry, lookup_entry, hu, hw, hvu, ih]

theorem mem_keys_addEntry (entries : List (Value × List RowId)) :
    w ∈ (addEntry v id entries).map (·.1) ↔ w = v ∨ w ∈ entries.map (·.1) := by
  induction entries with
  | nil => simp [addEntry]
  | cons entry rest ih =>
    obtain ⟨u, ids⟩ := entry
    by_cases hu : u = v
    · subst hu
      simp [addEntry]
    · simp only [addEntry, hu, if_false, List.map_cons, List.mem_cons, ih]
      tauto

theorem keys_addEntry {entries : List (Value × List RowId)} (h : (entries.map (·.1)).Nodup) :
    ((addEntry v id entries).map (·.1)).Nodup := by
  induction entries with
  | nil => simp [addEntry]
  | cons entry rest ih =>
    obtain ⟨u, ids⟩ := entry
    have hn := List.nodup_cons.1 h
    by_cases hu : u = v
    · subst hu
      simpa [addEntry] using h
    · simp only [addEntry, hu, if_false, List.map_cons]
      refine List.nodup_cons.2 ⟨fun hm => ?_, ih hn.2⟩
      rcases (mem_keys_addEntry v u id rest).1 hm with hv | hm
      · exact hu hv
      · exact hn.1 hm

theorem removeEntry_sublist (entries : List (Value × List RowId)) :
    ((removeEntry v id entries).map (·.1)).Sublist (entries.map (·.1)) := by
  induction entries with
  | nil => exact .slnil
  | cons entry rest ih =>
    obtain ⟨u, ids⟩ := entry
    by_cases hu : u = v
    · simp only [removeEntry, hu, if_true]
      split
      · exact List.sublist_cons_self _ _
      · exact .refl _
    · simp only [removeEntry, hu, if_false, List.map_cons]
      exact ih.cons_cons u

theorem addEntry_inhabited {entries : List (Value × List RowId)}
    (h : ∀ entry ∈ entries, entry.2 ≠ []) : ∀ entry ∈ addEntry v id entries, entry.2 ≠ [] := by
  induction entries with
  | nil => simp [addEntry]
  | cons entry rest ih =>
    obtain ⟨u, ids⟩ := entry
    obtain ⟨hids, hrest⟩ := List.forall_mem_cons.1 h
    by_cases hu : u = v
    · simp only [addEntry, hu, if_true]
      exact List.forall_mem_cons.2 ⟨by simp, hrest⟩
    · simp only [addEntry, hu, if_false]
      exact List.forall_mem_cons.2 ⟨hids, ih hrest⟩

theorem removeEntry_inhabited {entries : List (Value × List RowId)}
    (h : ∀ entry ∈ entries, entry.2 ≠ []) : ∀ entry ∈ removeEntry v id entries, entry.2 ≠ [] := by
  induction entries with
  | nil => exact h
  | cons entry rest ih =>
    obtain ⟨u, ids⟩ := entry
    obtain ⟨hids, hrest⟩ := List.forall_mem_cons.1 h
    by_cases hu : u = v
    · simp only [removeEntry, hu, if_true]
      split
      · exact hrest
      · rename_i hleft
        exact List.forall_mem_cons.2 ⟨fun he => hleft (List.isEmpty_iff.2 he), hrest⟩
    · simp only [removeEntry, hu, if_false]
      exact List.forall_mem_cons.2 ⟨hids, ih hrest⟩

theorem lookup_eq_none {entries : List (Value × List RowId)} (h : w ∉ entries.map (·.1)) :
    entries.lookup w = none := by
  rw [List.lookup_eq_none_iff]
  intro entry he
  have hne : w ≠ entry.1 := fun hw => h (hw ▸ List.mem_map_of_mem he)
  simpa using hne

theorem lookup_removeEntry {entries : List (Value × List RowId)} (h : (entries.map (·.1)).Nodup) :
    ((removeEntry v id entries).lookup w).getD [] =
      if w = v then ((entries.lookup v).getD []).filter (· ≠ id)
      else (entries.lookup w).getD [] := by
  induction entries with
  | nil => simp [removeEntry]
  | cons entry rest ih =>
    obtain ⟨u, ids⟩ := entry
    have hn := List.nodup_cons.1 h
    by_cases hu : u = v
    · subst hu
      have hrest : rest.lookup u = none := lookup_eq_none u hn.1
      by_cases hw : w = u
      · subst hw
        simp only [removeEntry, if_true]
        split
        · rename_i he
          simpa [hrest] using he
        · simp
      · simp only [removeEntry, if_true, hw, if_false]
        split <;> simp [lookup_entry, hw]
    · have hvu : v ≠ u := fun he => hu he.symm
      by_cases hw : w = u
      · subst hw
        simp [removeEntry, hu]
      · simp [removeEntry, lookup_entry, hu, hw, hvu, ih hn.2]

end Entries

theorem Lists.add (h : x.Lists holds) {v : Value} {id : RowId} (hnew : ¬ holds id v) :
    (x.add v id).Lists fun i w => holds i w ∨ (i = id ∧ w = v) := by
  have hlookup (w : Value) :
      (x.add v id).lookup w = if w = v then x.lookup v ++ [id] else x.lookup w :=
    lookup_addEntry v w id x.entries
  refine ⟨keys_addEntry v id h.keys, fun w => ?_, fun i w => ?_⟩
  · rw [hlookup]
    split
    · refine List.nodup_append.2 ⟨h.nodup v, by simp, fun i hi j hj hij => ?_⟩
      have hid : i = id := hij.trans (List.mem_singleton.1 hj)
      exact hnew ((h.mem id v).1 (hid ▸ hi))
    · exact h.nodup w
  · rw [hlookup]
    split
    · rename_i hw
      subst hw
      simp [h.mem]
    · rename_i hw
      simp [h.mem, hw]

theorem Lists.remove (h : x.Lists holds) (v : Value) (id : RowId) :
    (x.remove v id).Lists fun i w => holds i w ∧ ¬ (i = id ∧ w = v) := by
  have hlookup (w : Value) :
      (x.remove v id).lookup w = if w = v then (x.lookup v).filter (· ≠ id) else x.lookup w :=
    lookup_removeEntry v w id h.keys
  refine ⟨(removeEntry_sublist v id x.entries).nodup h.keys, fun w => ?_, fun i w => ?_⟩
  · rw [hlookup]
    split
    · exact (h.nodup v).filter _
    · exact h.nodup w
  · rw [hlookup]
    split
    · rename_i hw
      subst hw
      simp [h.mem]
    · rename_i hw
      simp [h.mem, hw]

end HashIndex

/-! ## Tables -/

namespace Table

/-- Row numbers are words of 64 bits with a sign, which are less. -/
def rowBound : Int := 9223372036854775808

/-- Tables that writes and reads lead to. -/
inductive Reachable : Table → Prop
  | empty (name : String) (cs : List Column) : Reachable (empty name cs)
  | insert {t t' : Table} {cs : List Column} {vs : List Value} {id : RowId} : Reachable t →
    t.nextRow < rowBound → t.insert cs vs = .ok (id, t') → Reachable t'
  | update {t : Table} (id : RowId) (cs : List Column) (vs : List Value) : Reachable t →
    Reachable (t.update id cs vs).1
  | delete {t : Table} (id : RowId) : Reachable t → Reachable (t.delete id).1
  | createIndex {t t' : Table} {c : Column} : Reachable t → t.createIndex c = .ok t' → Reachable t'
  | read {t : Table} (reads : Nat) : Reachable t → Reachable { t with reads := reads }

/-- Whether a row has a value at a place. -/
def HasAt (rows : List (RowId × List Value)) (place : Nat) (id : RowId) (v : Value) : Prop :=
  ∃ row, (id, row) ∈ rows ∧ row.getD place .null = v

/-- What every write keeps. -/
structure Sound (t : Table) : Prop where
  ascending : t.rows.Pairwise (·.1 < ·.1)
  numbered : ∀ row ∈ t.rows, 0 ≤ row.1 ∧ row.1 < t.nextRow
  bounded : 0 ≤ t.nextRow ∧ t.nextRow ≤ rowBound
  typed : ∀ row ∈ t.rows, List.Forall₂ (fun c v => c.accepts v = true) t.columns row.2
  mirrored : ∀ x ∈ t.indexes, ∃ place, t.columns.findIdx? (· = x.column) = some place ∧
    x.Lists (HasAt t.rows place)

variable {t t' : Table}

theorem position_eq_ok {c : Column} {place : Nat} :
    t.position c = .ok place ↔ t.columns.findIdx? (· = c) = some place := by
  unfold position
  cases t.columns.findIdx? (· = c) <;> simp

theorem getElem?_of_findIdx? {cs : List Column} {c : Column} {place : Nat}
    (h : cs.findIdx? (· = c) = some place) : cs[place]? = some c := by
  obtain ⟨hlt, hc, _⟩ := List.findIdx?_eq_some_iff_getElem.1 h
  rw [List.getElem?_eq_getElem hlt, of_decide_eq_true hc]

/-- What a scan that can be opened starts from. -/
theorem scan_eq_ok {t : Table} {cs : List Column} {i n : Nat} {c : Cursor}
    (h : t.scan cs i n = .ok c) :
    i < n ∧ ∃ places, t.positions cs = .ok places ∧ c = ⟨cs, places, i, n, none⟩ := by
  unfold scan at h
  split at h
  · cases h
  · rename_i hvalid
    obtain ⟨places, hplaces, h⟩ := Except.bind_eq_ok.1 h
    cases h
    exact ⟨by omega, places, hplaces, rfl⟩

theorem checkValue_eq_ok {c : Column} {v : Value} :
    checkValue c v = .ok () ↔ c.accepts v = true := by
  unfold checkValue Column.accepts
  cases v.isNull <;> cases c.nullable <;> cases c.type.accepts v <;> simp

theorem checkRow_eq_ok {pairs : List (Column × Value)} :
    checkRow pairs = .ok () ↔ ∀ p ∈ pairs, p.1.accepts p.2 = true := by
  induction pairs with
  | nil => simp [checkRow]
  | cons p rest ih =>
    obtain ⟨c, v⟩ := p
    rw [checkRow, List.forall_mem_cons, ← ih, ← checkValue_eq_ok]
    cases checkValue c v <;> simp

theorem fill_length {row found : List Value} {pairs : List (Column × Value)}
    (h : t.fill row pairs = .ok found) : found.length = row.length := by
  induction pairs generalizing row with
  | nil =>
    cases h
    rfl
  | cons p rest ih =>
    obtain ⟨c, v⟩ := p
    rw [fill] at h
    cases hp : t.position c with
    | error e => simp [hp] at h
    | ok i =>
      simp only [hp] at h
      rw [ih h, List.length_set]

theorem lookup_eq_some {rows : List (RowId × List Value)} (h : rows.Pairwise (·.1 < ·.1))
    {id : RowId} {row : List Value} : rows.lookup id = some row ↔ (id, row) ∈ rows := by
  induction rows with
  | nil => simp
  | cons first rest ih =>
    obtain ⟨i, r⟩ := first
    have hp := List.pairwise_cons.1 h
    by_cases he : id = i
    · subst he
      have hnot : (id, row) ∉ rest := fun hm => Int.lt_irrefl id (hp.1 _ hm)
      simp [hnot, eq_comm]
    · have hb : (id == i) = false := by simpa using he
      simp [List.lookup_cons, hb, he, ih hp.2]

theorem nodup_ids {rows : List (RowId × List Value)} (h : rows.Pairwise (·.1 < ·.1)) :
    (rows.map (·.1)).Nodup :=
  List.Pairwise.map _ (fun _ _ hlt => Int.ne_of_lt hlt) h

theorem eq_of_mem_rows {rows : List (RowId × List Value)} (h : rows.Pairwise (·.1 < ·.1))
    {id : RowId} {row other : List Value} (hrow : (id, row) ∈ rows) (hother : (id, other) ∈ rows) :
    row = other := by
  rw [← lookup_eq_some h] at hrow hother
  exact Option.some.inj (hrow.symm.trans hother)

theorem length_filter_ne {rows : List (RowId × List Value)} (h : rows.Pairwise (·.1 < ·.1))
    {id : RowId} {row : List Value} (hrow : (id, row) ∈ rows) :
    (rows.filter (·.1 ≠ id)).length = rows.length - 1 := by
  have hone : rows.countP (·.1 == id) = 1 := by
    have hmem : id ∈ rows.map (·.1) := List.mem_map.2 ⟨_, hrow, rfl⟩
    rw [← List.count_eq_one_of_mem (nodup_ids h) hmem, List.count, List.countP_map]
    rfl
  have hsum := List.length_eq_countP_add_countP (l := rows) fun row => row.1 == id
  have hfilter : (rows.filter (·.1 ≠ id)).length = rows.countP fun row => !(row.1 == id) := by
    rw [List.countP_eq_length_filter]
    refine congrArg List.length (List.filter_congr fun row _ => ?_)
    by_cases he : row.1 = id <;> simp [he]
  have hnot : (rows.countP fun row => !(row.1 == id)) = rows.countP fun row => ¬ (row.1 == id) = true :=
    List.countP_congr fun row _ => by simp
  omega

/-- The rows once the value at one place of one row has been replaced. -/
theorem mem_replaced {rows : List (RowId × List Value)} {id i : RowId} {place : Nat} {v : Value}
    {row : List Value} :
    (i, row) ∈ (rows.map fun row => if row.1 = id then (id, row.2.set place v) else row) ↔
      (i ≠ id ∧ (i, row) ∈ rows) ∨ (i = id ∧ ∃ old, (id, old) ∈ rows ∧ row = old.set place v) := by
  rw [List.mem_map]
  constructor
  · rintro ⟨⟨j, old⟩, hold, he⟩
    by_cases hj : j = id
    · subst hj
      simp only [if_true, Prod.mk.injEq] at he
      exact .inr ⟨he.1.symm, old, hold, he.2.symm⟩
    · simp only [hj, if_false, Prod.mk.injEq] at he
      obtain ⟨rfl, rfl⟩ := he
      exact .inl ⟨hj, hold⟩
  · rintro (⟨hne, hrow⟩ | ⟨rfl, old, hold, rfl⟩)
    · exact ⟨(i, row), hrow, by simp [hne]⟩
    · exact ⟨(i, old), hold, by simp⟩

theorem ids_replaced (rows : List (RowId × List Value)) (id : RowId) (place : Nat) (v : Value) :
    (rows.map fun row => if row.1 = id then (id, row.2.set place v) else row).map (·.1) =
      rows.map (·.1) := by
  rw [List.map_map]
  refine List.map_congr_left fun row _ => ?_
  by_cases he : row.1 = id <;> simp [he]

theorem forall₂_set {α β : Type} {R : α → β → Prop} {l : List α} {l' : List β}
    (h : List.Forall₂ R l l') {i : Nat} {a : α} (ha : l[i]? = some a) {b : β} (hb : R a b) :
    List.Forall₂ R l (l'.set i b) := by
  induction h generalizing i with
  | nil => simp
  | cons hab hrest ih =>
    cases i with
    | zero =>
      simp only [List.getElem?_cons_zero, Option.some.injEq] at ha
      subst ha
      exact .cons hb hrest
    | succ i => exact .cons hab (ih ha)

theorem getD_of_forall₂ {cs : List Column} {row : List Value}
    (h : List.Forall₂ (fun c v => c.accepts v = true) cs row) {c : Column} {place : Nat}
    (hp : cs.findIdx? (· = c) = some place) :
    place < row.length ∧ c.accepts (row.getD place .null) = true := by
  obtain ⟨hlt, hget⟩ := List.getElem?_eq_some_iff.1 (getElem?_of_findIdx? hp)
  have hlt' : place < row.length := h.length_eq ▸ hlt
  refine ⟨hlt', ?_⟩
  have := (List.forall₂_iff_get.1 h).2 place hlt hlt'
  simpa [List.getD_eq_getElem?_getD, hlt', hget] using this

end Table

/-! ### Indexes and the rows they mirror -/

namespace HashIndex

open Table

variable {x : HashIndex} {rows : List (RowId × List Value)} {place : Nat} {id : RowId}

/-- An index lists the value that every row has at a place, counts the rows, and lists no value
without rows. -/
structure Mirrors (x : HashIndex) (rows : List (RowId × List Value)) (place : Nat) : Prop where
  lists : x.Lists (HasAt rows place)
  inhabited : ∀ entry ∈ x.entries, entry.2 ≠ []
  counted : x.rows = rows.length

theorem mirrors_empty (name : String) (c : Column) (place : Nat) :
    (empty name c).Mirrors [] place where
  lists := (lists_empty name c).congr fun id v => by simp [HasAt]
  inhabited _ h := nomatch h
  counted := rfl

theorem Mirrors.append (h : x.Mirrors rows place) (hnew : id ∉ rows.map (·.1)) (row : List Value) :
    (x.add (row.getD place .null) id).Mirrors (rows ++ [(id, row)]) place := by
  have hnot (v : Value) : ¬ HasAt rows place id v := fun ⟨r, hr, _⟩ =>
    hnew (List.mem_map.2 ⟨_, hr, rfl⟩)
  refine ⟨(h.lists.add (hnot _)).congr fun i v => ?_, addEntry_inhabited _ id h.inhabited, ?_⟩
  · constructor
    · rintro (⟨r, hr, rfl⟩ | ⟨rfl, rfl⟩)
      · exact ⟨r, List.mem_append_left _ hr, rfl⟩
      · exact ⟨row, by simp, rfl⟩
    · rintro ⟨r, hr, rfl⟩
      rcases List.mem_append.1 hr with hr | hr
      · exact .inl ⟨r, hr, rfl⟩
      · cases List.mem_singleton.1 hr
        exact .inr ⟨rfl, rfl⟩
  · rw [List.length_append, List.length_singleton, ← h.counted]
    rfl

theorem Mirrors.delete (h : x.Mirrors rows place) (hp : rows.Pairwise (·.1 < ·.1))
    {row : List Value} (hrow : (id, row) ∈ rows) :
    (x.remove (row.getD place .null) id).Mirrors (rows.filter (·.1 ≠ id)) place := by
  refine ⟨(h.lists.remove _ id).congr fun i v => ?_, removeEntry_inhabited _ id h.inhabited, ?_⟩
  · constructor
    · rintro ⟨⟨r, hr, rfl⟩, hne⟩
      have hid : i ≠ id := by
        rintro rfl
        exact hne ⟨rfl, by rw [eq_of_mem_rows hp hr hrow]⟩
      exact ⟨r, List.mem_filter.2 ⟨hr, by simpa using hid⟩, rfl⟩
    · rintro ⟨r, hr, rfl⟩
      obtain ⟨hr, hne⟩ := List.mem_filter.1 hr
      exact ⟨⟨r, hr, rfl⟩, fun he => by simp [he.1] at hne⟩
  · rw [length_filter_ne hp hrow, ← h.counted]
    rfl

/-- An index on the column that is replaced takes the row out and in again. -/
theorem Mirrors.replace (h : x.Mirrors rows place) (hp : rows.Pairwise (·.1 < ·.1))
    {row : List Value} (hrow : (id, row) ∈ rows) (hlt : place < row.length) (v : Value) :
    ((x.remove (row.getD place .null) id).add v id).Mirrors
      (rows.map fun row => if row.1 = id then (id, row.2.set place v) else row) place := by
  have hnot : ¬ (HasAt rows place id v ∧ ¬ (id = id ∧ v = row.getD place .null)) := by
    rintro ⟨⟨r, hr, rfl⟩, hne⟩
    exact hne ⟨rfl, by rw [eq_of_mem_rows hp hr hrow]⟩
  refine ⟨((h.lists.remove _ id).add hnot).congr fun i w => ?_,
    addEntry_inhabited _ id (removeEntry_inhabited _ id h.inhabited), ?_⟩
  · constructor
    · rintro (⟨⟨r, hr, rfl⟩, hne⟩ | ⟨rfl, rfl⟩)
      · have hid : i ≠ id := by
          rintro rfl
          exact hne ⟨rfl, by rw [eq_of_mem_rows hp hr hrow]⟩
        exact ⟨r, mem_replaced.2 (.inl ⟨hid, hr⟩), rfl⟩
      · exact ⟨_, mem_replaced.2 (.inr ⟨rfl, row, hrow, rfl⟩), by simp [hlt]⟩
    · rintro ⟨r, hr, rfl⟩
      rcases mem_replaced.1 hr with ⟨hid, hkept⟩ | ⟨rfl, old, hold, rfl⟩
      · exact .inl ⟨⟨r, hkept, rfl⟩, fun he => hid he.1⟩
      · rw [eq_of_mem_rows hp hold hrow]
        exact .inr ⟨rfl, by simp [hlt]⟩
  · have hpos : 0 < rows.length := List.length_pos_of_mem hrow
    have hcount : ((x.remove (row.getD place .null) id).add v id).rows = x.rows - 1 + 1 := rfl
    rw [List.length_map, hcount, h.counted]
    omega

/-- An index on another column need not follow. -/
theorem Mirrors.keep (h : x.Mirrors rows place) {other : Nat} (hne : other ≠ place) (id : RowId)
    (v : Value) :
    x.Mirrors (rows.map fun row => if row.1 = id then (id, row.2.set other v) else row) place := by
  have hkept (r : List Value) : (r.set other v).getD place .null = r.getD place .null := by
    simp [List.getD_eq_getElem?_getD, List.getElem?_set_ne hne]
  refine ⟨h.lists.congr fun i w => ?_, h.inhabited, by rw [h.counted, List.length_map]⟩
  constructor
  · rintro ⟨r, hr, rfl⟩
    by_cases hid : i = id
    · subst hid
      exact ⟨_, mem_replaced.2 (.inr ⟨rfl, r, hr, rfl⟩), hkept r⟩
    · exact ⟨r, mem_replaced.2 (.inl ⟨hid, hr⟩), rfl⟩
  · rintro ⟨r, hr, rfl⟩
    rcases mem_replaced.1 hr with ⟨_, hr'⟩ | ⟨rfl, old, hold, rfl⟩
    · exact ⟨r, hr', rfl⟩
    · exact ⟨old, hold, (hkept old).symm⟩

end HashIndex

namespace Table

variable {t t' : Table}

/-! ### What every write keeps -/

/-- Rows in ascending order below the next number, values that the columns may hold, and indexes
that mirror the rows. -/
structure Consistent (t : Table) : Prop where
  ascending : t.rows.Pairwise (·.1 < ·.1)
  numbered : ∀ row ∈ t.rows, 0 ≤ row.1 ∧ row.1 < t.nextRow
  started : 0 ≤ t.nextRow
  typed : ∀ row ∈ t.rows, List.Forall₂ (fun c v => c.accepts v = true) t.columns row.2
  mirrored : ∀ x ∈ t.indexes, ∃ place, t.columns.findIdx? (· = x.column) = some place ∧
    x.Mirrors t.rows place

@[simp] theorem indexRow_column (id : RowId) (row : List Value) (x : HashIndex) :
    (t.indexRow id row x).column = x.column := by
  unfold indexRow
  split <;> rfl

@[simp] theorem unindexRow_column (id : RowId) (row : List Value) (x : HashIndex) :
    (t.unindexRow id row x).column = x.column := by
  unfold unindexRow
  split <;> rfl

theorem indexRow_eq {x : HashIndex} {place : Nat}
    (hp : t.columns.findIdx? (· = x.column) = some place) (id : RowId) (row : List Value) :
    t.indexRow id row x = x.add (row.getD place .null) id := by
  simp only [indexRow, indexedValue?, hp, Option.map_some]

theorem unindexRow_eq {x : HashIndex} {place : Nat}
    (hp : t.columns.findIdx? (· = x.column) = some place) (id : RowId) (row : List Value) :
    t.unindexRow id row x = x.remove (row.getD place .null) id := by
  simp only [unindexRow, indexedValue?, hp, Option.map_some]

/-- What an accepted insert has checked and what it makes of the table. -/
theorem insert_eq_ok {cs : List Column} {vs : List Value} {id : RowId}
    (ht : t.insert cs vs = .ok (id, t')) : id = t.nextRow ∧
      ∃ row, List.Forall₂ (fun c v => c.accepts v = true) t.columns row ∧
        t' = { t with rows := t.rows ++ [(t.nextRow, row)], nextRow := t.nextRow + 1,
                      indexes := t.indexes.map (t.indexRow t.nextRow row) } := by
  unfold Table.insert at ht
  split at ht
  · cases ht
  · obtain ⟨row, hfill, ht⟩ := Except.bind_eq_ok.1 ht
    obtain ⟨_, hcheck, ht⟩ := Except.bind_eq_ok.1 ht
    cases ht
    have hlen : t.columns.length = row.length := by
      rw [fill_length hfill, List.length_map]
    exact ⟨rfl, row, List.forall₂_iff_zip.2 ⟨hlen, fun hp => checkRow_eq_ok.1 hcheck _ hp⟩, rfl⟩

namespace Consistent

theorem empty (name : String) (cs : List Column) : (Table.empty name cs).Consistent where
  ascending := .nil
  numbered _ h := nomatch h
  started := Int.le_refl 0
  typed _ h := nomatch h
  mirrored _ h := nomatch h

theorem row?_eq_some (h : t.Consistent) {id : RowId} {row : List Value} :
    t.row? id = some row ↔ (id, row) ∈ t.rows :=
  lookup_eq_some h.ascending

theorem nextRow_not_mem (h : t.Consistent) : t.nextRow ∉ t.rows.map (·.1) := by
  intro hm
  obtain ⟨row, hrow, he⟩ := List.mem_map.1 hm
  exact Int.lt_irrefl _ (he ▸ (h.numbered row hrow).2)

theorem insert (h : t.Consistent) {cs : List Column} {vs : List Value} {id : RowId}
    (ht : t.insert cs vs = .ok (id, t')) : t'.Consistent := by
  obtain ⟨_, row, hrow, rfl⟩ := insert_eq_ok ht
  have hnext : t.nextRow < t.nextRow + 1 := Int.lt_succ _
  constructor
  · refine List.pairwise_append.2 ⟨h.ascending, List.pairwise_singleton _ _, fun r hr q hq => ?_⟩
    rw [List.mem_singleton.1 hq]
    exact (h.numbered r hr).2
  · intro r hr
    rcases List.mem_append.1 hr with hr | hr
    · exact ⟨(h.numbered r hr).1, Int.lt_trans (h.numbered r hr).2 hnext⟩
    · rw [List.mem_singleton.1 hr]
      exact ⟨h.started, hnext⟩
  · exact Int.le_trans h.started (Int.le_of_lt hnext)
  · intro r hr
    rcases List.mem_append.1 hr with hr | hr
    · exact h.typed r hr
    · rw [List.mem_singleton.1 hr]
      exact hrow
  · intro x hx
    obtain ⟨y, hy, rfl⟩ := List.mem_map.1 hx
    obtain ⟨place, hp, hy⟩ := h.mirrored y hy
    rw [indexRow_column, indexRow_eq hp]
    exact ⟨place, hp, hy.append h.nextRow_not_mem row⟩

/-- Filling an index row by row makes it mirror more and more of the table. -/
theorem mirrors_filled {c : Column} {place : Nat} (hp : t.columns.findIdx? (· = c) = some place)
    (todo done : List (RowId × List Value)) {x : HashIndex} (hc : x.column = c)
    (hx : x.Mirrors done place) (hn : ((done ++ todo).map (·.1)).Nodup) :
    (todo.foldl (fun x row => t.indexRow row.1 row.2 x) x).column = c ∧
      (todo.foldl (fun x row => t.indexRow row.1 row.2 x) x).Mirrors (done ++ todo) place := by
  induction todo generalizing done x with
  | nil =>
    rw [List.append_nil]
    exact ⟨hc, hx⟩
  | cons row rest ih =>
    have hsplit : done ++ row :: rest = (done ++ [row]) ++ rest := by simp
    have hnew : row.1 ∉ done.map (·.1) := by
      rw [List.map_append, List.nodup_append] at hn
      intro hm
      exact hn.2.2 _ hm _ List.mem_cons_self rfl
    have hrow : (t.indexRow row.1 row.2 x).Mirrors (done ++ [row]) place := by
      rw [indexRow_eq (hc ▸ hp)]
      exact hx.append hnew row.2
    rw [List.foldl_cons, hsplit]
    exact ih (done ++ [row]) ((indexRow_column row.1 row.2 x).trans hc) hrow (hsplit ▸ hn)

theorem createIndex (h : t.Consistent) {c : Column} (ht : t.createIndex c = .ok t') :
    t'.Consistent := by
  obtain ⟨place, hplace, ht⟩ := Except.bind_eq_ok.1 ht
  cases ht
  have hp := position_eq_ok.1 hplace
  obtain ⟨hcolumn, hfilled⟩ := mirrors_filled (t := t) hp t.rows [] rfl
    (HashIndex.mirrors_empty (t.name ++ ".idx_" ++ c.simpleName) c place) (nodup_ids h.ascending)
  refine ⟨h.ascending, h.numbered, h.started, h.typed, fun x hx => ?_⟩
  rcases List.mem_append.1 hx with hx | hx
  · exact h.mirrored x hx
  · rw [List.mem_singleton.1 hx]
    exact ⟨place, hcolumn.symm ▸ hp, hfilled⟩

theorem delete (h : t.Consistent) (id : RowId) : (t.delete id).1.Consistent := by
  unfold Table.delete
  cases hrow : t.row? id with
  | none => exact h
  | some row =>
    have hmem := h.row?_eq_some.1 hrow
    have hsub : ∀ r, r ∈ t.rows.filter (·.1 ≠ id) → r ∈ t.rows := fun r hr => (List.mem_filter.1 hr).1
    refine ⟨h.ascending.sublist List.filter_sublist, fun r hr => h.numbered r (hsub r hr), h.started,
      fun r hr => h.typed r (hsub r hr), fun x hx => ?_⟩
    obtain ⟨y, hy, rfl⟩ := List.mem_map.1 hx
    obtain ⟨place, hp, hy⟩ := h.mirrored y hy
    rw [unindexRow_column, unindexRow_eq hp]
    exact ⟨place, hp, hy.delete h.ascending hmem⟩

theorem setValue (h : t.Consistent) {id : RowId} {row : List Value} (hrow : (id, row) ∈ t.rows)
    {c : Column} {place : Nat} {v : Value} (hp : t.columns.findIdx? (· = c) = some place)
    (hv : c.accepts v = true) : (t.setValue id c place v).Consistent := by
  constructor
  · have hpair : (t.rows.map (·.1)).Pairwise (· < ·) := h.ascending.map _ fun _ _ hlt => hlt
    rw [← ids_replaced t.rows id place v] at hpair
    exact List.pairwise_map.1 hpair
  · intro r hr
    have hm : r.1 ∈ t.rows.map (·.1) :=
      ids_replaced t.rows id place v ▸ List.mem_map.2 ⟨r, hr, rfl⟩
    obtain ⟨q, hq, he⟩ := List.mem_map.1 hm
    exact he ▸ h.numbered q hq
  · exact h.started
  · rintro ⟨i, row⟩ hr
    rcases mem_replaced.1 hr with ⟨_, hrow⟩ | ⟨_, old, hold, rfl⟩
    · exact h.typed _ hrow
    · exact forall₂_set (h.typed _ hold) (getElem?_of_findIdx? hp) hv
  · intro x hx
    obtain ⟨y, hy, rfl⟩ := List.mem_map.1 hx
    obtain ⟨yplace, hyp, hmirrors⟩ := h.mirrored y hy
    by_cases hc : y.column = c
    · obtain rfl : place = yplace := by
        rw [hc, hp] at hyp
        exact Option.some.inj hyp
      have hlt := (getD_of_forall₂ (h.typed _ hrow) hp).1
      rw [if_pos hc, h.row?_eq_some.2 hrow, Option.getD_some]
      exact ⟨place, hyp, hmirrors.replace h.ascending hrow hlt v⟩
    · have hne : place ≠ yplace := by
        rintro rfl
        have := (getElem?_of_findIdx? hyp).symm.trans (getElem?_of_findIdx? hp)
        exact hc (Option.some.inj this)
      rw [if_neg hc]
      exact ⟨yplace, hyp, hmirrors.keep hne id v⟩

/-- Values that are set before one is refused stay. -/
theorem setValues (h : t.Consistent) {id : RowId} {row : List Value} (hrow : (id, row) ∈ t.rows)
    (pairs : List (Column × Value)) : (t.setValues id pairs).1.Consistent := by
  induction pairs generalizing t row with
  | nil => exact h
  | cons p rest ih =>
    obtain ⟨c, v⟩ := p
    rw [Table.setValues]
    cases hv : checkValue c v with
    | error e => exact h
    | ok _ =>
      cases hp : t.position c with
      | error e => exact h
      | ok place =>
        have hset := h.setValue hrow (position_eq_ok.1 hp) (checkValue_eq_ok.1 hv)
        exact ih hset (mem_replaced.2 (.inr ⟨rfl, row, hrow, rfl⟩))

theorem update (h : t.Consistent) (id : RowId) (cs : List Column) (vs : List Value) :
    (t.update id cs vs).1.Consistent := by
  unfold Table.update
  cases hrow : t.row? id with
  | none => exact h
  | some row => exact h.setValues (h.row?_eq_some.1 hrow) _

theorem read (h : t.Consistent) (reads : Nat) : Consistent { t with reads := reads } :=
  ⟨h.ascending, h.numbered, h.started, h.typed, h.mirrored⟩

end Consistent

/-- Only an insert changes which number comes next. -/
theorem nextRow_setValues (t : Table) (id : RowId) (pairs : List (Column × Value)) :
    (t.setValues id pairs).1.nextRow = t.nextRow := by
  induction pairs generalizing t with
  | nil => rfl
  | cons p rest ih =>
    obtain ⟨c, v⟩ := p
    rw [setValues]
    cases checkValue c v with
    | error e => rfl
    | ok _ =>
      cases t.position c with
      | error e => rfl
      | ok place => exact ih _

theorem nextRow_update (t : Table) (id : RowId) (cs : List Column) (vs : List Value) :
    (t.update id cs vs).1.nextRow = t.nextRow := by
  unfold update
  cases t.row? id with
  | none => rfl
  | some _ => exact nextRow_setValues t id _

theorem nextRow_delete (t : Table) (id : RowId) : (t.delete id).1.nextRow = t.nextRow := by
  unfold delete
  cases t.row? id <;> rfl

theorem nextRow_createIndex {c : Column} (ht : t.createIndex c = .ok t') :
    t'.nextRow = t.nextRow := by
  obtain ⟨_, _, ht⟩ := Except.bind_eq_ok.1 ht
  cases ht
  rfl

namespace Sound

theorem nodup (h : t.Sound) : (t.rows.map (·.1)).Nodup := nodup_ids h.ascending

theorem row?_eq_some (h : t.Sound) {id : RowId} {row : List Value} :
    t.row? id = some row ↔ (id, row) ∈ t.rows :=
  lookup_eq_some h.ascending

theorem length_le (h : t.Sound) : t.rows.length ≤ rowBound.toNat := by
  have key : ∀ (ids : List Int) (low high : Int), ids.Pairwise (· < ·) →
      (∀ id ∈ ids, low ≤ id ∧ id < high) → low ≤ high → ids.length ≤ (high - low).toNat := by
    intro ids
    induction ids with
    | nil => simp
    | cons id rest ih =>
      intro low high hp hb hle
      have hp' := List.pairwise_cons.1 hp
      have hid := hb id List.mem_cons_self
      have hrest := ih (id + 1) high hp'.2 (fun i hi =>
        ⟨hp'.1 i hi, (hb i (List.mem_cons_of_mem _ hi)).2⟩) (by omega)
      rw [List.length_cons]
      omega
  have hle := key (t.rows.map (·.1)) 0 t.nextRow (h.ascending.map _ fun _ _ hlt => hlt)
    (List.forall_mem_map.2 h.numbered) h.bounded.1
  rw [List.length_map, Int.sub_zero] at hle
  exact Nat.le_trans hle (Int.toNat_le_toNat h.bounded.2)

theorem getD_of_findIdx? (h : t.Sound) {c : Column} {place : Nat}
    (hp : t.columns.findIdx? (· = c) = some place) {row : RowId × List Value} (hrow : row ∈ t.rows) :
    place < row.2.length ∧ c.accepts (row.2.getD place .null) = true :=
  getD_of_forall₂ (h.typed row hrow) hp

end Sound

theorem Reachable.consistent (h : t.Reachable) : t.Consistent := by
  induction h with
  | empty name cs => exact .empty name cs
  | insert _ _ ht ih => exact ih.insert ht
  | update id cs vs _ ih => exact ih.update id cs vs
  | delete id _ ih => exact ih.delete id
  | createIndex _ ht ih => exact ih.createIndex ht
  | read reads _ ih => exact ih.read reads

theorem Reachable.nextRow_le (h : t.Reachable) : t.nextRow ≤ rowBound := by
  induction h with
  | empty name cs => simp [Table.empty, rowBound]
  | insert _ hroom ht ih =>
    obtain ⟨_, row, _, rfl⟩ := insert_eq_ok ht
    exact hroom
  | update id cs vs _ ih => exact (nextRow_update _ id cs vs).symm ▸ ih
  | delete id _ ih => exact (nextRow_delete _ id).symm ▸ ih
  | createIndex _ ht ih => exact (nextRow_createIndex ht).symm ▸ ih
  | read reads _ ih => exact ih

theorem Reachable.sound (h : t.Reachable) : t.Sound where
  ascending := h.consistent.ascending
  numbered := h.consistent.numbered
  bounded := ⟨h.consistent.started, h.nextRow_le⟩
  typed := h.consistent.typed
  mirrored x hx := by
    obtain ⟨place, hp, hmirrors⟩ := h.consistent.mirrored x hx
    exact ⟨place, hp, hmirrors.lists⟩

end Table

/-! ## Cursors -/

namespace Cursor

/-- The tuples that are still ahead of a cursor. -/
def remaining (c : Cursor) (t : Table) : List Tuple :=
  (t.rows.filter fun row => c.covers row.1).map fun row =>
    ⟨row.1, c.columns, Table.valuesAt row.2 c.places⟩

/-- Behind a row, a cursor covers the later rows that it has covered before. -/
theorem covers_after (c : Cursor) {row id : RowId} (hrow : c.covers row = true) :
    { c with after := some row }.covers id = (decide (row < id) && c.covers id) := by
  unfold covers at hrow ⊢
  obtain ⟨hafter, _⟩ := Bool.and_eq_true_iff.1 hrow
  by_cases hlt : row < id
  · have hbefore : (c.after.all fun a => decide (a < id)) = true := by
      cases ha : c.after with
      | none => rfl
      | some a =>
        rw [ha] at hafter
        have har : a < row := of_decide_eq_true hafter
        exact decide_eq_true (Int.lt_trans har hlt)
    simp [hlt, hbefore]
  · simp [hlt]

/-- A pull takes the first of the tuples ahead. -/
theorem next?_cases {t : Table} (h : t.rows.Pairwise (·.1 < ·.1)) (c : Cursor) :
    (c.next? t = none ∧ c.remaining t = []) ∨
      ∃ u d, c.next? t = some (u, d, { t with reads := t.reads + 1 }) ∧
        c.remaining t = u :: d.remaining t := by
  have key : ∀ rows : List (RowId × List Value), rows.Pairwise (·.1 < ·.1) →
      ((rows.find? fun row => c.covers row.1) = none ∧
        (rows.filter fun row => c.covers row.1) = []) ∨
      ∃ row ∈ rows, (rows.find? fun row => c.covers row.1) = some row ∧
        (rows.filter fun row => c.covers row.1) =
          row :: rows.filter fun q => { c with after := some row.1 }.covers q.1 := by
    intro rows
    induction rows with
    | nil => exact fun _ => .inl ⟨rfl, rfl⟩
    | cons row rest ih =>
      intro hp
      have hp' := List.pairwise_cons.1 hp
      by_cases hc : c.covers row.1 = true
      · refine .inr ⟨row, List.mem_cons_self, by simp [hc], ?_⟩
        have hself : { c with after := some row.1 }.covers row.1 = false := by
          rw [covers_after c hc]
          simp
        have hrest : (rest.filter fun q => { c with after := some row.1 }.covers q.1) =
            rest.filter fun q => c.covers q.1 :=
          List.filter_congr fun q hq => by
            rw [covers_after c hc]
            simp [hp'.1 q hq]
        simp only [List.filter_cons, hc, hself, hrest, if_true, Bool.false_eq_true, if_false]
      · rcases ih hp'.2 with ⟨hfind, hfilter⟩ | ⟨found, hmem, hfind, hfilter⟩
        · exact .inl ⟨by simp [hc, hfind], by simp [hc, hfilter]⟩
        · refine .inr ⟨found, List.mem_cons_of_mem _ hmem, by simp [hc, hfind], ?_⟩
          have hfound : c.covers found.1 = true := by
            have := List.find?_some hfind
            exact this
          have hlate : ¬ found.1 < row.1 := Int.not_lt.2 (Int.le_of_lt (hp'.1 found hmem))
          have hbefore : { c with after := some found.1 }.covers row.1 = false := by
            rw [covers_after c hfound]
            simp [hlate]
          simp only [List.filter_cons, hc, hbefore, hfilter, Bool.false_eq_true, if_false]
  rcases key t.rows h with ⟨hfind, hfilter⟩ | ⟨row, _, hfind, hfilter⟩
  · exact .inl ⟨by simp [next?, hfind], by simp [remaining, hfilter]⟩
  · refine .inr ⟨_, _, (by rw [next?, hfind, Option.map_some]), ?_⟩
    simp [remaining, hfilter]

theorem remaining_length_le (c : Cursor) (t : Table) : (c.remaining t).length ≤ t.rows.length := by
  rw [remaining, List.length_map]
  exact List.length_filter_le _ _

end Cursor

end QueryEngine
