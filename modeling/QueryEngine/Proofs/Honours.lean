import QueryEngine.Function.Distance
import QueryEngine.Proofs.Fitting
import QueryEngine.Proofs.IndexScan

/-!
# Tuples that honour their columns

A tuple honours columns if it has just one value for each of them, every value is of the column's
type, and none is null where the column is not nullable. Stored rows honour all columns of their
table, and so do the tuples that operators make of tuples that honour theirs.
-/

set_option autoImplicit false

namespace QueryEngine

namespace Tuple

/-- Whether a tuple is laid out as `cs` and every column accepts its value. -/
def Honours (cs : List Column) (u : Tuple) : Prop :=
  u.columns = cs ∧ List.Forall₂ (fun c v => c.accepts v = true) cs u.values

instance (cs : List Column) (u : Tuple) : Decidable (u.Honours cs) :=
  inferInstanceAs (Decidable (_ ∧ _))

variable {cs ds es : List Column} {u v found : Tuple} {c : Column} {x : Value}

namespace Honours

theorem laid (h : u.Honours cs) : u.Laid cs := ⟨h.1, h.2.length_eq.symm⟩

theorem accepts (h : u.Honours cs) (hx : u.get? c = .ok (some x)) : c.accepts x = true := by
  obtain ⟨rfl, hvalues⟩ := h
  exact rel_of_get? hvalues hx

theorem not_mem (h : u.Honours cs) (hx : u.get? c = .ok none) : c ∉ cs := by
  rw [← h.1]
  exact get?_eq_none.1 hx

theorem accepts_getOrNull (h : u.Honours cs) (hc : c ∈ cs) (hx : u.getOrNull c = .ok x) :
    c.accepts x = true := by
  obtain ⟨y, hy, rfl⟩ := Except.map_eq_ok.1 hx
  cases y with
  | some y => exact h.accepts hy
  | none => exact absurd hc (h.not_mem hy)

theorem project (h : u.Honours cs) (hds : ∀ d ∈ ds, d ∈ cs) (hv : u.project ds = .ok v) :
    v.Honours ds := by
  obtain ⟨values, hvalues, rfl⟩ := Except.map_eq_ok.1 hv
  refine ⟨rfl, ?_⟩
  exact (forall₂_mem (Except.mapM_eq_ok.1 hvalues)).imp fun d x hx =>
    h.accepts_getOrNull (hds d hx.1) hx.2

theorem complete (h : u.Honours cs) (hfound : found.Honours es) (hds : ∀ d ∈ ds, d ∈ cs ∨ d ∈ es)
    (hv : TupleStream.complete ds u found = .ok v) : v.Honours ds := by
  obtain ⟨values, hvalues, rfl⟩ := Except.map_eq_ok.1 hv
  refine ⟨rfl, ?_⟩
  refine (forall₂_mem (Except.mapM_eq_ok.1 hvalues)).imp ?_
  rintro d x ⟨hd, hx⟩
  obtain ⟨y, hy, hx⟩ := Except.bind_eq_ok.1 hx
  cases y with
  | some y =>
    cases hx
    exact h.accepts hy
  | none =>
    rcases hds d hd with hcs | hes
    · exact absurd hcs (h.not_mem hy)
    · exact hfound.accepts_getOrNull hes hx

theorem align (h : u.Honours cs) (hv : TupleStream.align cs u = .ok v) : v.Honours cs := by
  rw [TupleStream.align, if_pos h.1] at hv
  cases hv
  exact h

theorem extend (h : u.Honours cs) (hx : c.accepts x = true) :
    (u.extend (cs ++ [c]) x).Honours (cs ++ [c]) :=
  ⟨rfl, List.rel_append h.2 (.cons hx .nil)⟩

theorem relabel (h : u.Honours cs) : Honours cs { u with columns := cs } := ⟨rfl, h.2⟩

/-- A tuple that honours its columns lacks just those columns that are not among them. -/
theorem mem_lacks {wanted missing : List Column} (h : u.Honours cs)
    (hmissing : TupleStream.Lacks wanted u missing) : missing = Operator.missing wanted cs := by
  have hlack : ∀ c ∈ wanted, (do return (← u.get? c).isNone : Except Crash Bool) =
      .ok (decide (c ∉ cs)) := by
    intro c _
    by_cases hc : c ∈ cs
    · rw [h.laid.get?_eq hc]
      simp [bind, Except.bind, pure, Except.pure, hc]
    · have hnone : u.get? c = .ok none := by
        rw [get?_eq_none, h.1]
        exact hc
      rw [hnone]
      simp [bind, Except.bind, pure, Except.pure, hc]
  have hfilter := Except.filterM_ok hlack
  unfold TupleStream.Lacks at hmissing
  rw [hfilter] at hmissing
  exact (Except.ok.inj hmissing).symm

end Honours

end Tuple

/-! ## Stored rows -/

namespace Table

variable {t t' : Table} {cs : List Column}

theorem mem_columns_of_positions {places : List Nat} (h : t.positions cs = .ok places) :
    ∀ c ∈ cs, c ∈ t.columns := by
  intro c hc
  obtain ⟨place, _, hplace⟩ := exists_mem_of_forall₂ (Except.mapM_eq_ok.1 h).flip hc
  exact List.mem_of_getElem? (getElem?_of_findIdx? (position_eq_ok.1 hplace))

namespace Sound

variable (h : t.Sound)
include h

theorem honours_tuple {row : RowId × List Value} (hrow : row ∈ t.rows)
    (hcs : ∀ c ∈ cs, c ∈ t.columns) : (t.tuple cs row).Honours cs := by
  refine ⟨rfl, List.forall₂_map_right_iff.2 (List.forall₂_same.2 ?_)⟩
  intro c hc
  unfold value
  cases hp : t.columns.findIdx? (· = c) with
  | none => exact absurd (hcs c hc) (findIdx?_eq_none.1 hp)
  | some place => exact (h.getD_of_findIdx? hp hrow).2

theorem honours_row {row : RowId × List Value} (hrow : row ∈ t.rows) {places : List Nat}
    (hplaces : t.positions cs = .ok places) :
    Tuple.Honours cs ⟨row.1, cs, valuesAt row.2 places⟩ := by
  rw [valuesAt_eq hplaces]
  exact h.honours_tuple hrow (mem_columns_of_positions hplaces)

theorem honours_read {id : RowId} {found : Tuple} (hread : t.read id cs = .ok (some found, t')) :
    found.Honours cs := by
  obtain ⟨places, row, hplaces, hrow, rfl⟩ := read_eq_ok_some hread
  exact h.honours_row (h.row?_eq_some.1 hrow) hplaces

theorem honours_filter {x : HashIndex} (hx : x ∈ t.indexes) {p : Predicate} {b : Bindings}
    {us : List Tuple} (hus : x.filter p b = .ok us) : ∀ u ∈ us, u.Honours [x.column] := by
  intro u hu
  obtain ⟨keys, _, rfl⟩ := Except.map_eq_ok.1 hus
  rw [HashIndex.found_eq h hx] at hu
  obtain ⟨row, hrow, rfl⟩ := mem_copies hu
  apply h.honours_tuple hrow
  intro c hc
  obtain ⟨place, hplace, _⟩ := h.mirrored x hx
  rw [List.mem_singleton.1 hc]
  exact List.mem_of_getElem? (getElem?_of_findIdx? hplace)

end Sound

end Table

/-! ## Results of functions -/

namespace ColumnType

variable {dims : Nat} {v : Value}

theorem floatVector_accepts (h : (floatVector dims).accepts v = true) :
    v = .null ∨ ∃ xs, v = .floatVector xs := by
  cases v with
  | null => exact .inl rfl
  | floatVector xs => exact .inr ⟨xs, rfl⟩
  | _ => cases h

theorem doubleVector_accepts (h : (doubleVector dims).accepts v = true) :
    v = .null ∨ ∃ xs, v = .doubleVector xs := by
  cases v with
  | null => exact .inl rfl
  | doubleVector xs => exact .inr ⟨xs, rfl⟩
  | _ => cases h

end ColumnType

/-- Whether the results of a function are of its result type, for arguments of its argument types. -/
def Function.Sound (f : Function) : Prop :=
  ∀ vs v, List.Forall₂ (fun type v => type.accepts v = true) f.signature.arguments vs →
    f.invoke vs = .ok v → f.signature.returns.accepts v = true

namespace DistanceKind

variable {type returns : ColumnType} {f g : Function}

/-- The types of vectors with those of their distances. -/
inductive Measures : ColumnType → ColumnType → Prop
  | float (dims : Nat) : Measures (.floatVector dims) .float
  | double (dims : Nat) : Measures (.doubleVector dims) .double

theorem accepts_invoke (h : Measures type returns) (kind : DistanceKind) (wide : Bool)
    {vs : List Value} {v : Value}
    (hvs : List.Forall₂ (fun type v => type.accepts v = true) [type, type] vs)
    (hv : kind.invoke returns wide vs = .ok v) : returns.accepts v = true := by
  obtain ⟨x, rest, hx, hrest, rfl⟩ := List.forall₂_cons_left_iff.1 hvs
  obtain ⟨y, _, hy, hnil, rfl⟩ := List.forall₂_cons_left_iff.1 hrest
  cases hnil
  cases h with
  | float dims =>
    rcases ColumnType.floatVector_accepts hx with rfl | ⟨xs, rfl⟩
    · cases hv
      rfl
    · rcases ColumnType.floatVector_accepts hy with rfl | ⟨ys, rfl⟩
      · cases hv
        rfl
      · obtain ⟨z, _, rfl⟩ := Except.map_eq_ok.1 hv
        rfl
  | double dims =>
    rcases ColumnType.doubleVector_accepts hx with rfl | ⟨xs, rfl⟩
    · cases hv
      rfl
    · rcases ColumnType.doubleVector_accepts hy with rfl | ⟨ys, rfl⟩
      · cases hv
        rfl
      · obtain ⟨z, _, rfl⟩ := Except.map_eq_ok.1 hv
        rfl

/-- Whether a function is a distance of vectors, by either kernel. -/
def IsMeasure (f : Function) : Prop :=
  ∃ (kind : DistanceKind) (type returns : ColumnType), Measures type returns ∧
    (f = kind.function type returns ∨ (kind.function type returns).vectorised? = some f)

theorem IsMeasure.sound (h : IsMeasure f) : f.Sound := by
  obtain ⟨kind, type, returns, hmeasures, hf⟩ := h
  intro vs v hvs hv
  rcases hf with rfl | hf
  · exact accepts_invoke hmeasures kind false hvs hv
  · cases hf
    exact accepts_invoke hmeasures kind true hvs hv

theorem IsMeasure.vectorised (h : IsMeasure f) (hg : f.vectorised? = some g) : IsMeasure g := by
  obtain ⟨kind, type, returns, hmeasures, rfl | hf⟩ := h
  · exact ⟨kind, type, returns, hmeasures, .inr hg⟩
  · cases hf
    cases hg

theorem IsMeasure.signature (h : IsMeasure f) : ∃ kind type returns, Measures type returns ∧
    f.signature = ⟨DistanceKind.name kind, [type, type], returns⟩ := by
  obtain ⟨kind, type, returns, hmeasures, rfl | hf⟩ := h
  · exact ⟨kind, type, returns, hmeasures, rfl⟩
  · cases hf
    exact ⟨kind, type, returns, hmeasures, rfl⟩

theorem factory_eq_some {kind : DistanceKind} {types : List ColumnType}
    (h : kind.factory types = some f) :
    ∃ type returns, Measures type returns ∧ types = [type, type] ∧ f = kind.function type returns := by
  unfold factory at h
  split at h
  · split at h
    · rename_i a b hab
      subst hab
      cases h
      exact ⟨_, _, .float a, rfl, rfl⟩
    · cases h
  · split at h
    · rename_i a b hab
      subst hab
      cases h
      exact ⟨_, _, .double a, rfl, rfl⟩
    · cases h
  · cases h

end DistanceKind

open DistanceKind in
/-- The functions that are built in are distances of two vectors of one type. -/
theorem FunctionRegistry.resolve_builtins {name : String} {types : List ColumnType} {f : Function}
    (h : builtins.resolve name types = .ok f) :
    ∃ (kind : DistanceKind) (type returns : ColumnType), Measures type returns ∧ types = [type, type] ∧
      f = kind.function type returns := by
  unfold resolve at h
  split at h
  · rename_i g hfound
    cases h
    obtain ⟨entry, hentry, hg⟩ := List.exists_of_findSome?_eq_some hfound
    have hfactories : builtins.factories =
        all.map fun kind => (lowerCase kind.name, kind.factory) := rfl
    rw [hfactories] at hentry
    obtain ⟨kind, _, rfl⟩ := List.mem_map.1 hentry
    split at hg
    · exact ⟨kind, factory_eq_some hg⟩
    · cases hg
  · cases h

end QueryEngine
