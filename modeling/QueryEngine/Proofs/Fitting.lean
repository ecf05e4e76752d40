import QueryEngine.Proofs.Rows
import QueryEngine.Proofs.Traces
import QueryEngine.Proofs.ValueOrder

/-!
# Tuples that fit their columns

A tuple fits columns if it has a value for each of them that is null or of the column's type. Where
values of a type have places of their own in the order of sorts, the least and the greatest value of
a column do not depend on the order of the tuples.
-/

set_option autoImplicit false

namespace QueryEngine

/-- Whether a tuple is laid out as `cs` and, where that is asked for, its values are null or of the
types of their columns. -/
def Tuple.Fits (strict : Bool) (cs : List Column) (u : Tuple) : Prop :=
  u.columns = cs ∧ List.Forall₂ (fun c v => strict = true → c.type.accepts v = true) cs u.values

theorem ColumnType.accepts_null (type : ColumnType) : type.accepts .null = true := by
  cases type <;> rfl

namespace Tuple

variable {strict : Bool} {cs ds : List Column} {u v found : Tuple}

theorem Fits.laid (h : u.Fits strict cs) : u.Laid cs := ⟨h.1, h.2.length_eq.symm⟩

theorem Fits.mono {strict' : Bool} (hstrict : strict' = true → strict = true)
    (h : u.Fits strict cs) : u.Fits strict' cs :=
  ⟨h.1, h.2.imp fun _ _ hv hs => hv (hstrict hs)⟩

theorem fits_seen {n : Bool} : (u.seen n).Fits strict cs ↔ u.Fits strict cs := by
  rw [Fits, Fits, columns_seen, values_seen]

/-- What relates the columns of a tuple to its values relates a column to the value found for it. -/
theorem rel_of_get? {R : Column → Value → Prop} (h : List.Forall₂ R u.columns u.values) {c : Column}
    {x : Value} (hx : u.get? c = .ok (some x)) : R c x := by
  unfold get? at hx
  cases hp : u.columns.findIdx? (· = c) with
  | none =>
    rw [hp] at hx
    cases hx
  | some place =>
    rw [hp, Option.mapM_some] at hx
    obtain ⟨y, hy, he⟩ := Except.map_eq_ok.1 hx
    cases he
    have hcolumn := Table.getElem?_of_findIdx? hp
    have hvalue : u.values[place]? = some x := by
      unfold valueAt at hy
      split at hy
      · rename_i w hw
        cases hy
        exact hw
      · cases hy
    obtain ⟨hlt, hcolumn⟩ := List.getElem?_eq_some_iff.1 hcolumn
    obtain ⟨hlt', hvalue⟩ := List.getElem?_eq_some_iff.1 hvalue
    have hrel := (List.forall₂_iff_get.1 h).2 place hlt hlt'
    simpa [hcolumn, hvalue] using hrel

theorem Fits.accepts (h : u.Fits strict cs) (hstrict : strict = true) {c : Column} {x : Value}
    (hx : u.get? c = .ok (some x)) : c.type.accepts x = true := by
  obtain ⟨rfl, hvalues⟩ := h
  exact rel_of_get? hvalues hx hstrict

theorem Fits.accepts_getOrNull (h : u.Fits strict cs) (hstrict : strict = true) {c : Column}
    {x : Value} (hx : u.getOrNull c = .ok x) : c.type.accepts x = true := by
  obtain ⟨y, hy, rfl⟩ := Except.map_eq_ok.1 hx
  cases y with
  | none => exact c.type.accepts_null
  | some y => exact h.accepts hstrict hy

theorem Fits.accepts_valueOf (h : u.Fits strict cs) (hstrict : strict = true) (c : Column) :
    c.type.accepts (u.valueOf c) = true :=
  h.accepts_getOrNull hstrict (h.laid.getOrNull_eq c)

theorem Fits.project (h : u.Fits strict cs) (hv : u.project ds = .ok v) : v.Fits strict ds := by
  obtain ⟨values, hvalues, rfl⟩ := Except.map_eq_ok.1 hv
  refine ⟨rfl, (Except.mapM_eq_ok.1 hvalues).imp ?_⟩
  intro c x hx hstrict
  exact h.accepts_getOrNull hstrict hx

theorem Fits.complete {es : List Column} (h : u.Fits strict cs) (hfound : found.Fits strict es)
    (hv : TupleStream.complete ds u found = .ok v) : v.Fits strict ds := by
  obtain ⟨values, hvalues, rfl⟩ := Except.map_eq_ok.1 hv
  refine ⟨rfl, (Except.mapM_eq_ok.1 hvalues).imp ?_⟩
  intro c x hx hstrict
  obtain ⟨y, hy, hx⟩ := Except.bind_eq_ok.1 hx
  cases y with
  | some y =>
    cases hx
    exact h.accepts hstrict hy
  | none => exact hfound.accepts_getOrNull hstrict hx

theorem Fits.align (h : u.Fits strict cs) (hv : TupleStream.align ds u = .ok v) :
    v.Fits strict ds := by
  unfold TupleStream.align at hv
  split at hv
  · rename_i hcolumns
    cases hv
    rwa [← hcolumns, h.1]
  · exact h.project hv

theorem Fits.extend (h : u.Fits strict cs) {c : Column} {x : Value}
    (hx : strict = true → c.type.accepts x = true) : (u.extend (cs ++ [c]) x).Fits strict (cs ++ [c]) :=
  ⟨rfl, List.rel_append h.2 (.cons hx .nil)⟩

end Tuple

/-! ## Stored rows -/

namespace Table

variable {t t' : Table}

theorem Sound.unread (h : t.Sound) : t.unread.Sound :=
  ⟨h.ascending, h.numbered, h.bounded, h.typed, h.mirrored⟩

theorem Sound.fits_tuple (h : t.Sound) {row : RowId × List Value} (hrow : row ∈ t.rows)
    (strict : Bool) (cs : List Column) : (t.tuple cs row).Fits strict cs := by
  refine ⟨rfl, List.forall₂_map_right_iff.2 (List.forall₂_same.2 ?_)⟩
  intro c _ _
  unfold value
  cases hp : t.columns.findIdx? (· = c) with
  | none => exact c.type.accepts_null
  | some place =>
    have haccepts := (h.getD_of_findIdx? hp hrow).2
    rw [Column.accepts, Bool.and_eq_true] at haccepts
    exact haccepts.1

theorem Sound.fits_read (h : t.Sound) {id : RowId} {cs : List Column} {found : Tuple}
    (hread : t.read id cs = .ok (some found, t')) (strict : Bool) : found.Fits strict cs := by
  obtain ⟨places, row, hplaces, hrow, rfl⟩ := read_eq_ok_some hread
  rw [valuesAt_eq hplaces]
  exact h.fits_tuple (h.row?_eq_some.1 hrow) strict cs

end Table

/-! ## The least and the greatest value -/

/-- Whether values of a type have places of their own in the order of sorts. -/
def ColumnType.isRanked : ColumnType → Bool
  | boolean => true
  | long => true
  | double => true
  | text => true
  | _ => false

namespace Value

open Std

variable {type : ColumnType} {a b : Value}

theorem sameKind_of_accepts (ha : type.accepts a = true) (hb : type.accepts b = true) :
    a.SameKind b := by
  cases type <;> cases a <;> cases b <;> simp_all [ColumnType.accepts, SameKind, isNull, kindName]

theorem eq_of_place {type : ColumnType} (htype : type.isRanked = true) (ha : type.accepts a = true)
    (hb : type.accepts b = true) (h : a.place = b.place) : a = b := by
  cases type <;> cases a <;> cases b <;>
    simp_all [ColumnType.isRanked, ColumnType.accepts, place, Int64.toInt_inj]
  case boolean.bool.bool x y =>
    cases x <;> cases y <;> simp_all
  case double.double.double x y => exact Binary.rank_inj h

theorem eq_of_comparePlaces (h : a.comparePlaces b = .eq) : a.place = b.place :=
  eq_of_compareLex h

section

variable {wanted : Ordering} {x y z : Value}

theorem beats_trans (hx : type.accepts x = true) (hy : type.accepts y = true)
    (hz : type.accepts z = true) (hxy : x.sortCompare y = wanted) (hyz : y.sortCompare z = wanted) :
    x.sortCompare z = wanted := by
  rw [sortCompare_eq (sameKind_of_accepts hx hy)] at hxy
  rw [sortCompare_eq (sameKind_of_accepts hy hz)] at hyz
  rw [sortCompare_eq (sameKind_of_accepts hx hz)]
  cases wanted with
  | lt => exact TransCmp.lt_trans hxy hyz
  | eq => exact TransCmp.eq_trans hxy hyz
  | gt => exact TransCmp.gt_trans hxy hyz

/-- Of two different values one beats the other. -/
theorem eq_of_unbeaten (htype : type.isRanked = true) (hwanted : wanted ≠ .eq)
    (hx : type.accepts x = true) (hy : type.accepts y = true) (hxy : x.sortCompare y ≠ wanted)
    (hyx : y.sortCompare x ≠ wanted) : x = y := by
  rw [sortCompare_swap x y] at hyx
  have heq : x.sortCompare y = .eq := by
    cases ho : x.sortCompare y <;> cases wanted <;> simp_all
  rw [sortCompare_eq (sameKind_of_accepts hx hy)] at heq
  exact eq_of_place htype hx hy (eq_of_comparePlaces heq)

/-- The better of the best value so far and a further one, which may be null. -/
def pick (wanted : Ordering) (best v : Value) : Value :=
  if v.isNull then best else TupleStream.better wanted best v

theorem accepts_pick (hx : type.accepts x = true) (hy : type.accepts y = true) :
    type.accepts (pick wanted x y) = true := by
  unfold pick TupleStream.better
  split
  · exact hx
  · split
    · exact hy
    · exact hx

theorem accepts_foldl_pick {vs : List Value} (hvs : ∀ v ∈ vs, type.accepts v = true) :
    ∀ {z}, type.accepts z = true → type.accepts (vs.foldl (pick wanted) z) = true := by
  induction vs with
  | nil => exact fun hz => hz
  | cons v vs ih =>
    intro z hz
    have hnext := @accepts_pick type wanted z v hz (hvs v List.mem_cons_self)
    exact ih (fun w hw => hvs w (List.mem_cons_of_mem _ hw)) hnext

theorem pick_comm (htype : type.isRanked = true) (hwanted : wanted ≠ .eq)
    (hx : type.accepts x = true) (hy : type.accepts y = true) (hz : type.accepts z = true) :
    pick wanted (pick wanted z x) y = pick wanted (pick wanted z y) x := by
  have hpick (best v : Value) (hbest : best.isNull = false) (hv : v.isNull = false) :
      pick wanted best v = if v.sortCompare best = wanted then v else best := by
    simp [pick, TupleStream.better, hbest, hv]
  have hnull (best v : Value) (hv : v.isNull = true) : pick wanted best v = best := by
    simp [pick, hv]
  have hfirst (best v : Value) (hbest : best.isNull = true) (hv : v.isNull = false) :
      pick wanted best v = v := by
    simp [pick, TupleStream.better, hbest, hv]
  cases hxn : x.isNull with
  | true => rw [hnull _ x hxn, hnull _ x hxn]
  | false =>
    cases hyn : y.isNull with
    | true => rw [hnull _ y hyn, hnull _ y hyn]
    | false =>
      -- Between two values the better one is picked, whichever comes first.
      have htwo : (if y.sortCompare x = wanted then y else x) =
          if x.sortCompare y = wanted then x else y := by
        by_cases hyx : y.sortCompare x = wanted
        · have hxy : x.sortCompare y ≠ wanted := by
            rw [sortCompare_swap y x, hyx]
            cases wanted <;> simp_all
          rw [if_pos hyx, if_neg hxy]
        · by_cases hxy : x.sortCompare y = wanted
          · rw [if_neg hyx, if_pos hxy]
          · rw [if_neg hyx, if_neg hxy, eq_of_unbeaten htype hwanted hx hy hxy hyx]
      cases hzn : z.isNull with
      | true => rw [hfirst z x hzn hxn, hfirst z y hzn hyn, hpick x y hxn hyn, hpick y x hyn hxn, htwo]
      | false =>
        rw [hpick z x hzn hxn, hpick z y hzn hyn]
        by_cases hxz : x.sortCompare z = wanted <;> by_cases hyz : y.sortCompare z = wanted <;>
          simp only [hxz, hyz, if_true, if_false]
        · rw [hpick x y hxn hyn, hpick y x hyn hxn, htwo]
        · rw [hpick x y hxn hyn, hpick z x hzn hxn, if_pos hxz, if_neg]
          exact fun hyx => hyz (beats_trans hy hx hz hyx hxz)
        · rw [hpick z y hzn hyn, hpick y x hyn hxn, if_pos hyz, if_neg]
          exact fun hxy => hxz (beats_trans hx hy hz hxy hyz)
        · rw [hpick z y hzn hyn, hpick z x hzn hxn, if_neg hyz, if_neg hxz]

/-- The best of values that are picked one after another does not depend on their order. -/
theorem foldl_pick_perm (htype : type.isRanked = true) (hwanted : wanted ≠ .eq)
    {vs vs' : List Value} (h : vs.Perm vs') : (∀ v ∈ vs, type.accepts v = true) →
      ∀ {z}, type.accepts z = true → vs.foldl (pick wanted) z = vs'.foldl (pick wanted) z := by
  induction h with
  | nil => exact fun _ _ _ => rfl
  | cons v _ ih =>
    intro hvs z hz
    have hv := hvs v List.mem_cons_self
    exact ih (fun w hw => hvs w (List.mem_cons_of_mem _ hw)) (accepts_pick hz hv)
  | swap v w vs =>
    intro hvs z hz
    have hcomm := pick_comm htype hwanted (hvs w (by simp)) (hvs v (by simp)) hz
    rw [List.foldl_cons, List.foldl_cons, List.foldl_cons, List.foldl_cons, hcomm]
  | trans h _ ih ih' =>
    intro hvs z hz
    exact (ih hvs hz).trans (ih' (fun v hv => hvs v (h.mem_iff.2 hv)) hz)

end

end Value

end QueryEngine
