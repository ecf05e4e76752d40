import QueryEngine.Proofs.Lowering
import QueryEngine.Proofs.StableSort

/-!
# The order of sort keys

Comparing values of several kinds is not transitive: numbers of different types are compared in
double precision, but integers exactly. Where every key column holds nulls and values of one kind,
tuples are ordered by the places of their keys, and a sort is the stable sort in that order.
-/

set_option autoImplicit false

namespace QueryEngine

open Std

namespace Value

/-- The place of a value among those of its kind, with the kind in front. -/
def place : Value → Nat × List Int × String
  | null => (0, [], "")
  | bool b => (1, [b.toNat], "")
  | long n => (2, [n.toInt], "")
  | float x => (3, [x.widen.rank], "")
  | double x => (4, [x.rank], "")
  | text s => (5, [], s)
  | floatVector xs => (6, xs.map Binary.rank, "")
  | doubleVector xs => (7, xs.map Binary.rank, "")

def comparePlaces : Value → Value → Ordering :=
  compareLex (compareOn fun v => v.place.1)
    (compareLex (compareOn fun v => v.place.2.1) (compareOn fun v => v.place.2.2))

instance : TransCmp comparePlaces :=
  inferInstanceAs (TransCmp (compareLex (compareOn fun v : Value => v.place.1)
    (compareLex (compareOn fun v => v.place.2.1) (compareOn fun v => v.place.2.2))))

/-- Values that tie in all three parts of their places have the same place. -/
theorem eq_of_compareLex {place : Value → Nat × List Int × String} {a b : Value}
    (h : compareLex (compareOn fun v => (place v).1)
      (compareLex (compareOn fun v => (place v).2.1) (compareOn fun v => (place v).2.2)) a b = .eq) :
    place a = place b := by
  simp only [compareLex, compareOn, Ordering.then_eq_eq] at h
  obtain ⟨hkind, hnumbers, htext⟩ := h
  exact Prod.ext (LawfulEqCmp.eq_of_compare hkind)
    (Prod.ext (LawfulEqCmp.eq_of_compare hnumbers) (LawfulEqCmp.eq_of_compare htext))

/-- Whether two values may stand in one key column: one is null, or both are of one kind. -/
def SameKind (a b : Value) : Prop := a.isNull = true ∨ b.isNull = true ∨ a.kindName = b.kindName

instance (a b : Value) : Decidable (SameKind a b) := inferInstanceAs (Decidable (_ ∨ _ ∨ _))

theorem compareLists_rank {f : BinaryFormat} (xs ys : List (Binary f)) :
    compareLists Binary.totalCompare xs ys = compare (xs.map Binary.rank) (ys.map Binary.rank) := by
  induction xs generalizing ys with
  | nil => cases ys <;> rfl
  | cons x xs ih =>
    cases ys with
    | nil => rfl
    | cons y ys =>
      rw [compareLists, ih, List.map_cons, List.map_cons]
      exact (@List.compareLex_cons_cons Int compare x.rank y.rank (xs.map Binary.rank) (ys.map Binary.rank)).symm

theorem sortCompare_eq {a b : Value} (h : a.SameKind b) : a.sortCompare b = a.comparePlaces b := by
  cases a <;> cases b <;>
    simp only [SameKind, isNull, kindName, reduceCtorEq, String.reduceEq, or_self, or_false] at h
  case bool.bool x y => cases x <;> cases y <;> rfl
  case floatVector.floatVector xs ys =>
    rw [sortCompare, compareLists_rank]
    simp [comparePlaces, compareLex, compareOn, place]
  case doubleVector.doubleVector xs ys =>
    rw [sortCompare, compareLists_rank]
    simp [comparePlaces, compareLex, compareOn, place]
  all_goals simp [sortCompare, comparePlaces, place, compareLex, compareOn, number?,
    Binary.totalCompare]
  all_goals rfl

end Value

namespace Tuple

/-- The value of a column; one that cannot be read counts as null. -/
def valueOf (u : Tuple) (c : Column) : Value :=
  match u.getOrNull c with
  | .ok v => v
  | .error _ => .null

/-- Whether a tuple is laid out as `cs` and has a value for every column. -/
def Laid (cs : List Column) (u : Tuple) : Prop :=
  u.columns = cs ∧ u.values.length = cs.length

instance (cs : List Column) (u : Tuple) : Decidable (u.Laid cs) :=
  inferInstanceAs (Decidable (_ ∧ _))

theorem laid_layout : Layout Laid where
  scan h := ⟨rfl, h⟩
  extend c h := ⟨rfl, by simp [Tuple.extend, h.2]⟩
  relabel h := ⟨rfl, h.2⟩
  same h := ⟨rfl, h.2.trans (congrArg List.length h.1).symm⟩

theorem Laid.getOrNull_eq {cs : List Column} {u : Tuple} (h : u.Laid cs) (c : Column) :
    u.getOrNull c = .ok (u.valueOf c) := by
  have hok : ∃ v, u.getOrNull c = .ok v := by
    unfold getOrNull get?
    cases hp : u.columns.findIdx? (· = c) with
    | none => exact ⟨.null, rfl⟩
    | some place =>
      have hlt : place < u.values.length := by
        rw [h.2, ← h.1]
        exact (List.findIdx?_eq_some_iff_getElem.1 hp).1
      exact ⟨u.values[place], by simp [valueAt, hlt, Except.map]⟩
  obtain ⟨v, hv⟩ := hok
  simp only [valueOf, hv]

theorem get?_eq_none {u : Tuple} {c : Column} : u.get? c = .ok none ↔ c ∉ u.columns := by
  rw [← findIdx?_eq_none]
  unfold get?
  cases hp : u.columns.findIdx? (· = c) with
  | none => exact iff_of_true rfl rfl
  | some place =>
    rw [Option.mapM_some]
    constructor
    · intro h
      obtain ⟨v, _, he⟩ := Except.map_eq_ok.1 h
      cases he
    · intro h
      cases h

theorem Laid.get?_eq {cs : List Column} {u : Tuple} (h : u.Laid cs) {c : Column}
    (hc : c ∈ cs) : u.get? c = .ok (some (u.valueOf c)) := by
  have hvalue := h.getOrNull_eq c
  obtain ⟨found, hfound, hgetD⟩ := Except.map_eq_ok.1 hvalue
  rw [hfound]
  cases found with
  | some v =>
    have hv : v = u.valueOf c := hgetD
    rw [hv]
  | none =>
    apply absurd hc
    rw [← h.1]
    exact get?_eq_none.1 hfound

end Tuple

namespace SortOrder

/-- The comparison of tuples by the places of their keys. -/
def compareKeys : SortOrder → Tuple → Tuple → Ordering
  | [] => fun _ _ => .eq
  | (c, .ascending) :: rest =>
    compareLex (fun u v => (u.valueOf c).comparePlaces (v.valueOf c)) (compareKeys rest)
  | (c, .descending) :: rest =>
    compareLex (fun u v => (v.valueOf c).comparePlaces (u.valueOf c)) (compareKeys rest)

instance (order : SortOrder) : TransCmp order.compareKeys := by
  have hvalue (c : Column) :
      TransCmp fun u v : Tuple => (u.valueOf c).comparePlaces (v.valueOf c) :=
    { eq_swap := @fun u v => @OrientedCmp.eq_swap _ Value.comparePlaces _ (u.valueOf c) (v.valueOf c)
      isLE_trans := @fun u v w => @TransCmp.isLE_trans _ Value.comparePlaces _ (u.valueOf c)
        (v.valueOf c) (w.valueOf c) }
  induction order with
  | nil => exact { eq_swap := rfl, isLE_trans := fun _ _ => rfl }
  | cons key rest ih =>
    obtain ⟨c, d⟩ := key
    have hup := hvalue c
    cases d with
    | ascending => exact inferInstanceAs (TransCmp (compareLex _ _))
    | descending =>
      have hdown : TransCmp fun u v : Tuple => (v.valueOf c).comparePlaces (u.valueOf c) :=
        TransCmp.opposite
      exact inferInstanceAs (TransCmp (compareLex _ _))

/-- Whether every key column holds nulls and values of one kind. -/
def Uniform (order : SortOrder) (us : List Tuple) : Prop :=
  ∀ key ∈ order, ∀ u ∈ us, ∀ v ∈ us, (u.valueOf key.1).SameKind (v.valueOf key.1)

instance (order : SortOrder) (us : List Tuple) : Decidable (order.Uniform us) :=
  inferInstanceAs (Decidable (∀ key ∈ order, _))

theorem compareTuples_eq {order : SortOrder} {cs cs' : List Column} {u v : Tuple} (hu : u.Laid cs)
    (hv : v.Laid cs') (h : ∀ key ∈ order, (u.valueOf key.1).SameKind (v.valueOf key.1)) :
    order.compareTuples u v = .ok (order.compareKeys u v) := by
  induction order with
  | nil => rfl
  | cons key rest ih =>
    obtain ⟨c, d⟩ := key
    have hkind : (u.valueOf c).SameKind (v.valueOf c) := h (c, d) List.mem_cons_self
    have hkind' : (v.valueOf c).SameKind (u.valueOf c) := by
      rcases hkind with hu | hv | hk
      · exact .inr (.inl hu)
      · exact .inl hv
      · exact .inr (.inr hk.symm)
    rw [compareTuples, hu.getOrNull_eq, hv.getOrNull_eq]
    simp only [bind, Except.bind, pure, Except.pure,
      ih fun key hkey => h key (List.mem_cons_of_mem _ hkey)]
    cases d with
    | ascending =>
      simp only [compareValues, Value.sortCompare_eq hkind, compareKeys, compareLex]
      cases (u.valueOf c).comparePlaces (v.valueOf c) <;> rfl
    | descending =>
      simp only [compareValues, Value.sortCompare_eq hkind', compareKeys, compareLex]
      cases (v.valueOf c).comparePlaces (u.valueOf c) <;> rfl

/-- Comparing tuples that are laid out does not crash. -/
theorem compareTuples_ok (order : SortOrder) {cs : List Column} {u v : Tuple} (hu : u.Laid cs)
    (hv : v.Laid cs) : ∃ o, order.compareTuples u v = .ok o := by
  induction order with
  | nil => exact ⟨_, rfl⟩
  | cons key rest ih =>
    obtain ⟨o, ho⟩ := ih
    rw [compareTuples, hu.getOrNull_eq, hv.getOrNull_eq]
    simp only [bind, Except.bind, pure, Except.pure, ho]
    split
    · exact ⟨_, rfl⟩
    · exact ⟨_, rfl⟩

/-- Sorting tuples that are laid out gives all of them, also where the order is none. -/
theorem sortTuples_perm (order : SortOrder) {cs : List Column} {us : List Tuple}
    (h : ∀ u ∈ us, u.Laid cs) : ∃ s, order.sortTuples us = .ok s ∧ s.Perm us := by
  have hcheck : ∀ vs : List Tuple, (∀ v ∈ vs, v.Laid cs) → order.checkNeighbours vs = .ok () := by
    intro vs hvs
    induction vs with
    | nil => rfl
    | cons u rest ih =>
      cases rest with
      | nil => rfl
      | cons v rest =>
        obtain ⟨o, ho⟩ := order.compareTuples_ok (hvs u (by simp)) (hvs v (by simp))
        rw [checkNeighbours, ho]
        exact ih fun w hw => hvs w (List.mem_cons_of_mem _ hw)
  refine ⟨us.mergeSort order.le, ?_, List.mergeSort_perm us order.le⟩
  rw [sortTuples, hcheck _ fun v hv => h v (List.mem_mergeSort.1 hv)]
  rfl

/-- Tuples that can be compared: each has a value for every column of its layout, and their keys are
uniform. -/
structure Comparable (order : SortOrder) (us : List Tuple) : Prop where
  laid : ∀ u ∈ us, u.Laid u.columns
  uniform : order.Uniform us

namespace Comparable

variable {order : SortOrder} {us vs s : List Tuple}

theorem mono (h : order.Comparable us) (hsub : ∀ u ∈ vs, u ∈ us) : order.Comparable vs :=
  ⟨fun u hu => h.laid u (hsub u hu),
    fun key hkey u hu v hv => h.uniform key hkey u (hsub u hu) v (hsub v hv)⟩

theorem compare_eq (h : order.Comparable us) {u v : Tuple} (hu : u ∈ us) (hv : v ∈ us) :
    order.compareTuples u v = .ok (order.compareKeys u v) :=
  compareTuples_eq (h.laid u hu) (h.laid v hv) fun key hkey => h.uniform key hkey u hu v hv

theorem checkNeighbours (h : order.Comparable us) : order.checkNeighbours us = .ok () := by
  induction us with
  | nil => rfl
  | cons u rest ih =>
    cases rest with
    | nil => rfl
    | cons v rest =>
      have hcompare := h.compare_eq (u := u) (v := v) (by simp) (by simp)
      rw [SortOrder.checkNeighbours, hcompare]
      exact ih (h.mono fun w hw => List.mem_cons_of_mem _ hw)

/-- Sorting such tuples gives their stable sort. -/
theorem sortTuples (h : order.Comparable us) :
    ∃ s, order.sortTuples us = .ok s ∧ StableSort order.compareKeys us s := by
  have hle : ∀ u ∈ us, ∀ v ∈ us, order.le u v = (order.compareKeys u v).isLE := by
    intro u hu v hv
    rw [SortOrder.le, h.compare_eq hu hv]
    cases order.compareKeys u v <;> rfl
  have hsort : us.mergeSort order.le = us.mergeSort fun u v => (order.compareKeys u v).isLE := by
    have hmap := List.map_mergeSort (f := id) (s := fun u v => (order.compareKeys u v).isLE) hle
    rwa [List.map_id, List.map_id] at hmap
  refine ⟨us.mergeSort order.le, ?_, hsort ▸ .mergeSort us⟩
  have hsorted : order.Comparable (us.mergeSort order.le) :=
    h.mono fun u hu => List.mem_mergeSort.1 hu
  have hcheck := hsorted.checkNeighbours
  rw [SortOrder.sortTuples, hcheck]
  rfl

/-- Of tuples that are given in two orders, the sorts have the same keys place by place. -/
theorem forall₂_compareTuples {out out' : List Tuple} (h : order.Comparable us) (hperm : us.Perm vs)
    (hout : StableSort order.compareKeys us out) (hout' : StableSort order.compareKeys vs out') :
    List.Forall₂ (fun u v => order.compareTuples u v = .ok .eq) out out' := by
  have hequal := hout.forall₂_eq hout' hperm
  refine List.forall₂_iff_zip.2 ⟨hequal.length_eq, fun {u v} huv => ?_⟩
  have hmem := List.of_mem_zip huv
  have hu : u ∈ us := hout.mem_iff.1 hmem.1
  have hv : v ∈ us := hperm.mem_iff.2 (hout'.mem_iff.1 hmem.2)
  rw [h.compare_eq hu hv, (List.forall₂_iff_zip.1 hequal).2 huv]

theorem insert {u : Tuple} (h : order.Comparable (u :: s)) :
    order.insert u s = .ok (insertBehind order.compareKeys u s) := by
  induction s with
  | nil => rfl
  | cons v rest ih =>
    rw [SortOrder.insert, h.compare_eq List.mem_cons_self (by simp),
      ih (h.mono fun w hw => by simp only [List.mem_cons] at hw ⊢; tauto), insertBehind]
    simp only [bind, Except.bind, pure, Except.pure]
    split <;> rfl

/-- Keeping the least tuples keeps the first ones of the stable sort. -/
theorem keepLeast {u : Tuple} {n : Nat} (hn : 0 < n) (hs : StableSort order.compareKeys us s)
    (h : order.Comparable (us ++ [u])) :
    TupleStream.keepLeast order n (s.take n) u =
      .ok ((insertBehind order.compareKeys u s).take n) := by
  have hmem : ∀ v ∈ s.take n, v ∈ us := fun v hv => hs.mem_iff.1 (List.mem_of_mem_take hv)
  have hkept : order.Comparable (u :: s.take n) := by
    refine h.mono fun v hv => ?_
    rcases List.mem_cons.1 hv with rfl | hv
    · simp
    · exact List.mem_append_left _ (hmem v hv)
  have hsorted : (s.take n).Pairwise fun a b => (order.compareKeys a b).isLE :=
    hs.ascending.sublist (List.take_sublist n s)
  have hlength : (s.take n).length ≤ n := List.length_take_le n s
  rw [take_insertBehind, TupleStream.keepLeast]
  generalize s.take n = kept at *
  by_cases hroom : kept.length < n
  · rw [if_pos hroom, hkept.insert, List.take_of_length_le]
    rw [length_insertBehind]
    omega
  · rw [if_neg hroom]
    have hfull : n = kept.length := by omega
    rcases List.eq_nil_or_concat' kept with rfl | ⟨rest, worst, rfl⟩
    · exact absurd hn (hfull ▸ Nat.lt_irrefl 0)
    · have hrest : order.Comparable (u :: rest) := by
        refine hkept.mono fun v hv => ?_
        simp only [List.mem_cons, List.mem_append] at hv ⊢
        tauto
      rw [hfull, List.length_append, List.length_singleton,
        StableSort.take_insertBehind_append hsorted]
      simp only [List.getLast?_append, List.getLast?_singleton, Option.some_or, List.dropLast_concat,
        hkept.compare_eq (u := u) (v := worst) List.mem_cons_self (by simp), hrest.insert, bind,
        Except.bind, pure, Except.pure]
      split <;> rfl

end Comparable

/-- Tuples that can be sorted: all have the same layout, and their keys are uniform. -/
structure Sortable (order : SortOrder) (cs : List Column) (us : List Tuple) : Prop where
  laid : ∀ u ∈ us, u.Laid cs
  uniform : order.Uniform us

namespace Sortable

variable {order : SortOrder} {cs : List Column} {us vs : List Tuple}

theorem mono (h : order.Sortable cs us) (hsub : ∀ u ∈ vs, u ∈ us) : order.Sortable cs vs :=
  ⟨fun u hu => h.laid u (hsub u hu),
    fun key hkey u hu v hv => h.uniform key hkey u (hsub u hu) v (hsub v hv)⟩

theorem comparable (h : order.Sortable cs us) : order.Comparable us :=
  ⟨fun u hu => ⟨rfl, (h.laid u hu).2.trans (congrArg List.length (h.laid u hu).1.symm)⟩, h.uniform⟩

end Sortable

end SortOrder

end QueryEngine
