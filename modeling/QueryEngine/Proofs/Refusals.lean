import QueryEngine.Plan.Physical
import QueryEngine.Proofs.Results
import QueryEngine.Proofs.Wildcards

/-!
# Why a binding has no value

A binding is resolved part by part, and fails with what the first part without a value reports: a
literal, a column or a sub-query that cannot be looked up, or a function that gives no value. A
predicate fails with what one of its bindings reports.
-/

set_option autoImplicit false

namespace QueryEngine

/-- How one part of a binding can fail. -/
inductive Bindings.Refused (b : Bindings) (u : Option Tuple) : Binding → Failure → Prop
  | literal {slot type e} : b.literal slot = .error e →
      Refused b u (.literal slot type) (.error (.binding e))
  | column {c e} : columnValue u c = .error e → Refused b u (.column c) e
  | subquery {g c e} : b.subquery g = .error e → Refused b u (.subquery g c) (.error (.binding e))
  | invoked {f arguments vs e} : f.invoke vs = .error e → Refused b u (.call f arguments) e
  | argument {f arguments a e} : a ∈ arguments → Refused b u a e →
      Refused b u (.call f arguments) e

namespace Bindings

variable {b : Bindings} {u : Option Tuple} {e : Failure}

theorem lifted_eq_error {α : Type} {r : Except BindingError α} (h : lifted r = .error e) :
    ∃ cause, r = .error cause ∧ e = .error (.binding cause) := by
  cases r with
  | ok a => cases h
  | error cause =>
    cases h
    exact ⟨cause, rfl, rfl⟩

mutual

theorem refused_of_resolve : ∀ {a : Binding}, b.resolve u a = .error e → b.Refused u a e
  | .literal slot type, h => by
    rw [resolve] at h
    obtain ⟨cause, hc, rfl⟩ := lifted_eq_error h
    exact .literal hc
  | .column c, h => .column (by rwa [resolve] at h)
  | .call f arguments, h => by
    rw [resolve] at h
    cases hr : b.resolveEach u arguments with
    | ok vs =>
      rw [hr] at h
      exact .invoked h
    | error f =>
      rw [hr] at h
      cases h
      obtain ⟨a, ha, hrefused⟩ := refused_of_resolveEach hr
      exact .argument ha hrefused
  | .subquery g c, h => by
    rw [resolve, Except.map_eq_error] at h
    obtain ⟨cause, hc, rfl⟩ := lifted_eq_error h
    exact .subquery hc

theorem refused_of_resolveEach : ∀ {as : List Binding}, b.resolveEach u as = .error e →
    ∃ a ∈ as, b.Refused u a e
  | [], h => by rw [resolveEach] at h; cases h
  | a :: rest, h => by
    rw [resolveEach] at h
    cases hr : b.resolve u a with
    | error f =>
      rw [hr] at h
      cases h
      exact ⟨a, List.mem_cons_self, refused_of_resolve hr⟩
    | ok v =>
      rw [hr] at h
      obtain ⟨a', ha', hrefused⟩ := refused_of_resolveEach (Except.map_eq_error.1 h)
      exact ⟨a', List.mem_cons_of_mem _ ha', hrefused⟩

end

theorem refused_of_resolveAll {a : Binding} (h : b.resolveAll u a = .error e) :
    b.Refused u a e := by
  have hother (h : (b.resolve u a).map (fun v => [v]) = .error e) : b.Refused u a e :=
    refused_of_resolve (Except.map_eq_error.1 h)
  cases a with
  | subquery g c =>
    obtain ⟨cause, hc, rfl⟩ := lifted_eq_error h
    exact .subquery hc
  | literal slot type => exact hother h
  | column c => exact hother h
  | call f arguments => exact hother h

end Bindings

section Predicates

variable {b : Bindings} {u : Tuple} {e : Failure}

theorem Comparison.refused_of_isAmong {v : Value} {list : List Binding}
    (h : isAmong b u v list = .error e) : ∃ a ∈ list, b.Refused (some u) a e := by
  induction list with
  | nil => cases h
  | cons candidate rest ih =>
    rw [isAmong] at h
    cases hr : b.resolveAll (some u) candidate with
    | error f =>
      rw [hr] at h
      cases h
      exact ⟨candidate, List.mem_cons_self, Bindings.refused_of_resolveAll hr⟩
    | ok vs =>
      simp only [hr] at h
      split at h
      · cases h
      · obtain ⟨a, ha, hrefused⟩ := ih h
        exact ⟨a, List.mem_cons_of_mem _ ha, hrefused⟩

theorem Comparison.refused_of_holds {c : Comparison} (h : c.holds b u = .error e) :
    ∃ a ∈ c.bindings, b.Refused (some u) a e := by
  have hfail {a : Binding} (ha : a ∈ c.bindings) (h : b.resolve (some u) a = .error e) :
      ∃ a ∈ c.bindings, b.Refused (some u) a e :=
    ⟨a, ha, Bindings.refused_of_resolve h⟩
  cases c with
  | relation r left right =>
    rcases Except.bind_eq_error.1 h with h | ⟨x, -, h⟩
    · exact hfail (by simp [bindings]) h
    rcases Except.bind_eq_error.1 h with h | ⟨y, -, h⟩
    · exact hfail (by simp [bindings]) h
    cases h
  | between value lower upper =>
    rcases Except.bind_eq_error.1 h with h | ⟨v, -, h⟩
    · exact hfail (by simp [bindings]) h
    rcases Except.bind_eq_error.1 h with h | ⟨low, -, h⟩
    · exact hfail (by simp [bindings]) h
    split at h
    · rcases Except.bind_eq_error.1 h with h | ⟨high, -, h⟩
      · exact hfail (by simp [bindings]) h
      cases h
    · cases h
  | oneOf value list =>
    rcases Except.bind_eq_error.1 h with h | ⟨v, -, h⟩
    · exact hfail (by simp [bindings]) h
    obtain ⟨a, ha, hrefused⟩ := refused_of_isAmong h
    exact ⟨a, List.mem_cons_of_mem _ ha, hrefused⟩
  | isNull value =>
    rcases Except.bind_eq_error.1 h with h | ⟨v, -, h⟩
    · exact hfail (by simp [bindings]) h
    cases h
  | like value pattern =>
    rcases Except.bind_eq_error.1 h with h | ⟨v, -, h⟩
    · exact hfail (by simp [bindings]) h
    rcases Except.bind_eq_error.1 h with h | ⟨p, -, h⟩
    · exact hfail (by simp [bindings]) h
    split at h
    · rename_i v p _
      obtain ⟨found, hfound, -⟩ := Like.isMatch_sound (utf8Bytes v) (utf8Bytes p)
      rw [hfound] at h
      cases h
    · cases h

theorem Predicate.refused_of_holds {p : Predicate} (h : p.holds b u = .error e) :
    ∃ a ∈ p.bindings, b.Refused (some u) a e := by
  have hleft {l r : Predicate} (h : ∃ a ∈ l.bindings, b.Refused (some u) a e) :
      ∃ a ∈ l.bindings ++ r.bindings, b.Refused (some u) a e := by
    obtain ⟨a, ha, hrefused⟩ := h
    exact ⟨a, List.mem_append_left _ ha, hrefused⟩
  have hright {l r : Predicate} (h : ∃ a ∈ r.bindings, b.Refused (some u) a e) :
      ∃ a ∈ l.bindings ++ r.bindings, b.Refused (some u) a e := by
    obtain ⟨a, ha, hrefused⟩ := h
    exact ⟨a, List.mem_append_right _ ha, hrefused⟩
  induction p with
  | literal value => cases h
  | atom c negated =>
    rw [holds, Except.map_eq_error] at h
    obtain ⟨a, ha, hrefused⟩ := Comparison.refused_of_holds h
    refine ⟨a, ?_, hrefused⟩
    simpa [bindings, atoms] using ha
  | both l r ihl ihr =>
    have hbindings : (both l r).bindings = l.bindings ++ r.bindings := List.flatMap_append
    rw [hbindings]
    rw [holds] at h
    split at h
    · exact hright (ihr h)
    · exact hleft (ihl h)
  | either l r ihl ihr =>
    have hbindings : (either l r).bindings = l.bindings ++ r.bindings := List.flatMap_append
    rw [hbindings]
    rw [holds] at h
    split at h
    · exact hright (ihr h)
    · exact hleft (ihl h)

end Predicates

/-! ## What a predicate reads -/

open Std

theorem ColumnType.display_inj {a b : ColumnType} (h : a.display = b.display) : a = b := by
  have hnumber {m n : Nat} (h : Nat.toDigits 10 m = Nat.toDigits 10 n) : m = n := by
    simpa [Nat.ofDigitChars_ten_toDigits] using congrArg (Nat.ofDigitChars 10 · 0) h
  have hlist := congrArg String.toList h
  cases a <;> cases b <;> simp [display, toString, String.toList_append] at hlist ⊢
  case floatVector.floatVector m n => exact hnumber hlist
  case doubleVector.doubleVector m n => exact hnumber hlist

namespace Column

theorem eq_of_order {a b : Column} (h : a.order b = .eq) : a = b := by
  obtain ⟨hname, h⟩ := Ordering.then_eq_eq.1 h
  obtain ⟨htype, hnullable⟩ := Ordering.then_eq_eq.1 h
  have hname : a.name = b.name := LawfulEqCmp.eq_of_compare hname
  have htype : a.type = b.type := ColumnType.display_inj (LawfulEqCmp.eq_of_compare htype)
  have hnullable : a.nullable = b.nullable := by
    have hsame := LawfulEqCmp.eq_of_compare hnullable
    cases ha : a.nullable <;> cases hb : b.nullable <;> simp [ha, hb] at hsame ⊢
  obtain ⟨name, type, nullable⟩ := a
  exact Column.mk.injEq .. ▸ ⟨hname, htype, hnullable⟩

theorem mem_insertSorted {c d : Column} {cs : List Column} :
    d ∈ c.insertSorted cs ↔ d = c ∨ d ∈ cs := by
  induction cs with
  | nil => simp [insertSorted]
  | cons x rest ih =>
    rw [insertSorted]
    cases hx : c.order x with
    | lt => exact List.mem_cons
    | eq => simp [eq_of_order hx]
    | gt =>
      rw [List.mem_cons, ih, List.mem_cons]
      exact or_left_comm

theorem mem_sortedSet {c : Column} {cs : List Column} : c ∈ sortedSet cs ↔ c ∈ cs := by
  have hfold (acc : List Column) :
      c ∈ cs.foldl (fun acc d => d.insertSorted acc) acc ↔ c ∈ acc ∨ c ∈ cs := by
    induction cs generalizing acc with
    | nil => simp
    | cons d rest ih =>
      rw [List.foldl_cons, ih, mem_insertSorted, List.mem_cons, or_assoc]
      exact or_left_comm
  rw [sortedSet, hfold]
  simp

end Column

theorem Predicate.mem_columns {p : Predicate} {c : Column} :
    c ∈ p.columns ↔ ∃ a ∈ p.bindings, c ∈ a.columns := by
  rw [columns, Column.mem_sortedSet, bindings, ← List.mem_flatMap, List.flatMap_assoc]
  rfl

/-! ## What the parts report -/

/-- Whether the error says that a slot has no value. -/
def BindingError.isUnbound : BindingError → Bool
  | unknownLiteral _ => true
  | unboundParameter _ => true
  | _ => false

/-- Whether a function never reports that a value is not bound: it is given values, not bindings. -/
def Function.TakesValues (f : Function) : Prop :=
  ∀ vs cause, f.invoke vs ≠ .error (.error (.binding cause))

namespace Binding

mutual

/-- The functions that a binding applies. -/
def functions : Binding → List Function
  | literal .. => []
  | column _ => []
  | call f arguments => f :: functionsOfAll arguments
  | subquery .. => []

def functionsOfAll : List Binding → List Function
  | [] => []
  | a :: rest => a.functions ++ functionsOfAll rest

end

theorem functionsOfAll_eq (as : List Binding) : functionsOfAll as = as.flatMap functions := by
  induction as with
  | nil => rfl
  | cons a rest ih => rw [functionsOfAll, List.flatMap_cons, ih]

theorem columnsOfAll_eq (as : List Binding) : columnsOfAll as = as.flatMap columns := by
  induction as with
  | nil => rfl
  | cons a rest ih => rw [columnsOfAll, List.flatMap_cons, ih]

end Binding

namespace Bindings

variable {b : Bindings} {u : Option Tuple} {a : Binding}

theorem checkAll_eq_ok {as : List Binding} :
    b.checkAll as = .ok () ↔ ∀ a ∈ as, b.check a = .ok () := by
  induction as with
  | nil => simp [checkAll]
  | cons a rest ih =>
    rw [checkAll, List.forall_mem_cons, ← ih]
    cases b.check a with
    | error e => simp
    | ok x => simp

mutual

/-- Only the slots decide whether all slots that a binding reads have values. -/
theorem check_congr {b b' : Bindings} (h : b.slots = b'.slots) :
    ∀ a : Binding, b.check a = b'.check a
  | .literal slot type => by simp only [check, literal, h]
  | .column c => by rw [check, check]
  | .call f arguments => by rw [check, check, checkAll_congr h arguments]
  | .subquery g c => by rw [check, check]

theorem checkAll_congr {b b' : Bindings} (h : b.slots = b'.slots) :
    ∀ as : List Binding, b.checkAll as = b'.checkAll as
  | [] => by rw [checkAll, checkAll]
  | a :: rest => by rw [checkAll, checkAll, check_congr h a, checkAll_congr h rest]

end

theorem literal_eq_error {slot : Nat} {cause : BindingError} (h : b.literal slot = .error cause) :
    cause.isUnbound = true := by
  unfold literal at h
  split at h
  · cases h
  · cases h
    rfl
  · cases h
    rfl

theorem subquery_missing {g : GroupId} {cause : BindingError} (h : b.subquery g = .error cause) :
    cause = .missingSubquery g := by
  unfold subquery at h
  split at h
  · cases h
  · cases h
    rfl

theorem columnValue_some (v : Tuple) (c : Column) : columnValue (some v) c =
    match v.get? c with
    | .error crash => .error (.crashed crash)
    | .ok (some x) => .ok x
    | .ok none => .error (.error (.binding (.missingColumn c.name))) := by
  rw [columnValue, Option.mapM_some]
  rcases v.get? c with crash | _ | x <;> rfl

/-- A column is missed where there is no tuple or the tuple lacks it. -/
theorem columnValue_missing {c : Column} {e : ExecutionError}
    (h : columnValue u c = .error (.error e)) :
    e = .binding (.missingColumn c.name) ∧ ∀ v, u = some v → v.get? c = .ok none := by
  cases u with
  | none =>
    cases h
    exact ⟨rfl, fun v hv => nomatch hv⟩
  | some v =>
    rw [columnValue_some] at h
    split at h
    · cases h
    · cases h
    · rename_i hg
      cases h
      exact ⟨rfl, fun w hw => Option.some.inj hw ▸ hg⟩

mutual

/-- Without a tuple only bindings that read no columns have values. -/
theorem columns_of_resolve : ∀ {a : Binding} {v : Value}, b.resolve none a = .ok v → a.columns = []
  | .literal slot type, _, _ => rfl
  | .column c, _, h => by
    rw [resolve] at h
    cases h
  | .call f arguments, _, h => by
    rw [resolve] at h
    cases hr : b.resolveEach none arguments with
    | error e => simp [hr] at h
    | ok vs => exact columns_of_resolveEach hr
  | .subquery g c, _, _ => rfl

theorem columns_of_resolveEach : ∀ {as : List Binding} {vs : List Value},
    b.resolveEach none as = .ok vs → Binding.columnsOfAll as = []
  | [], _, _ => rfl
  | a :: rest, _, h => by
    rw [resolveEach] at h
    cases hr : b.resolve none a with
    | error e => simp [hr] at h
    | ok v =>
      rw [hr] at h
      obtain ⟨vs, hvs, -⟩ := Except.map_eq_ok.1 h
      rw [Binding.columnsOfAll, columns_of_resolve hr, columns_of_resolveEach hvs, List.nil_append]

end

namespace Refused

variable {f : Failure} {cause : BindingError}

/-- Once every slot of a binding has been found to have a value, none is reported to lack one. -/
theorem bound (h : b.Refused u a f) (hcheck : b.check a = .ok ())
    (hf : ∀ g ∈ a.functions, g.TakesValues) (he : f = .error (.binding cause)) :
    cause.isUnbound = false := by
  induction h with
  | literal hl =>
    rw [check, hl] at hcheck
    cases hcheck
  | column hc =>
    subst he
    cases (columnValue_missing hc).1
    rfl
  | subquery hs =>
    cases he
    rw [subquery_missing hs]
    rfl
  | invoked hv => exact absurd (he ▸ hv) (hf _ List.mem_cons_self _ _)
  | argument ha _ ih =>
    rw [check, checkAll_eq_ok] at hcheck
    refine ih (hcheck _ ha) (fun g hg => hf g ?_) he
    rw [Binding.functions, Binding.functionsOfAll_eq]
    exact List.mem_cons_of_mem _ (List.mem_flatMap.2 ⟨_, ha, hg⟩)

/-- A column that is missed is one that the binding reads and the tuple at hand lacks. -/
theorem missing {name : String} (h : b.Refused u a f) (hf : ∀ g ∈ a.functions, g.TakesValues)
    (he : f = .error (.binding (.missingColumn name))) :
    ∃ c ∈ a.columns, c.name = name ∧ ∀ v, u = some v → v.get? c = .ok none := by
  induction h with
  | literal hl =>
    cases he
    cases literal_eq_error hl
  | @column c _ hc =>
    subst he
    obtain ⟨hname, hlacks⟩ := columnValue_missing hc
    cases hname
    exact ⟨c, List.mem_singleton_self c, rfl, hlacks⟩
  | subquery hs =>
    cases he
    cases subquery_missing hs
  | invoked hv => exact absurd (he ▸ hv) (hf _ List.mem_cons_self _ _)
  | argument ha _ ih =>
    have hinner : ∀ g ∈ (_ : Binding).functions, g.TakesValues := fun g hg => by
      refine hf g ?_
      rw [Binding.functions, Binding.functionsOfAll_eq]
      exact List.mem_cons_of_mem _ (List.mem_flatMap.2 ⟨_, ha, hg⟩)
    obtain ⟨c, hc, hrest⟩ := ih hinner he
    refine ⟨c, ?_, hrest⟩
    rw [Binding.columns, Binding.columnsOfAll_eq]
    exact List.mem_flatMap.2 ⟨_, ha, hc⟩

end Refused

end Bindings

end QueryEngine
