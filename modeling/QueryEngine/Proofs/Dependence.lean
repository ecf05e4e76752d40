import QueryEngine.Function.Touchy
import QueryEngine.Proofs.Refusals
import QueryEngine.Proofs.Wildcards

/-!
# What a predicate depends on

A predicate looks at a tuple only through the columns that it declares. Two tuples that answer alike
for these columns are told apart neither by its result nor by its failure, whatever else they hold
and however they are laid out.
-/

set_option autoImplicit false

namespace QueryEngine

/-- Whether two tuples answer alike when they are asked for one of the columns. -/
def Tuple.SameOn (cs : List Column) (t u : Tuple) : Prop := ∀ c ∈ cs, t.get? c = u.get? c

instance (cs : List Column) (t u : Tuple) : Decidable (Tuple.SameOn cs t u) :=
  inferInstanceAs (Decidable (∀ c ∈ cs, _))

section

variable {b : Bindings} {t u : Tuple}

theorem Tuple.SameOn.mono {cs ds : List Column} (h : Tuple.SameOn ds t u)
    (hsub : ∀ c ∈ cs, c ∈ ds) : Tuple.SameOn cs t u :=
  fun c hc => h c (hsub c hc)

namespace Bindings

mutual

theorem resolve_sameOn : ∀ {a : Binding}, Tuple.SameOn a.columns t u →
    b.resolve (some t) a = b.resolve (some u) a
  | .literal _ _, _ => by rw [resolve, resolve]
  | .column c, h => by
    have hget : t.get? c = u.get? c := h c (List.mem_singleton_self c)
    rw [resolve, resolve, columnValue_some, columnValue_some, hget]
  | .call _ arguments, h => by
    have harguments : b.resolveEach (some t) arguments = b.resolveEach (some u) arguments :=
      resolveEach_sameOn h
    rw [resolve, resolve, harguments]
  | .subquery _ _, _ => by rw [resolve, resolve]

theorem resolveEach_sameOn : ∀ {as : List Binding}, Tuple.SameOn (Binding.columnsOfAll as) t u →
    b.resolveEach (some t) as = b.resolveEach (some u) as
  | [], _ => rfl
  | a :: rest, h => by
    have ha : Tuple.SameOn a.columns t u := h.mono fun c hc => List.mem_append_left _ hc
    have hrest : Tuple.SameOn (Binding.columnsOfAll rest) t u :=
      h.mono fun c hc => List.mem_append_right _ hc
    rw [resolveEach, resolveEach, resolve_sameOn ha, resolveEach_sameOn hrest]

end

theorem resolveAll_sameOn {a : Binding} (h : Tuple.SameOn a.columns t u) :
    b.resolveAll (some t) a = b.resolveAll (some u) a := by
  cases a with
  | subquery g c => rfl
  | literal slot type => rfl
  | column c => exact congrArg (Except.map fun v => [v]) (resolve_sameOn h)
  | call f arguments => exact congrArg (Except.map fun v => [v]) (resolve_sameOn h)

end Bindings

namespace Comparison

/-- The entries of a list are tried in the same order and the search ends at the same one. -/
theorem isAmong_sameOn {list : List Binding} (h : ∀ a ∈ list, Tuple.SameOn a.columns t u)
    (v : Value) : isAmong b t v list = isAmong b u v list := by
  induction list with
  | nil => rfl
  | cons a rest ih =>
    obtain ⟨ha, hrest⟩ := List.forall_mem_cons.1 h
    rw [isAmong, isAmong, Bindings.resolveAll_sameOn ha, ih hrest]

theorem holds_sameOn {c : Comparison} (h : ∀ a ∈ c.bindings, Tuple.SameOn a.columns t u) :
    c.holds b t = c.holds b u := by
  have hresolve (a : Binding) (ha : a ∈ c.bindings) :
      b.resolve (some t) a = b.resolve (some u) a := Bindings.resolve_sameOn (h a ha)
  cases c with
  | relation r left right =>
    have hleft := hresolve left List.mem_cons_self
    have hright := hresolve right (by simp [bindings])
    simp only [holds, hleft, hright]
  | between value lower upper =>
    have hvalue := hresolve value List.mem_cons_self
    have hlower := hresolve lower (by simp [bindings])
    have hupper := hresolve upper (by simp [bindings])
    simp only [holds, hvalue, hlower, hupper]
  | oneOf value list =>
    have hvalue := hresolve value List.mem_cons_self
    have hlist : ∀ a ∈ list, Tuple.SameOn a.columns t u :=
      fun a ha => h a (List.mem_cons_of_mem _ ha)
    simp only [holds, hvalue, isAmong_sameOn hlist]
  | isNull value =>
    have hvalue := hresolve value List.mem_cons_self
    simp only [holds, hvalue]
  | like value pattern =>
    have hvalue := hresolve value List.mem_cons_self
    have hpattern := hresolve pattern (by simp [bindings])
    simp only [holds, hvalue, hpattern]

end Comparison

namespace Predicate

theorem holds_of_bindings {p : Predicate} (h : ∀ a ∈ p.bindings, Tuple.SameOn a.columns t u) :
    p.holds b t = p.holds b u := by
  have hsides {l r : Predicate}
      (h : ∀ a ∈ (l.atoms ++ r.atoms).flatMap fun atom => atom.1.bindings,
        Tuple.SameOn a.columns t u) :
      (∀ a ∈ l.bindings, Tuple.SameOn a.columns t u) ∧
        ∀ a ∈ r.bindings, Tuple.SameOn a.columns t u := by
    rw [List.flatMap_append] at h
    exact ⟨fun a ha => h a (List.mem_append_left _ ha),
      fun a ha => h a (List.mem_append_right _ ha)⟩
  induction p with
  | literal value => rfl
  | atom c negated =>
    have hc : ∀ a ∈ c.bindings, Tuple.SameOn a.columns t u :=
      fun a ha => h a (List.mem_append_left _ ha)
    rw [holds, holds, Comparison.holds_sameOn hc]
  | both l r ihl ihr =>
    obtain ⟨hl, hr⟩ := hsides h
    rw [holds, holds, ihl hl, ihr hr]
  | either l r ihl ihr =>
    obtain ⟨hl, hr⟩ := hsides h
    rw [holds, holds, ihl hl, ihr hr]

/-- A predicate has the same result, or fails in the same way, for tuples that answer alike for the
columns that it declares. -/
theorem holds_declared_columns (p : Predicate) (b : Bindings)
    (h : Tuple.SameOn p.columns t u) : p.holds b t = p.holds b u := by
  apply holds_of_bindings
  intro a ha c hc
  exact h c (mem_columns.2 ⟨a, ha, hc⟩)

end Predicate

end

/-! ### Two layouts -/

namespace Layouts

def x : Column := ⟨"t.x", .long, false⟩

def y : Column := ⟨"t.y", .long, false⟩

def name : Column := ⟨"t.name", .text, true⟩

def pattern : Column := ⟨"t.pattern", .text, false⟩

/-- A function that gives its argument back and refuses 13. -/
def same (a : Binding) : Binding := .call (.ofKernel ⟨"touchy", [.long], .long⟩ touchyKernel) [a]

/-- Columns stand in nested calls, in a list, as a bound and as a pattern. -/
def predicate : Predicate :=
  .both (.atom (.oneOf (.column x) [.subquery 3 x, same (same (.column y))]) false)
    (.either (.atom (.between (.column x) (.literal 0 none) (same (.column y))) false)
      (.atom (.like (.column name) (.column pattern)) false))

def literals : Bindings := ⟨[some (.long 9)], [(3, [.long 1])]⟩

def stored (n : Int64) : Tuple :=
  ⟨1, [x, y, name, pattern], [.long n, .long n, .text "north", .text "n%h"]⟩

/-- The same values in another order, behind a column of its own. -/
def made (n : Int64) : Tuple :=
  ⟨syntheticRow, [⟨"s.x", .long, true⟩, pattern, name, y, x],
    [.null, .text "n%h", .text "north", .long n, .long n]⟩

theorem pattern_matches : Like.isMatch (utf8Bytes "north") (utf8Bytes "n%h") = .ok true := by
  have hvalue : utf8Bytes "north" = [110, 111, 114, 116, 104] := by decide
  have hpattern : utf8Bytes "n%h" = [110, Like.anyRun, 104] := by decide
  have hdenotes : Like.Denotes (utf8Bytes "n%h") (utf8Bytes "north") := by
    rw [hvalue, hpattern, Like.denotes_byte_cons (by decide)]
    refine ⟨.inr rfl, Like.denotes_run.2 ⟨3, ?_⟩⟩
    exact (Like.denotes_byte_cons (by decide)).2 ⟨.inr rfl, Like.denotes_nil.2 rfl⟩
  obtain ⟨holds, hresult, hiff⟩ := Like.isMatch_sound (utf8Bytes "north") (utf8Bytes "n%h")
  rw [hresult, hiff.2 hdenotes]

end Layouts

open Layouts in
/-- Both tuples match with 5, and with 13 both fail. -/
theorem Predicate.holds_declared_columns_layouts :
    Tuple.SameOn predicate.columns (stored 5) (made 5) ∧
    predicate.holds literals (stored 5) = .ok true ∧ predicate.holds literals (made 5) = .ok true ∧
    Tuple.SameOn predicate.columns (stored 13) (made 13) ∧
    predicate.holds literals (stored 13) =
      .error (.error (.function "touchy" (.refused "unlucky"))) ∧
    predicate.holds literals (made 13) =
      .error (.error (.function "touchy" (.refused "unlucky"))) := by
  have hmatch : Tuple.SameOn predicate.columns (stored 5) (made 5) := by decide
  have hfail : Tuple.SameOn predicate.columns (stored 13) (made 13) := by decide
  have hstored : predicate.holds literals (stored 5) = .ok true :=
    show (Crash.lifted (Like.isMatch (utf8Bytes "north") (utf8Bytes "n%h"))).map (· != false) = _ by
      rw [pattern_matches]
      rfl
  have hrefused : predicate.holds literals (stored 13) =
      .error (.error (.function "touchy" (.refused "unlucky"))) := by decide
  refine ⟨hmatch, hstored, ?_, hfail, hrefused, ?_⟩
  · rw [← predicate.holds_declared_columns literals hmatch, hstored]
  · rw [← predicate.holds_declared_columns literals hfail, hrefused]

end QueryEngine
