import QueryEngine.Function.Touchy
import QueryEngine.Proofs.Conduct

/-!
# The columns of functions

A function operator answers every pull as its input does, with one more value in each tuple. The new
column stands behind all others and a column is looked up by its first match, so that the result is
read under its column if no column of the input equals it; otherwise the input's column is read.
-/

set_option autoImplicit false

namespace QueryEngine

/-! ## Extended tuples -/

namespace Tuple

variable {cs : List Column} {u : Tuple} {c : Column} {v : Value}

theorem Laid.get?_extend_of_mem (h : u.Laid cs) (hc : c ∈ cs) (out : Column) :
    (u.extend (cs ++ [out]) v).get? c = u.get? c := by
  obtain ⟨place, hplace⟩ : ∃ place, cs.findIdx? (· = c) = some place :=
    Option.ne_none_iff_exists'.1 fun hnone => findIdx?_eq_none.1 hnone hc
  have hlt : place < u.values.length := by
    rw [h.2]
    exact (List.findIdx?_eq_some_iff_getElem.1 hplace).1
  simp [get?, extend, List.findIdx?_append, hplace, h.1, valueAt, List.getElem?_append_left hlt]

theorem Laid.get?_extend (h : u.Laid cs) {out : Column} (hout : out ∉ cs) :
    (u.extend (cs ++ [out]) v).get? out = .ok (some v) := by
  have hnone : cs.findIdx? (· = out) = none := findIdx?_eq_none.2 hout
  simp [get?, extend, List.findIdx?_append, hnone, valueAt, ← h.2]

end Tuple

/-! ## Answers to pulls -/

/-- What a stream answers when it is pulled in one state after another, as long as something is left
of it. -/
def TupleStream.replies (t : TupleStream) : List RunState → List Reply
  | [] => []
  | s :: later => t.pull s ::
    match (t.pull s).rest? with
    | some rest => rest.replies later
    | none => []

/-- The contract that allows everything. -/
def Contract.free : Contract where
  leads _ _ := True
  allows _ _ := True
  lasting := True
  trans _ _ := trivial
  of_bindings _ := trivial
  earlier _ _ := trivial
  others _ := trivial

/-- What is answered above a function to an answer below it. -/
def Reply.apply (f : Function) (arguments : List Binding) (cs : List Column) : Reply → Reply
  | .row u s rest =>
    match (s.bindings.resolveEach (some u) arguments).bind f.invoke with
    | .ok v => .row (u.extend cs v) s (rest.apply f arguments cs)
    | .error e => .ofFailure e s (rest.apply f arguments cs)
  | .finished s rest => .finished s (rest.apply f arguments cs)
  | .failed e s => .failed e s
  | .crashed c s rest => .crashed c s (rest.apply f arguments cs)

namespace TupleStream

variable {f : Function} {arguments : List Binding} {cs : List Column} {t : TupleStream}
  {history : List RunState}

theorem Meets.replies {C : Contract} {P : Tuple → Prop} (hlasting : C.lasting) :
    ∀ {t : TupleStream}, t.Meets C P →
      ∀ {u s rest}, .row u s rest ∈ t.replies history → P u := by
  induction history with
  | nil => exact fun _ _ _ _ hmem => nomatch hmem
  | cons s₀ later ih =>
    intro t h u s rest hmem
    have hpull := h.pull s₀
    rw [TupleStream.replies] at hmem
    generalize t.pull s₀ = r at hmem hpull
    rcases List.mem_cons.1 hmem with rfl | hmem
    · exact hpull.1
    · cases r with
      | row v s₁ left => exact ih hpull.2.2 hmem
      | finished s₁ left => exact ih hpull.2 hmem
      | failed e s₁ => cases hmem
      | crashed c s₁ left => exact ih (hpull.2 hlasting) hmem

theorem pull_apply (s : RunState) :
    (t.apply f arguments cs).pull s = (t.pull s).apply f arguments cs := by
  cases t with
  | ended => rfl
  | of pull =>
    change (pull s).transduce _ () = (pull s).apply f arguments cs
    cases pull s with
    | row u s' rest =>
      simp only [Reply.transduce, Transducer.stateless, Transducer.steady, Reply.apply]
      cases (s'.bindings.resolveEach (some u) arguments).bind f.invoke with
      | ok v => rfl
      | error e => rfl
    | finished s' rest => rfl
    | failed e s' => rfl
    | crashed c s' rest => rfl

/-- Whatever is left above is the function over what is left below. -/
theorem rest?_apply {r : Reply} {left : TupleStream}
    (h : (r.apply f arguments cs).rest? = some left) :
    ∃ rest, r.rest? = some rest ∧ left = rest.apply f arguments cs := by
  cases r with
  | row u s rest =>
    refine ⟨rest, rfl, ?_⟩
    simp only [Reply.apply] at h
    split at h
    · exact (Option.some.inj h).symm
    · rename_i e _
      cases e with
      | error e => cases h
      | crashed c => exact (Option.some.inj h).symm
  | finished s rest => exact ⟨rest, rfl, (Option.some.inj h).symm⟩
  | failed e s => cases h
  | crashed c s rest => exact ⟨rest, rfl, (Option.some.inj h).symm⟩

/-- Every tuple above a function stems from the answer to the same pull below. -/
theorem replies_apply {w : Tuple} {s : RunState} {left : TupleStream} :
    ∀ {t : TupleStream} {i : Nat},
      ((t.apply f arguments cs).replies history)[i]? = some (.row w s left) →
      ∃ u v rest, (t.replies history)[i]? = some (.row u s rest) ∧
        (s.bindings.resolveEach (some u) arguments).bind f.invoke = .ok v ∧ w = u.extend cs v := by
  induction history with
  | nil => exact fun h => nomatch h
  | cons s₀ later ih =>
    intro t i h
    rw [TupleStream.replies, pull_apply] at h
    cases i with
    | zero =>
      have hrow := Option.some.inj h
      cases hr : t.pull s₀ with
      | row u s' rest =>
        rw [hr, Reply.apply] at hrow
        split at hrow
        · rename_i v hv
          cases hrow
          exact ⟨u, v, rest, by simp [TupleStream.replies, hr], hv, rfl⟩
        · rename_i e _
          cases e with
          | error e => cases hrow
          | crashed c => cases hrow
      | finished s' rest => rw [hr] at hrow; cases hrow
      | failed e s' => rw [hr] at hrow; cases hrow
      | crashed c s' rest => rw [hr] at hrow; cases hrow
    | succ i =>
      -- A later answer above is one to the rest above, which is the function over the rest below.
      rw [List.getElem?_cons_succ] at h
      split at h
      · rename_i left' hleft
        obtain ⟨rest, hrest, rfl⟩ := rest?_apply hleft
        obtain ⟨u, v, rest', hu, hv, hw⟩ := ih h
        refine ⟨u, v, rest', ?_, hv, hw⟩
        rw [TupleStream.replies, List.getElem?_cons_succ, hrest]
        exact hu
      · cases h

end TupleStream

namespace PhysicalPlan

open Lowering

variable {limits : RunLimits} {st st' : LoweringState}

/-- What setting up a function operator gives: the function over the stream of its only input, which
may run on a worker. -/
theorem lower_function {group : GroupId} {f : Function} {arguments : List Binding} {out : Column}
    {inputs : List PhysicalPlan}
    (hcheck : (Operator.function f arguments out).check (inputs.map columns) = .ok ())
    {t : TupleStream}
    (h : lower limits (.node group (.function f arguments out) inputs) st = (.ok t, st')) :
    ∃ input source st₁ first, inputs = [input] ∧ lower limits input st = (.ok source, st₁) ∧
      (first = source ∨ first = source.onWorker input.group) ∧
      t = first.apply f arguments (input.columns ++ [out]) := by
  have hadmits : (Arity.exactly 1).admits (inputs.map columns).length = true :=
    (Operator.check_eq_ok.1 hcheck).1
  have hlength : inputs.length = 1 := by simpa [Arity.admits] using hadmits
  obtain ⟨input, rfl⟩ := List.length_eq_one_iff.1 hlength
  obtain ⟨ts, st₁, hts, ht, -⟩ := lower_node_eq_ok h
  obtain ⟨source, st₂, hsource, hts⟩ := bind_eq_ok.1 hts
  obtain ⟨first, st₃, hfirst, hts⟩ := bind_eq_ok.1 hts
  obtain ⟨others, st₄, hothers, hts⟩ := bind_eq_ok.1 hts
  cases hothers
  cases hts
  cases ht
  exact ⟨input, source, st₂, first, rfl, hsource, (connect_eq_ok hfirst).1, rfl⟩

/-- The streams of a valid plan give tuples with the columns of the plan. -/
theorem lower_laid {t u : PhysicalPlan} (hvalid : t.validate = .ok ()) (hu : u ∈ t.subtrees)
    (hindexes : t.IndexesFit st.run.store) {stream : TupleStream}
    (h : lower limits u st = (.ok stream, st')) :
    stream.Meets .free (Tuple.Laid u.columns) := by
  have hfits (g : GroupId) (op : Operator) (below : List PhysicalPlan)
      (hmem : .node g op below ∈ u.subtrees) : Fits .free Tuple.Laid st.run.store op below :=
    fits_of_valid hvalid hindexes (subtrees_subset hu _ hmem) (.of_allows (fun _ _ => trivial) _ op)
      fun _ _ _ _ => trivial
  exact (lower_meets Tuple.laid_layout u hfits (.refl _) h).1

/-- In a valid plan every tuple above a function operator holds what the function gave for the tuple
below. It is read under the new column unless the input has an equal one; the columns of the input
are read as they were. -/
theorem function_column_read {t : PhysicalPlan} (hvalid : t.validate = .ok ()) {group : GroupId}
    {f : Function} {arguments : List Binding} {out : Column} {inputs : List PhysicalPlan}
    (hnode : .node group (.function f arguments out) inputs ∈ t.subtrees)
    (hindexes : t.IndexesFit st.run.store) {stream : TupleStream}
    (h : lower limits (.node group (.function f arguments out) inputs) st = (.ok stream, st')) :
    ∃ input source st₁ first, inputs = [input] ∧ lower limits input st = (.ok source, st₁) ∧
      (first = source ∨ first = source.onWorker input.group) ∧
      ∀ history (i : Nat) w s left, (stream.replies history)[i]? = some (.row w s left) →
        ∃ u v rest, (first.replies history)[i]? = some (.row u s rest) ∧
          (s.bindings.resolveEach (some u) arguments).bind f.invoke = .ok v ∧
          (out ∉ input.columns → w.get? out = .ok (some v)) ∧
          ∀ c ∈ input.columns, w.get? c = u.get? c := by
  have hcheck := (validate_node.1 (validate_subtrees hvalid _ hnode)).1
  obtain ⟨input, source, st₁, first, rfl, hsource, hfirst, rfl⟩ := lower_function hcheck h
  refine ⟨input, source, st₁, first, rfl, hsource, hfirst, fun history i w s left hrow => ?_⟩
  have hinput : input ∈ t.subtrees :=
    subtrees_subset hnode input (mem_subtrees_node.2
      (.inr ⟨input, List.mem_singleton_self input, mem_subtrees_self input⟩))
  -- The layout of the tuples below decides at which place the new column is found.
  have hmeets : first.Meets .free (Tuple.Laid input.columns) := by
    have hmeets := lower_laid hvalid hinput hindexes hsource
    rcases hfirst with rfl | rfl
    · exact hmeets
    · exact .onWorker input.group source hmeets
  obtain ⟨u, v, rest, hu, hv, rfl⟩ := TupleStream.replies_apply hrow
  have hlaid : u.Laid input.columns := hmeets.replies trivial (List.mem_of_getElem? hu)
  exact ⟨u, v, rest, hu, hv, hlaid.get?_extend, fun c hc => hlaid.get?_extend_of_mem hc out⟩

end PhysicalPlan

namespace Numbered

def number : Column := ⟨"t.x", .long, true⟩

def once : Column := ⟨"once", .long, true⟩

def twice : Column := ⟨"twice", .long, true⟩

def engine : EngineState := ⟨⟨[⟨"t", [number], [(0, [.long 1])], 1, [], 0⟩]⟩, .empty⟩

def same : Function := .ofKernel ⟨"touchy", [.long], .long⟩ touchyKernel

def scan : PhysicalPlan := .node 0 (.scan (engine.store.handle 0) [number] 0 1) []

/-- A function of the result of a function. -/
def stacked : PhysicalPlan :=
  .node 0 (.function same [.column once] twice)
    [.node 0 (.function same [.column number] once) [scan]]

/-- The new column equals the column of the table. -/
def shadowed : PhysicalPlan := .node 0 (.function same [.literal 0 none] number) [scan]

def start : LoweringState := ⟨⟨engine.store, .empty, ⟨[some (.long 7)], []⟩, 0⟩, 0⟩

def limits : RunLimits := ⟨0, 0, true⟩

end Numbered

open Lowering Numbered in
theorem PhysicalPlan.stacked_function_read : ∃ stream st',
    lower limits stacked start = (.ok stream, st') ∧ ∃ first : TupleStream,
    ∀ history (i : Nat) w s left, (stream.replies history)[i]? = some (.row w s left) →
      ∃ u v rest, (first.replies history)[i]? = some (.row u s rest) ∧
        (s.bindings.resolveEach (some u) [.column once]).bind same.invoke = .ok v ∧
        w.get? twice = .ok (some v) ∧ w.get? once = u.get? once := by
  refine ⟨_, _, rfl, ?_⟩
  obtain ⟨input, -, -, first, hinputs, -, -, hread⟩ := @function_column_read limits start _ stacked
    (by decide) 0 same [.column once] twice _ (mem_subtrees_self stacked) (by decide) _ rfl
  cases hinputs
  refine ⟨first, fun history i w s left hrow => ?_⟩
  obtain ⟨u, v, rest, hu, hv, hout, hbelow⟩ := hread history i w s left hrow
  exact ⟨u, v, rest, hu, hv, hout (by decide), hbelow once (by decide)⟩

open Lowering Numbered in
/-- The function gives 7, but the number of the row is read. -/
theorem PhysicalPlan.function_column_shadowed : shadowed.validate = .ok () ∧
    ∃ first st' u w s rest left, lower limits shadowed start =
      (.ok (TupleStream.apply same [.literal 0 none] [number, number] first), st') ∧
    (first.replies [start.run])[0]? = some (.row u s rest) ∧
    ((TupleStream.apply same [.literal 0 none] [number, number] first).replies [start.run])[0]? =
      some (.row w s left) ∧
    (s.bindings.resolveEach (some u) [.literal 0 none]).bind same.invoke = .ok (.long 7) ∧
    w.get? number = .ok (some (.long 1)) :=
  ⟨by decide, _, _, _, _, _, _, _, rfl, rfl, rfl, rfl, rfl⟩

end QueryEngine
