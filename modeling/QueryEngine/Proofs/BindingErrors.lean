import QueryEngine.Function.Distance
import QueryEngine.Proofs.Conduct

/-!
# Binding errors

Before a plan is started every slot that it reads is found to have a value, and a valid plan reads
no columns but those of its inputs. No pull can therefore report a slot without a value. Only an
insert can miss a column: its values are resolved without a tuple, and are not checked.
-/

set_option autoImplicit false

namespace QueryEngine

/-! ## Histories of pulls -/

namespace ResultStream

/-- What the world has become when a result is pulled. -/
structure Moment where
  query : QueryContext
  engine : EngineState
  /-- Whether the run has been cancelled since the last pull. -/
  stopped : Bool

/-- The answers to pulls. Between them the context of the query and the engine may change at will,
and the run may be cancelled. -/
def answers (r : ResultStream) : List Moment → List Pulled
  | [] => []
  | m :: rest =>
    let asked := (if m.stopped then r.cancel else r).next m.query.cancelled m.engine
    asked.1 :: asked.2.1.answers rest

/-- A result whose stream meets a contract, with bindings that a run has come to from a state. -/
structure Meets (C : Contract) (P : Tuple → Prop) (s : RunState) (r : ResultStream) : Prop where
  source : ∀ t, r.source = some t → t.Meets C P
  reached : ∀ s' : RunState, s'.bindings = r.bindings → C.leads s s'

variable {C : Contract} {P : Tuple → Prop} {s : RunState} {r : ResultStream}

namespace Meets

theorem cancel (h : r.Meets C P s) : r.cancel.Meets C P s := ⟨h.source, h.reached⟩

theorem proceed (h : r.Meets C P s) {s' s'' : RunState} (hs' : s'.bindings = r.bindings)
    (hs'' : C.leads s' s'') {rest : Option TupleStream} (hrest : ∀ t, rest = some t → t.Meets C P) :
    (r.proceed rest s'').Meets C P s := by
  refine ⟨hrest, fun s₁ hs₁ => ?_⟩
  have hto : C.leads s s'' := C.trans (h.reached s' hs') hs''
  exact C.trans hto (C.of_bindings hs₁)

/-- A pull fails only as the contract allows, and leaves a result that meets it. -/
theorem next (h : r.Meets C P s) (hlasting : C.lasting) (cancelled : Bool) (e : EngineState) :
    (∀ f, (r.next cancelled e).1 = .failed (.error f) → C.allows s f) ∧
      (r.next cancelled e).2.1.Meets C P s := by
  have hstopped : ∀ t, (none : Option TupleStream) = some t → t.Meets C P := fun t ht => nomatch ht
  unfold ResultStream.next
  cases hsource : r.source with
  | none => exact ⟨(fun f hf => nomatch hf), h⟩
  | some t =>
    by_cases hstop : (r.cancelled || cancelled) = true
    · simp only [hstop, if_true]
      refine ⟨fun f hf => ?_, hstopped, h.reached⟩
      cases hf
      exact C.others fun _ he => nomatch he
    · simp only [hstop]
      have hpull := (h.source t hsource).pull ⟨e.store, e.profile, r.bindings, r.affected⟩
      generalize t.pull ⟨e.store, e.profile, r.bindings, r.affected⟩ = reply at hpull
      cases reply with
      | row u s' rest =>
        exact ⟨(fun f hf => nomatch hf),
          h.proceed rfl hpull.2.1 fun t ht => Option.some.inj ht ▸ hpull.2.2⟩
      | finished s' rest => exact ⟨(fun f hf => nomatch hf), h.proceed rfl hpull.1 hstopped⟩
      | failed f s' =>
        refine ⟨fun g hg => ?_, h.proceed rfl hpull.2 hstopped⟩
        cases hg
        exact C.earlier (h.reached _ rfl) hpull.1
      | crashed c s' rest =>
        exact ⟨(fun f hf => nomatch hf),
          h.proceed rfl hpull.1 fun t ht => Option.some.inj ht ▸ hpull.2 hlasting⟩

theorem answers (hlasting : C.lasting) (moments : List Moment) :
    ∀ {r : ResultStream}, r.Meets C P s →
      ∀ f, .failed (.error f) ∈ r.answers moments → C.allows s f := by
  induction moments with
  | nil => exact fun _ f hf => nomatch hf
  | cons m rest ih =>
    intro r h f hf
    have hasked : (if m.stopped then r.cancel else r).Meets C P s := by
      split
      · exact h.cancel
      · exact h
    obtain ⟨hfirst, hnext⟩ := hasked.next hlasting m.query.cancelled m.engine
    rcases List.mem_cons.1 hf with hf | hf
    · exact hfirst f hf.symm
    · exact ih hnext f hf

end Meets

/-- What starting a plan consists of. -/
theorem start_eq_ok {limits : RunLimits} {t : PhysicalPlan} {q : QueryContext}
    {e e' : EngineState} (h : start limits t q e = (pure r, e')) :
    t.bind q.bindings = .ok () ∧
      ∃ source st, Lowering.lower limits t ⟨⟨e.store, e.profile, q.bindings, 0⟩, 0⟩ =
        (.ok source, st) ∧ r = ⟨t.columns, some source, false, q.bindings, 0⟩ := by
  unfold start at h
  cases hbind : t.bind q.bindings with
  | error cause =>
    rw [hbind] at h
    cases h
  | ok x =>
    simp only [hbind] at h
    split at h
    · cases h
    · split at h
      · rename_i source st hlower
        cases h
        exact ⟨rfl, source, st, hlower, rfl⟩
      · cases h
      · cases h

/-- A plan of nodes that fit a contract is started with a result that meets it. -/
theorem start_meets {L : List Column → Tuple → Prop} (hL : Layout L) {limits : RunLimits}
    {t : PhysicalPlan} {q : QueryContext} {e e' : EngineState}
    (hfits : ∀ g op inputs, .node g op inputs ∈ t.subtrees → Lowering.Fits C L e.store op inputs)
    (h : start limits t q e = (pure r, e')) :
    r.Meets C (L t.columns) ⟨e.store, e.profile, q.bindings, 0⟩ := by
  obtain ⟨-, source, st, hlower, rfl⟩ := start_eq_ok h
  have hmeets := (Lowering.lower_meets (s := ⟨e.store, e.profile, q.bindings, 0⟩) hL t hfits
    (.refl _) hlower).1
  exact ⟨fun u hu => Option.some.inj hu ▸ hmeets, fun s' hs' => C.of_bindings hs'⟩

end ResultStream

/-! ## Functions -/

/-- The vector distances take values. -/
theorem DistanceKind.function_takesValues (kind : DistanceKind) (type returns : ColumnType) :
    (kind.function type returns).TakesValues := by
  intro vs cause h
  have hchecked {α : Type} [RootScalar α] {xs ys : List α} {f : α → Value} :
      (kind.checked false xs ys).map f ≠ .error (.error (.binding cause)) := by
    unfold DistanceKind.checked
    split
    · exact fun he => nomatch he
    · exact fun he => nomatch he
  change kind.invoke returns false vs = _ at h
  unfold DistanceKind.invoke at h
  split at h
  · split at h
    · cases h
    · cases h
    · exact hchecked h
    · exact hchecked h
    · cases h
    · cases h
    · cases h
  · cases h

namespace PhysicalPlan

/-- The functions that a plan applies when it is pulled. -/
def functions (t : PhysicalPlan) : List Function :=
  t.subtrees.flatMap fun u => u.op.evaluated.flatMap Binding.functions

theorem mem_functions {t : PhysicalPlan} {g : GroupId} {op : Operator} {inputs : List PhysicalPlan}
    (hnode : .node g op inputs ∈ t.subtrees) {a : Binding} (ha : a ∈ op.evaluated) {f : Function}
    (hf : f ∈ a.functions) : f ∈ t.functions :=
  List.mem_flatMap.2 ⟨_, hnode, List.mem_flatMap.2 ⟨a, ha, hf⟩⟩

end PhysicalPlan

/-! ## Slots -/

/-- The contract to report no slot without a value as long as the slots are what they were. -/
def Contract.binding (slots : List (Option Value)) : Contract where
  leads s s' := s'.bindings.slots = s.bindings.slots
  allows s e := s.bindings.slots = slots → ∀ cause, e = .binding cause → cause.isUnbound = false
  lasting := True
  trans h h' := h'.trans h
  of_bindings h := congrArg Bindings.slots h
  earlier h he hs := he (h.trans hs)
  others he _ cause h := absurd h (he cause)

theorem Operator.check_evaluated {op : Operator} {b : Bindings}
    (h : b.checkAll op.bindings = .ok ()) {a : Binding} (ha : a ∈ op.evaluated) : b.check a = .ok () := by
  cases op with
  | indexScan x t p => cases ha
  | function f arguments out =>
    rw [List.mem_singleton.1 ha, Bindings.check]
    exact h
  | _ => exact Bindings.checkAll_eq_ok.1 h a ha

namespace ResultStream

variable {limits : RunLimits} {t : PhysicalPlan} {q : QueryContext} {e e' : EngineState}
  {r : ResultStream}

/-- What a plan evaluates meets the contract on slots, once the plan has been bound. -/
theorem covers_bound (hfunctions : ∀ f ∈ t.functions, f.TakesValues) {b : Bindings}
    (hbind : t.bind b = .ok ()) {g : GroupId} {op : Operator} {inputs : List PhysicalPlan}
    (hnode : .node g op inputs ∈ t.subtrees) (P : Tuple → Prop) :
    (Contract.binding b.slots).Covers P op := by
  intro a ha s u f _ hrefused
  have hchecked := (PhysicalPlan.bind_node.1 (PhysicalPlan.bind_subtrees hbind _ hnode)).1
  cases f with
  | crashed c => trivial
  | error e =>
    -- The slots were checked in the query's bindings and are the same in the run's.
    intro hslots cause hcause
    refine hrefused.bound ?_ (fun f hf => hfunctions f (PhysicalPlan.mem_functions hnode ha hf)) ?_
    · rw [Bindings.check_congr hslots]
      exact Operator.check_evaluated hchecked ha
    · rw [hcause]

/-- Once a plan has been started, no pull ever reports a slot without a value. -/
theorem pulls_never_unbound (hfunctions : ∀ f ∈ t.functions, f.TakesValues)
    (h : start limits t q e = (pure r, e')) (moments : List Moment) (slot : Nat) :
    .failed (.error (.binding (.unboundParameter slot))) ∉ r.answers moments ∧
      .failed (.error (.binding (.unknownLiteral slot))) ∉ r.answers moments := by
  obtain ⟨hbind, -⟩ := start_eq_ok h
  have hfits (g : GroupId) (op : Operator) (inputs : List PhysicalPlan)
      (hnode : .node g op inputs ∈ t.subtrees) :
      Lowering.Fits (.binding q.bindings.slots) Lowering.anyTuple e.store op inputs :=
    ⟨fun _ _ _ _ _ => trivial, covers_bound hfunctions hbind hnode _, fun _ _ _ _ => rfl,
      fun _ _ _ _ _ _ => trivial⟩
  have hmeets := start_meets Lowering.anyTuple_layout hfits h
  have hbound {cause : BindingError} (hcause : cause.isUnbound = true) :
      .failed (.error (.binding cause)) ∉ r.answers moments := by
    intro hmem
    have hnot := hmeets.answers trivial moments _ hmem rfl cause rfl
    exact Bool.false_ne_true (hnot.symm.trans hcause)
  exact ⟨hbound rfl, hbound rfl⟩

end ResultStream

namespace NearVectors

def place : Column := ⟨"t.v", .floatVector 1, false⟩

def number : Column := ⟨"t.x", .long, false⟩

def engine : EngineState :=
  ⟨⟨[⟨"t", [place, number], [(0, [.floatVector [.zero], .long 1])], 1, [], 0⟩]⟩, .empty⟩

def distance : Function := DistanceKind.manhattan.function (.floatVector 1) .float

def far : Binding := .call distance [.column place, .literal 0 none]

/-- The distance to a given vector is bounded, and the number is one of two. -/
def predicate : Predicate :=
  .both (.atom (.relation .less far (.literal 1 none)) false)
    (.atom (.oneOf (.column number) [.literal 2 none, .literal 3 none]) false)

def scan : PhysicalPlan := .node 0 (.scan (engine.store.handle 0) [place, number] 0 1) []

def near : PhysicalPlan := .node 0 (.filter predicate) [scan]

def values : List Value := [.floatVector [.zero], .float .zero, .long 1, .long 2]

def query : QueryContext :=
  { QueryContext.new .standard with bindings := ⟨values.map some, []⟩ }

def limits : RunLimits := ⟨0, 0, true⟩

theorem started : ∃ r e', ResultStream.start limits near query engine = (pure r, e') :=
  ⟨_, _, rfl⟩

theorem functions_takeValues : ∀ f ∈ near.functions, f.TakesValues := by
  have hfunctions : near.functions = [distance] := rfl
  intro f hf
  rw [hfunctions] at hf
  rw [List.mem_singleton.1 hf]
  exact DistanceKind.function_takesValues _ _ _

end NearVectors

open NearVectors in
theorem ResultStream.near_never_unbound : ∃ r e', start limits near query engine = (pure r, e') ∧
    ∀ moments slot, .failed (.error (.binding (.unboundParameter slot))) ∉ r.answers moments ∧
      .failed (.error (.binding (.unknownLiteral slot))) ∉ r.answers moments := by
  obtain ⟨r, e', h⟩ := started
  exact ⟨r, e', h, pulls_never_unbound functions_takeValues h⟩

/-! ## Columns -/

/-- The contract to miss only columns of some names. -/
def Contract.missing (names : String → Prop) : Contract where
  leads _ _ := True
  allows _ e := ∀ name, e = .binding (.missingColumn name) → names name
  lasting := True
  trans _ _ := trivial
  of_bindings _ := trivial
  earlier _ he := he
  others he _ h := absurd h (he _)

/-- A valid operator that is no insert reads only columns of its input. -/
theorem Operator.reads_input {op : Operator} {inputs : List (List Column)}
    (hcheck : op.check inputs = .ok ()) (hop : ∀ h values, op ≠ .insert h values) {a : Binding}
    (ha : a ∈ op.evaluated) {c : Column} (hc : c ∈ a.columns) : c ∈ inputs.headD [] := by
  obtain ⟨harity, hrequired, -⟩ := Operator.check_eq_ok.1 hcheck
  have hread (hmem : c ∈ op.requires) (hinput : op.arity.admits 0 = false) :
      c ∈ inputs.headD [] := by
    cases inputs with
    | nil => exact absurd (hinput.symm.trans harity) Bool.false_ne_true
    | cons input rest => exact Operator.checkRequired_eq_ok.1 hrequired input rfl c hmem
  cases op with
  | insert h values => exact absurd rfl (hop h values)
  | filter p => exact hread (Predicate.mem_columns.2 ⟨a, ha, hc⟩) rfl
  | subselect p => exact hread (Predicate.mem_columns.2 ⟨a, ha, hc⟩) rfl
  | function f arguments out =>
    rw [List.mem_singleton.1 ha, Binding.columns, Binding.columnsOfAll_eq] at hc
    exact hread hc rfl
  | update t values =>
    obtain ⟨v, hv, rfl⟩ := List.mem_map.1 ha
    exact hread (List.mem_flatMap.2 ⟨v, hv, hc⟩) rfl
  | _ => cases ha

namespace PhysicalPlan

/-- Whether a plan has an insert with a value that reads a column of this name. -/
def InsertReads (t : PhysicalPlan) (name : String) : Prop :=
  ∃ g h values inputs, .node g (.insert h values) inputs ∈ t.subtrees ∧
    ∃ v ∈ values, ∃ c ∈ v.2.columns, c.name = name

theorem covers_reading {t : PhysicalPlan} (hvalid : t.validate = .ok ())
    (hfunctions : ∀ f ∈ t.functions, f.TakesValues) {g : GroupId} {op : Operator}
    {inputs : List PhysicalPlan} (hnode : .node g op inputs ∈ t.subtrees) :
    (Contract.missing t.InsertReads).Covers (Tuple.Laid ((inputs.map columns).headD [])) op := by
  intro a ha s u f hsees hrefused
  cases f with
  | crashed c => trivial
  | error e =>
    rintro name rfl
    obtain ⟨c, hc, hname, hlacks⟩ :=
      hrefused.missing (fun f hf => hfunctions f (mem_functions hnode ha hf)) rfl
    -- Only an insert evaluates without a tuple; all others evaluate on tuples of a checked layout.
    by_cases hop : ∃ h values, op = .insert h values
    · obtain ⟨h, values, rfl⟩ := hop
      obtain ⟨v, hv, rfl⟩ := List.mem_map.1 ha
      exact ⟨g, h, values, inputs, hnode, v, hv, c, hc, hname⟩
    · have hno : ∀ h values, op ≠ .insert h values := fun h values he => hop ⟨h, values, he⟩
      have hcheck := (validate_node.1 (validate_subtrees hvalid _ hnode)).1
      have hinput := Operator.reads_input hcheck hno ha hc
      obtain ⟨v, rfl, hv⟩ := hsees.tuple hno
      exact absurd (hv.1 ▸ hinput) (Tuple.get?_eq_none.1 (hlacks v rfl))

end PhysicalPlan

/-- An insert with a value that reads a column is refused, whatever the state. -/
theorem TupleStream.insert_refused {h : TableHandle} {values : Assignments}
    {a : Column × Binding} (ha : a ∈ values) (hreads : a.2.columns ≠ []) (s : RunState) :
    ∃ f, (TupleStream.insert h values).pull s = .ofFailure f s .ended := by
  cases hv : resolveValues values none s with
  | error f =>
    refine ⟨f, ?_⟩
    simp [TupleStream.insert, TupleStream.deferred, pull_of, hv]
  | ok vs =>
    have hnone := Bindings.columns_of_resolveEach hv
    rw [Binding.columnsOfAll_eq, List.flatMap_eq_nil_iff] at hnone
    exact absurd (hnone a.2 (List.mem_map_of_mem ha)) hreads

namespace ResultStream

variable {limits : RunLimits} {t : PhysicalPlan} {q : QueryContext} {e e' : EngineState}
  {r : ResultStream}

/-- Pulls on a valid plan miss no columns but those that the values of its inserts read, and such
inserts are always refused. -/
theorem pulls_miss_inserted_columns (hvalid : t.validate = .ok ()) (hindexes : t.IndexesFit e.store)
    (hfunctions : ∀ f ∈ t.functions, f.TakesValues) (h : start limits t q e = (pure r, e')) :
    (∀ moments name, .failed (.error (.binding (.missingColumn name))) ∈ r.answers moments →
      t.InsertReads name) ∧
    ∀ g table values inputs, .node g (.insert table values) inputs ∈ t.subtrees →
      (∃ a ∈ values, a.2.columns ≠ []) →
      ∀ s, ∃ f, (TupleStream.insert table values).pull s = .ofFailure f s .ended := by
  constructor
  · intro moments name hmem
    have hfits (g : GroupId) (op : Operator) (inputs : List PhysicalPlan)
        (hnode : .node g op inputs ∈ t.subtrees) :
        Lowering.Fits (.missing t.InsertReads) Tuple.Laid e.store op inputs := by
      refine Lowering.fits_of_valid hvalid hindexes hnode ?_ fun _ _ _ _ => trivial
      exact PhysicalPlan.covers_reading hvalid hfunctions hnode
    have hmeets := start_meets Tuple.laid_layout hfits h
    exact hmeets.answers trivial moments _ hmem name rfl
  · rintro g table values inputs - ⟨a, ha, hreads⟩ s
    exact TupleStream.insert_refused ha hreads s

end ResultStream

open NearVectors in
theorem ResultStream.near_misses_nothing : near.validate = .ok () ∧
    ∃ r e', start limits near query engine = (pure r, e') ∧
      ∀ moments name, .failed (.error (.binding (.missingColumn name))) ∉ r.answers moments := by
  have hsubtrees : near.subtrees = [near, scan] := rfl
  have hvalid : near.validate = .ok () := by decide
  have hindexes : near.IndexesFit engine.store := by decide
  obtain ⟨r, e', h⟩ := started
  refine ⟨hvalid, r, e', h, fun moments name hmem => ?_⟩
  obtain ⟨g, table, values, inputs, hnode, -⟩ :=
    (pulls_miss_inserted_columns hvalid hindexes functions_takeValues h).1 moments name hmem
  rw [hsubtrees] at hnode
  simp only [List.mem_cons, List.not_mem_nil, or_false] at hnode
  rcases hnode with he | he <;> cases he

namespace SelfInsert

def number : Column := ⟨"t.x", .long, false⟩

def engine : EngineState := ⟨⟨[⟨"t", [number], [], 0, [], 0⟩]⟩, .empty⟩

/-- A row is to get a number from the row itself. -/
def plan : PhysicalPlan := .node 0 (.insert (engine.store.handle 0) [(number, .column number)]) []

end SelfInsert

open SelfInsert NearVectors in
/-- The column is missed by the pull, not by the check of the plan. -/
theorem ResultStream.insert_misses_column : plan.validate = .ok () ∧
    ∃ r e', start limits plan query SelfInsert.engine = (pure r, e') ∧
      r.answers [⟨query, SelfInsert.engine, false⟩] =
        [.failed (.error (.binding (.missingColumn "t.x")))] :=
  ⟨by decide, _, _, rfl, rfl⟩

end QueryEngine
