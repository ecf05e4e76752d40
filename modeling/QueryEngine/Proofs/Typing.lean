import QueryEngine.Proofs.Honours
import QueryEngine.Proofs.ReadOnly

/-!
# Types of operators

A plan that only reads gives tuples that honour its columns, if its look-ups go to indexes of stored
columns, its counts are of type LONG, and its functions are given arguments of the types that they
are declared for. Each operator needs of its input only that the tuples honour the columns of the
input.
-/

set_option autoImplicit false

namespace QueryEngine

/-! ## Arguments -/

namespace Bindings

variable {b : Bindings} {v : Value}

theorem literal_eq_ok {slot : Nat} : b.literal slot = .ok v ↔ b.slots[slot]? = some (some v) := by
  unfold literal
  rcases b.slots[slot]? with _ | _ | w <;> simp

theorem columnValue_eq_ok {u : Tuple} {c : Column} (h : columnValue (some u) c = .ok v) :
    u.get? c = .ok (some v) := by
  obtain ⟨found, hfound, h⟩ := Except.bind_eq_ok.1 h
  rw [Crash.lifted_eq_ok, Option.mapM_some] at hfound
  obtain ⟨w, hw, rfl⟩ := Except.map_eq_ok.1 hfound
  cases w with
  | none => cases h
  | some w =>
    cases h
    exact hw

end Bindings

/-- Whether an argument has values of a type, with the given slots. -/
inductive Binding.HasType (slots : List (Option Value)) : Binding → ColumnType → Prop
  | literal {slot : Nat} {type : ColumnType}
      (h : ∀ v, slots[slot]? = some (some v) → type.accepts v = true) :
      HasType slots (.literal slot (some type)) type
  | column (c : Column) : HasType slots (.column c) c.type

theorem Binding.HasType.accepts {b : Bindings} {a : Binding} {type : ColumnType}
    (h : HasType b.slots a type) {cs : List Column} {u : Tuple} (hu : u.Honours cs) {v : Value}
    (hv : b.resolve (some u) a = .ok v) : type.accepts v = true := by
  cases h with
  | literal h =>
    rw [Bindings.resolve] at hv
    cases hslot : b.literal _ with
    | error e =>
      rw [hslot] at hv
      cases hv
    | ok w =>
      rw [hslot] at hv
      cases hv
      exact h _ (Bindings.literal_eq_ok.1 hslot)
  | column c =>
    rw [Bindings.resolve] at hv
    have haccepts := hu.accepts (Bindings.columnValue_eq_ok hv)
    rw [Column.accepts, Bool.and_eq_true] at haccepts
    exact haccepts.1

theorem Binding.accepts_resolveEach {b : Bindings} {cs : List Column} {u : Tuple} (hu : u.Honours cs)
    {arguments : List Binding} {types : List ColumnType}
    (h : List.Forall₂ (Binding.HasType b.slots) arguments types) :
    ∀ {vs}, b.resolveEach (some u) arguments = .ok vs →
      List.Forall₂ (fun type v => type.accepts v = true) types vs := by
  induction h with
  | nil =>
    intro vs hvs
    cases hvs
    exact .nil
  | cons ha _ ih =>
    intro vs hvs
    rw [Bindings.resolveEach_eq_ok] at hvs
    obtain ⟨v, rest, hv, hrest, rfl⟩ := List.forall₂_cons_left_iff.1 hvs
    exact .cons (ha.accepts hu hv) (ih (Bindings.resolveEach_eq_ok.2 hrest))

/-! ## Operators -/

namespace RunState.Over

variable {x : Store} {slots : List (Option Value)} {s : RunState}

theorem unread_table (h : s.Over x slots) (t : TableHandle) :
    (s.table t).unread = (x.table t.number).unread :=
  Store.table_of_unread h.1 t.number

theorem sound (h : s.Over x slots) (hsound : ∀ n, (x.table n).Sound) (t : TableHandle) :
    (s.table t).Sound := by
  have htable := (hsound t.number).unread
  rw [← h.unread_table t] at htable
  exact ⟨htable.ascending, htable.numbered, htable.bounded, htable.typed, htable.mirrored⟩

end RunState.Over

namespace Operator

/-- Whether an operator only reads, and what it is given fits the indexes of a store, the values of
the slots and the function that it applies. -/
def WellTyped (x : Store) (slots : List (Option Value)) : Operator → Prop
  | rowCount _ out => out.type = .long
  | indexScan i _ _ => ∃ y, x.index? i = some y ∧ y.column = i.column
  | function f arguments out => DistanceKind.IsMeasure f ∧
    List.Forall₂ (Binding.HasType slots) arguments f.signature.arguments ∧
      out = ⟨out.name, f.signature.returns, true⟩
  | op => op.writes = false

variable {x : Store} {slots : List (Option Value)} {op : Operator}

theorem WellTyped.reads (h : op.WellTyped x slots) : op.writes = false := by
  cases op with
  | insert t values => exact h
  | update t values => exact h
  | delete t => exact h
  | _ => rfl

/-- The column of an aggregate accepts whatever the aggregate can come to. -/
theorem honours_aggregate {p : Projection} (hp : p.isAggregate = true) {cs : List Column} {v : Value}
    (hv : p.Yields (Tuple.Honours cs) v) : Tuple.Honours p.columns ⟨syntheticRow, p.columns, [v]⟩ := by
  have hsingle {c : Column} (h : c.accepts v = true) : Tuple.Honours [c] ⟨syntheticRow, [c], [v]⟩ :=
    ⟨rfl, .cons h .nil⟩
  have hnull {c : Column} (hc : c.nullable = true) (h : c.type.accepts v = true) :
      Tuple.Honours [c] ⟨syntheticRow, [c], [v]⟩ := by
    apply hsingle
    rw [Column.accepts, h, hc]
    rfl
  have hbest (c : Column) (h : v = .null ∨ ∃ u, Tuple.Honours cs u ∧ u.get? c = .ok (some v)) :
      c.type.accepts v = true := by
    rcases h with rfl | ⟨u, hu, hv⟩
    · exact c.type.accepts_null
    · have haccepts := hu.accepts hv
      rw [Column.accepts, Bool.and_eq_true] at haccepts
      exact haccepts.1
  have hnumber (h : v = .null ∨ ∃ z, v = .double z) : ColumnType.double.accepts v = true := by
    rcases h with rfl | ⟨z, rfl⟩ <;> rfl
  cases p with
  | select cs => cases hp
  | count =>
    obtain ⟨n, rfl⟩ := hv
    exact hsingle rfl
  | nonempty =>
    obtain ⟨found, rfl⟩ := hv
    exact hsingle rfl
  | min c => exact hnull rfl (hbest c hv)
  | max c => exact hnull rfl (hbest c hv)
  | sum c => exact hnull rfl (hnumber hv)
  | mean c => exact hnull rfl (hnumber hv)

section Over

variable {B : Bond} {s : RunState} (hsound : ∀ n, (x.table n).Sound) (hs : s.Over x slots)
  (hB : ∀ {y y'}, B.state y y' → y.Over x slots ∧ y'.Over x slots)

include hsound hs hB in
theorem scanSuits (t : TableHandle) (cs : List Column) : Lowering.ScanSuits B Tuple.Honours s t cs := by
  intro places hplaces y y' hy row hrow
  apply (hs.sound hsound t).honours_row _ hplaces
  rw [Table.rows_of_unread ((hs.unread_table t).trans ((hB hy).1.unread_table t).symm)]
  exact hrow

theorem WellTyped.suits_rowCount {t : TableHandle} {out : Column}
    (h : (rowCount t out).WellTyped x slots) (input : List Column) :
    Lowering.Suits B Tuple.Honours s input (rowCount t out) := by
  intro n
  refine ⟨rfl, .cons ?_ .nil⟩
  have htype : out.type = .long := h
  rw [Column.accepts, htype]
  simp [ColumnType.accepts, Value.isNull]

include hsound hs in
theorem WellTyped.suits_indexScan {i : IndexHandle} {t : TableHandle} {p : Predicate}
    (h : (indexScan i t p).WellTyped x slots) (input : List Column) :
    Lowering.Suits B Tuple.Honours s input (indexScan i t p) := by
  intro us hus
  obtain ⟨y, hy, hcolumn⟩ := h
  have hindex : s.store.index i = y := by
    rw [Store.index_of_unread hs.1, Store.index, hy]
    rfl
  rw [hindex] at hus
  rw [← hcolumn]
  exact (hsound i.table).honours_filter (List.mem_of_getElem? hy) hus

include hB in
theorem WellTyped.suits_function {f : Function} {arguments : List Binding} {out : Column}
    (h : (function f arguments out).WellTyped x slots) (input : List Column) :
    Lowering.Suits B Tuple.Honours s input (function f arguments out) := by
  obtain ⟨hf, harguments, hout⟩ := h
  intro y y' hy u v hu hv
  obtain ⟨vs, hvs, hv⟩ := Except.bind_eq_ok.1 hv
  apply hu.extend
  rw [← (hB hy).2.2] at harguments
  have haccepts := hf.sound vs v (Binding.accepts_resolveEach hu harguments hvs) hv
  rw [hout, Column.accepts, haccepts]
  rfl

include hsound hB in
theorem suits_fetch (t : TableHandle) (cs input : List Column) :
    Lowering.Suits B Tuple.Honours s input (fetch t cs) := by
  constructor
  · intro u v hu hlacks hv
    have hnone := hu.mem_lacks hlacks
    apply hu.project _ hv
    intro c hc
    rw [Operator.columns, ← hnone, List.append_nil] at hc
    exact hc
  · intro y y' hy u v missing found table hu hlacks hread hv
    have hmissing := hu.mem_lacks hlacks
    have hfound := ((hB hy).1.sound hsound t).honours_read hread
    apply hu.complete hfound _ hv
    intro c hc
    rw [Operator.columns, ← hmissing] at hc
    exact List.mem_append.1 hc

theorem suits_projection {p : Projection} {input : List Column}
    (h : ∀ cs, p = .select cs → ∀ c ∈ cs, c ∈ input) :
    Lowering.Suits B Tuple.Honours s input (projection p) := by
  constructor
  · intro hp v hv
    exact honours_aggregate hp hv
  · intro hp u v hu hv
    cases p with
    | select cs => exact hu.project (h cs rfl) hv
    | _ => cases hp

include hsound hs hB in
/-- What a typed operator makes of tuples that honour their columns honours its own columns. -/
theorem WellTyped.suits (hop : op.WellTyped x slots) {inputs : List (List Column)}
    (hcheck : op.check inputs = .ok ()) :
    Lowering.Suits B Tuple.Honours s (inputs.headD []) op := by
  obtain ⟨harity, hrequired, -⟩ := Operator.check_eq_ok.1 hcheck
  have halign (u v : Tuple) (hu : u.Honours (inputs.headD []))
      (hv : TupleStream.align (inputs.headD []) u = .ok v) : v.Honours (inputs.headD []) :=
    hu.align hv
  cases op with
  | scan t cs i n => exact scanSuits hsound hs hB t cs
  | sample t cs p seed => exact scanSuits hsound hs hB t cs
  | rowCount t out => exact hop.suits_rowCount _
  | indexScan i t p => exact hop.suits_indexScan hsound hs _
  | function f arguments out => exact hop.suits_function hB _
  | fetch t cs => exact suits_fetch hsound hB t cs _
  | projection p =>
    apply suits_projection
    rintro cs rfl
    obtain ⟨input, rfl⟩ : ∃ input, inputs = [input] := by
      rw [← List.length_eq_one_iff]
      exact eq_of_beq harity
    exact Operator.checkRequired_eq_ok.1 hrequired input rfl
  | externalSort order chunk => exact fun u hu => hu.relabel
  | merge => exact halign
  | union distinct => exact halign
  | intersect => exact halign
  | _ => trivial

end Over

end Operator

/-! ## Streams -/

mutual

/-- Whether a stream that is pulled in states with the property `I` gives tuples with the property `P`
only, and leaves such states. -/
def TupleStream.Supplies (I : RunState → Prop) (P : Tuple → Prop) : TupleStream → Prop
  | .ended => True
  | .of pull => ∀ s, I s → Reply.Supplies I P (pull s)

def Reply.Supplies (I : RunState → Prop) (P : Tuple → Prop) : Reply → Prop
  | .row u s rest => P u ∧ I s ∧ TupleStream.Supplies I P rest
  | .finished s _ => I s
  | .failed _ s => I s
  | .crashed _ s _ => I s

end

namespace TupleStream

variable {I : RunState → Prop} {P : Tuple → Prop}

theorem supplies_iff {t : TupleStream} :
    t.Supplies I P ↔ ∀ s, I s → (t.pull s).Supplies I P := by
  cases t with
  | ended => exact iff_of_true trivial fun s hs => hs
  | of pull => exact Iff.rfl

/-- The tuples of a run are those that the stream supplies. -/
theorem Supplies.run (hI : RunState.Lasting I) (t : TupleStream) :
    t.Supplies I P → ∀ {s}, I s → ∀ u ∈ (t.run s).rows, P u := by
  induction t using TupleStream.induct with
  | step t ih =>
    intro h s hs
    have hpull := supplies_iff.1 h s hs
    have rests := ih s
    rw [run_eq]
    generalize t.pull s = r at hpull rests
    cases r with
    | row u s₁ rest =>
      obtain ⟨hu, hs₁, hrest⟩ := hpull
      intro v hv
      rcases List.mem_cons.1 hv with rfl | hv
      · exact hu
      · exact rests _ _ _ rfl hrest (hI.recount hs₁ (.count s₁ _)) v hv
    | finished s₁ rest => exact List.forall_mem_nil _
    | failed e s₁ => exact List.forall_mem_nil _
    | crashed c s₁ rest => exact List.forall_mem_nil _

/-- A stream that runs on workers supplies what it supplies without them. -/
theorem Sim.supplies (hI : RunState.Lasting I) (t : TupleStream) : ∀ {t'},
    t.Sim (Lowering.equal false) (fun _ => True) t' →
      t'.Sim ((Lowering.equal false).within I) P t' → t.Supplies I P := by
  induction t using TupleStream.induct with
  | step t ih =>
    intro t' h h'
    apply supplies_iff.2
    intro s hs
    -- The first comparison says that the answers are alike, the second what they are.
    have ha := h.answer (B := Lowering.equal false) (.refl s)
    have ha' := h'.answer (B := (Lowering.equal false).within I) ⟨.refl s, hs, hs⟩
    have rests := ih s
    generalize t.pull s = r at ha rests
    generalize t'.pull s = r' at ha ha'
    have hback {s₁ s₁' : RunState} (h : (Lowering.equal false).state s₁ s₁') (hs : I s₁') : I s₁ :=
      hI.recount hs (RunState.Recounted.symm h)
    cases ha with
    | row _ hs₁ ht =>
      cases ha' with
      | row hu hs₂ ht' => exact ⟨hu, hback hs₁ hs₂.2.1, rests _ _ _ rfl ht ht'⟩
    | finished hs₁ =>
      cases ha' with
      | finished hs₂ => exact hback hs₁ hs₂.2.1
    | failed hs₁ =>
      cases ha' with
      | failed hs₂ => exact hback hs₁ hs₂.2.1
      | excused he => exact absurd he.1 Bool.false_ne_true
    | crashed hs₁ =>
      cases ha' with
      | crashed hs₂ => exact hback hs₁ hs₂.2.1
    | lost _ hs₁ =>
      cases ha' with
      | crashed hs₂ => exact hback hs₁ hs₂.2.1
    | excused he => exact absurd he.1 Bool.false_ne_true

end TupleStream

/-! ## Plans -/

namespace PhysicalPlan

variable {x : Store} {slots : List (Option Value)} {t : PhysicalPlan}

/-- Whether the operators of a valid plan are typed over the reachable tables of a store. -/
structure WellTyped (x : Store) (slots : List (Option Value)) (t : PhysicalPlan) : Prop where
  valid : t.validate = .ok ()
  operators : t.Every (Operator.WellTyped x slots)
  sound : ∀ n, (x.table n).Sound

namespace WellTyped

theorem subtree (h : t.WellTyped x slots) {u : PhysicalPlan} (hu : u ∈ t.subtrees) :
    u.WellTyped x slots :=
  ⟨validate_subtrees h.valid u hu, fun v hv => h.operators v (subtrees_subset hu v hv), h.sound⟩

theorem readsOnly (h : t.WellTyped x slots) : t.ReadsOnly :=
  fun u hu => (h.operators u hu).reads

theorem keepsTuples (h : t.WellTyped x slots) {s : RunState} (hs : s.Over x slots) :
    KeepsTuples ((Lowering.equal false).within (RunState.Over x slots)) Tuple.Honours s t := by
  obtain ⟨group, op, inputs⟩ := t
  obtain ⟨hcheck, -⟩ := validate_node.1 h.valid
  have hwithin {y y' : RunState}
      (hy : ((Lowering.equal false).within (RunState.Over x slots)).state y y') :
      y.Over x slots ∧ y'.Over x slots := hy.2
  refine ⟨(every_node.1 h.operators).1.suits h.sound hs hwithin hcheck, ?_⟩
  intro hop c hc u hu
  exact columns_of_check hcheck hop hc ▸ hu

/-- Whatever stream is set up for a typed plan, its tuples honour the columns of the plan. -/
theorem supplies (h : t.WellTyped x slots) (limits : RunLimits) {st st' : LoweringState}
    (hs : st.run.Over x slots) {u : TupleStream} (hu : Lowering.lower limits t st = (.ok u, st')) :
    u.Supplies (RunState.Over x slots) (Tuple.Honours t.columns) ∧ st.run.Recounted st'.run := by
  have hset := Lowering.lower_setUp limits false t st
  rw [hu] at hset
  generalize hv : t.inline (limits.canSpill || false) st.run = found at hset
  cases hset with
  | ok hsim hcounted =>
    have hB := (Lowering.equal_faithful false).within (RunState.lasting_over x slots)
    have hself := h.readsOnly.inline_sim hB ⟨.refl _, hs, hs⟩ t
      (fun w hw => (h.subtree hw).keepsTuples hs) hv
    exact ⟨hsim.supplies (RunState.lasting_over x slots) u hself, hcounted⟩

theorem execute (h : t.WellTyped x slots) {limits : RunLimits} {q : QueryContext} {e : EngineState}
    (hs : (q.runState e).Over x slots) {r : Run} (hr : t.execute limits q e = pure r) :
    ∀ u ∈ r.rows, u.Honours t.columns := by
  have hI := RunState.lasting_over x slots
  obtain ⟨v, hv, hlike⟩ := execute_eq_pure limits false t hr
  have hself := h.readsOnly.inline_sim ((Lowering.equal_faithful false).within hI)
    ⟨.refl _, hs, hs⟩ t (fun w hw => (h.subtree hw).keepsTuples hs) hv
  have hequal := h.readsOnly.sim (Lowering.equal_faithful false) (.refl _) t hv
  have hrows := (hequal.supplies hI v hself).run hI v hs
  cases hlike with
  | alike hsame _ _ _ =>
    rw [hsame]
    exact hrows
  | excused _ _ hearlier => exact fun u hu => hrows u (hearlier.subset hu)

end WellTyped

end PhysicalPlan

end QueryEngine
