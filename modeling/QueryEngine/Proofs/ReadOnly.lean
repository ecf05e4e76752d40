import QueryEngine.Proofs.Estimates
import QueryEngine.Proofs.Sorting

/-!
# Plans that only read

Reading counts, binds the results of sub-queries and changes nothing else. The stream of a plan that
only reads is like itself in whatever way states are compared, and its tuples have every property
that the operators of the plan keep.
-/

set_option autoImplicit false

namespace QueryEngine

/-! ## What reading keeps -/

/-- A property of states that reading keeps. -/
structure RunState.Lasting (I : RunState → Prop) : Prop where
  recount : ∀ {s s'}, I s → s.Recounted s' → I s'
  rebind : ∀ {s} {b : Bindings}, b.slots = s.bindings.slots → I s → I { s with bindings := b }
  read : ∀ {s} {h : TableHandle} {t : Table}, t.unread = (s.table h).unread → I s →
    I (s.setTable h t)

/-- States are only compared where both of them have a property. -/
def Bond.within (B : Bond) (I : RunState → Prop) : Bond :=
  { B with state := fun s s' => B.state s s' ∧ I s ∧ I s' }

theorem Cursor.unread_next? {c d : Cursor} {t t' : Table} {u : Tuple}
    (h : c.next? t = some (u, d, t')) : t'.unread = t.unread := by
  obtain ⟨row, _, he⟩ := Option.map_eq_some_iff.1 h
  cases he
  rfl

theorem Bond.FaithfulTo.within {B : Bond} {sees : Groups} {I : RunState → Prop}
    (hB : B.FaithfulTo sees) (hI : RunState.Lasting I) : (B.within I).FaithfulTo sees where
  bindings h := hB.bindings h.1
  recount h h₁ h₁' := ⟨hB.recount h.1 h₁ h₁', hI.recount h.2.1 h₁, hI.recount h.2.2 h₁'⟩
  openSubquery g h := ⟨hB.openSubquery g h.1, hI.rebind rfl h.2.1, hI.rebind rfl h.2.2⟩
  append g v h := ⟨hB.append g v h.1, hI.rebind rfl h.2.1, hI.rebind rfl h.2.2⟩
  countRows t h := hB.countRows t h.1
  index i h := hB.index i h.1
  scan t cs i n h := hB.scan t cs i n h.1
  read t id cs h := by
    rcases hB.read t id cs h.1 with hfails | ⟨found, x, x', hr, hr', hs⟩
    · exact .inl hfails
    · exact .inr ⟨found, x, x', hr, hr', hs, hI.read (Table.unread_read hr) h.2.1,
        hI.read (Table.unread_read hr') h.2.2⟩
  next t c h := by
    rcases hB.next t c h.1 with hends | ⟨u, d, x, x', hn, hn', hs⟩
    · exact .inl hends
    · exact .inr ⟨u, d, x, x', hn, hn', hs, hI.read (Cursor.unread_next? hn) h.2.1,
        hI.read (Cursor.unread_next? hn') h.2.2⟩

/-- Whether the tables are those of a store, up to counted reads, and the slots have these values. -/
def RunState.Over (x : Store) (slots : List (Option Value)) (s : RunState) : Prop :=
  s.store.unread = x.unread ∧ s.bindings.slots = slots

theorem RunState.lasting_over (x : Store) (slots : List (Option Value)) :
    RunState.Lasting (RunState.Over x slots) where
  recount h h₁ := by
    obtain ⟨p, rfl⟩ := h₁
    exact h
  rebind hslots h := ⟨h.1, hslots.trans h.2⟩
  read ht h := ⟨(Store.unread_setTable ht).trans h.1, h.2⟩

/-- The same whatever the slots hold. -/
def RunState.Unwritten (x : Store) (s : RunState) : Prop := s.store.unread = x.unread

theorem RunState.lasting_unwritten (x : Store) : RunState.Lasting (RunState.Unwritten x) where
  recount h h₁ := by
    obtain ⟨p, rfl⟩ := h₁
    exact h
  rebind _ h := h
  read ht h := (Store.unread_setTable ht).trans h

theorem RunState.lasting_affected (m : Nat) : RunState.Lasting fun s => s.affected = m where
  recount h h₁ := by
    obtain ⟨p, rfl⟩ := h₁
    exact h
  rebind _ h := h
  read _ h := h

namespace PhysicalPlan

/-! ## Reading plans -/

/-- Whether no operator of a plan writes. -/
def ReadsOnly (t : PhysicalPlan) : Prop := t.Every fun op => op.writes = false

/-- Whether the root of a plan keeps a property of tuples by the columns of their streams. All
inputs but sub-queries have to be laid out alike. -/
structure KeepsTuples (B : Bond) (L : List Column → Tuple → Prop) (s : RunState) (t : PhysicalPlan) :
    Prop where
  operator : Lowering.Suits B L s ((t.inputs.map columns).headD []) t.op
  inputs : (∀ p, t.op ≠ .subselect p) → ∀ c ∈ t.inputs, ∀ u, L (columns c) u →
    L ((t.inputs.map columns).headD []) u

theorem keepsTuples_any (B : Bond) (s : RunState) (t : PhysicalPlan) : KeepsTuples B Lowering.anyTuple s t :=
  ⟨Lowering.suits_of_layout Lowering.anyTuple_layout (fun _ _ _ _ _ _ => trivial) _,
    fun _ _ _ _ _ => trivial⟩

/-- The tuples of a plan have every property that its operators keep. A plan may write where related
states have the same tables. -/
theorem inline_sim {B : Bond} (hB : B.Faithful) {L : List Column → Tuple → Prop}
    {s : RunState} (hs : B.state s s) {canSpill : Bool} (t : PhysicalPlan)
    (ht : t.Every fun op => op.writes = true → B.Exact)
    (hkeeps : ∀ u ∈ t.subtrees, KeepsTuples B L s u) :
    ∀ {v}, t.inline canSpill s = .ok v → v.Sim B (L t.columns) v := by
  induction t using PlanTree.induct with
  | node group op inputs ih =>
    intro v hv
    obtain ⟨hop, hinputs⟩ := every_node.1 ht
    have hroot := hkeeps _ (mem_subtrees_self _)
    rw [inline_node] at hv
    obtain ⟨vs, hvs, hv⟩ := Except.bind_eq_ok.1 hv
    have hbelow : List.Forall₂ (fun c u => u.Sim B (L (columns c)) u) inputs vs := by
      refine (forall₂_mem (Except.mapM_eq_ok.1 hvs)).imp fun c u hu => ?_
      apply ih c hu.1 (hinputs c hu.1) _ hu.2
      intro w hw
      exact hkeeps w (mem_subtrees_of_mem hu.1 hw)
    have hin : Lowering.Inputs B L ((inputs.map columns).headD []) op vs vs := by
      -- Sub-queries have columns of their own, so that only the first input is known to keep `L`.
      by_cases hsub : ∃ p, op = .subselect p
      · obtain ⟨p, rfl⟩ := hsub
        cases hbelow with
        | nil => exact .inl ⟨rfl, rfl⟩
        | @cons c u rest us hu hrest =>
          have hany : List.Forall₂ (TupleStream.Sim B fun _ => True) us us := by
            refine List.forall₂_same.2 fun w hw => ?_
            obtain ⟨c, _, hw⟩ := exists_mem_of_forall₂ hrest hw
            exact hw.mono (fun _ _ => trivial) w
          exact .inr ⟨u, u, us, us, _, rfl, rfl, hu, hany⟩
      · have hne : ∀ p, op ≠ .subselect p := fun p he => hsub ⟨p, he⟩
        have hall : List.Forall₂ (TupleStream.Sim B (L ((inputs.map columns).headD []))) vs vs := by
          refine List.forall₂_same.2 fun u hu => ?_
          obtain ⟨c, hc, hu⟩ := exists_mem_of_forall₂ hbelow hu
          exact hu.mono (hroot.inputs hne c hc) u
        cases op with
        | subselect p => exact absurd rfl (hne p)
        | _ => exact hall
    have hboth : Except.Both (TupleStream.Sim B (L (op.columns ((inputs.map columns).headD []))))
        (Lowering.stream ⟨0, 0, canSpill⟩ s op (op.columns ((inputs.map columns).headD []))
          (inputs.map PlanTree.group) vs)
        (Lowering.stream ⟨0, 0, canSpill⟩ s op (op.columns ((inputs.map columns).headD []))
          (inputs.map PlanTree.group) vs) :=
      Lowering.stream_sim hB (.inl rfl) (fun _ _ => trivial) hop hs hroot.operator hin
    rw [hv] at hboth
    rw [columns_node]
    cases hboth with
    | ok hsim => exact hsim

theorem ReadsOnly.inline_sim {B : Bond} (hB : B.Faithful) {L : List Column → Tuple → Prop}
    {s : RunState} (hs : B.state s s) {canSpill : Bool} (t : PhysicalPlan) (ht : t.ReadsOnly)
    (hkeeps : ∀ u ∈ t.subtrees, KeepsTuples B L s u) {v : TupleStream}
    (hv : t.inline canSpill s = .ok v) : v.Sim B (L t.columns) v := by
  refine PhysicalPlan.inline_sim hB hs t (fun u hu hwrites => ?_) hkeeps hv
  rw [ht u hu] at hwrites
  cases hwrites

/-- The stream of a plan that only reads is like itself, in whatever way states are compared. -/
theorem ReadsOnly.sim {B : Bond} (hB : B.Faithful) {s : RunState} (hs : B.state s s)
    {canSpill : Bool} (t : PhysicalPlan) (ht : t.ReadsOnly) {v : TupleStream}
    (hv : t.inline canSpill s = .ok v) : v.Sim B (fun _ => True) v :=
  ht.inline_sim hB hs t (fun u _ => keepsTuples_any B s u) hv

/-- A plan that only reads leaves the tables and counts no row as affected. -/
theorem ReadsOnly.run {t : PhysicalPlan} (ht : t.ReadsOnly) {s : RunState} {canSpill : Bool}
    {v : TupleStream} (hv : t.inline canSpill s = .ok v) (hfinished : (v.run s).ending = .finished) :
    (v.run s).state.store.unread = s.store.unread ∧ (v.run s).state.affected = s.affected := by
  have hB := (Bond.over_faithful s.store).within (RunState.lasting_affected s.affected)
  have hs : ((Bond.over s.store).within fun x => x.affected = s.affected).state s s :=
    ⟨⟨rfl, rfl, rfl⟩, rfl, rfl⟩
  have hsim := ht.sim hB hs t hv
  cases hsim.run hB.counted v hs with
  | alike _ _ _ hstate => exact ⟨hstate.1.1, hstate.2.1⟩
  | excused he =>
    rw [hfinished] at he
    cases he

end PhysicalPlan

end QueryEngine
