import Mathlib.Data.List.Nodup
import QueryEngine.Plan.Partition
import QueryEngine.Proofs.Cursors
import QueryEngine.Proofs.Twins

/-!
# Chains and their parts

A chain of operators on single tuples does with the rows of one partition what it does with all rows
of the table. Every row is in just one partition.
-/

set_option autoImplicit false

namespace QueryEngine

/-! ## Partitions of a table -/

namespace Table

variable {t : Table}

/-- The rows of one of `p` partitions laid out as `cs`. -/
def slice (t : Table) (cs : List Column) (i p : Nat) : List Tuple :=
  (t.rows.filter fun row => row.1 % Cursor.signedWord p == Cursor.signedWord i).map (t.tuple cs)

theorem mem_slice {cs : List Column} {i p : Nat} {u : Tuple} :
    u ∈ t.slice cs i p ↔ ∃ row ∈ t.rows,
      row.1 % Cursor.signedWord p = Cursor.signedWord i ∧ t.tuple cs row = u := by
  simp only [slice, List.mem_map, List.mem_filter, beq_iff_eq, and_assoc]

theorem remaining_slice {cs : List Column} {places : List Nat} (h : t.positions cs = .ok places)
    (i p : Nat) : (Cursor.mk cs places i p none).remaining t = t.slice cs i p := by
  refine List.map_congr_left fun row _ => ?_
  rw [tuple, Tuple.ofValues, valuesAt_eq h]

theorem Sound.fits_slice (h : t.Sound) (strict : Bool) {cs : List Column} {i p : Nat} {u : Tuple}
    (hu : u ∈ t.slice cs i p) : u.Fits strict cs := by
  obtain ⟨row, hrow, _, rfl⟩ := mem_slice.1 hu
  exact h.fits_tuple hrow strict cs

theorem Sound.nodup_rows_slice (h : t.Sound) (cs : List Column) (i p : Nat) :
    ((t.slice cs i p).map Tuple.row).Nodup := by
  rw [slice, List.map_map]
  exact h.nodup.sublist (List.filter_sublist.map Prod.fst)

theorem Sound.slice_nodup (h : t.Sound) (cs : List Column) (i p : Nat) : (t.slice cs i p).Nodup :=
  .of_map Tuple.row (h.nodup_rows_slice cs i p)

/-- The partitions together have every row once. -/
theorem Sound.slices_perm (h : t.Sound) (cs : List Column) {p : Nat} (hp : 0 < p)
    (hw : p < 18446744073709551616) :
    ((List.range p).flatMap fun i => t.slice cs i p).Perm (t.slice cs 0 1) := by
  have hrow {i j : Nat} {u : Tuple} (hi : i < p) (hj : j < p) (hui : u ∈ t.slice cs i p)
      (huj : u ∈ t.slice cs j p) : i = j := by
    obtain ⟨row, _, hrow, rfl⟩ := mem_slice.1 hui
    obtain ⟨other, _, hother, he⟩ := mem_slice.1 huj
    have hid : other.1 = row.1 := congrArg Tuple.row he
    exact Cursor.partition_unique hw hi hj hrow (hid ▸ hother)
  have hnodup : ((List.range p).flatMap fun i => t.slice cs i p).Nodup := by
    refine List.nodup_flatMap.2 ⟨fun i _ => h.slice_nodup cs i p, ?_⟩
    refine List.nodup_range.imp_of_mem fun {i j} hi hj hne u hui huj => hne ?_
    exact hrow (List.mem_range.1 hi) (List.mem_range.1 hj) hui huj
  refine (List.perm_ext_iff_of_nodup hnodup (h.slice_nodup cs 0 1)).2 fun u => ?_
  rw [List.mem_flatMap, mem_slice]
  constructor
  · rintro ⟨i, _, hu⟩
    obtain ⟨row, hmem, _, rfl⟩ := mem_slice.1 hu
    exact ⟨row, hmem, by rw [show Cursor.signedWord 1 = 1 by decide, Int.emod_one]; decide, rfl⟩
  · rintro ⟨row, hmem, _, rfl⟩
    obtain ⟨i, hi, hrow⟩ := Cursor.exists_partition hp hw row.1
    exact ⟨i, List.mem_range.2 hi, mem_slice.2 ⟨row, hmem, hrow, rfl⟩⟩

end Table

namespace TupleStream

variable {c : Frame} {t : TupleStream} {h : TableHandle} {store : Store} {cs : List Column}
  {i p : Nat}

theorem scan_lt (ht : TupleStream.scan h store cs i p = .ok t) : i < p := by
  unfold TupleStream.scan at ht
  cases hscan : (h.table store).scan cs i p with
  | error f =>
    rw [hscan] at ht
    cases ht
  | ok cursor => exact (Table.scan_eq_ok hscan).1

/-- The rows of a partition are drawn in the view in which they are pulled. -/
theorem Draws.ofCursor (hsound : (h.table c.store).Sound) {places : List Nat}
    (hplaces : (h.table c.store).positions cs = .ok places) (e : View) :
    (TupleStream.ofCursor h unbounded ⟨cs, places, i, p, none⟩).Draws c true e
      (Trace.inView e ((h.table c.store).slice cs i p)) e := by
  refine draws_iff.2 fun s hs => ?_
  have hsame : (s.table h).rows = (h.table c.store).rows := by
    rw [← hs.store]
    exact (congrArg Table.rows (s.store.table_unread h.number)).symm
  have hremaining : (Cursor.mk cs places i p none).remaining (s.table h) =
      (h.table c.store).slice cs i p := by
    rw [← Table.remaining_slice hplaces, Cursor.remaining, Cursor.remaining, hsame]
  have hlength : ((Cursor.mk cs places i p none).remaining (s.table h)).length ≤ unbounded := by
    refine Nat.le_trans (Cursor.remaining_length_le _ _) ?_
    rw [hsame]
    exact Nat.le_trans hsound.length_le (by decide)
  have hdraws := Draws.ofEmits (n := true) (.ofCursor h unbounded (hsame ▸ hsound.ascending) hlength)
    hs
  have hseen (us : List Tuple) : us.map (·.seen true) = us :=
    (List.map_congr_left fun u _ => rfl).trans (List.map_id us)
  rw [hremaining, hseen] at hdraws
  exact hdraws.pull hs

/-- Until it fails, a stream gives what it gives without the failure. -/
theorem Draws.failingAfter {n : Bool} {e e' : View} {L : Trace} (ht : t.Draws c n e L e')
    (results : Nat) (reason : String) : (t.failingAfter results reason).Draws c n e L e' := by
  refine .transduce (P := fun _ => True) (F := fun _ L => L) (fun left => ?_) (fun _ => rfl)
    (fun _ hL _ => hL) (fun {s e u} hs _ left => ?_) _ ht (fun _ _ => trivial) results
  · dsimp only
    split <;> simp
  · exact Verdict.Follows.emit (F := fun _ L => L) (a := left) (u := u) hs fun _ => rfl

/-- A scan draws the rows of its partition in the view in which it is pulled. -/
theorem Draws.scan (hstore : store.unread = c.store) (hsound : (h.table c.store).Sound)
    (ht : TupleStream.scan h store cs i p = .ok t) (e : View) :
    t.Draws c true e (Trace.inView e ((h.table c.store).slice cs i p)) e := by
  unfold TupleStream.scan at ht
  cases hscan : (h.table store).scan cs i p with
  | error f =>
    rw [hscan] at ht
    cases ht
  | ok cursor =>
    obtain ⟨_, places, hplaces, rfl⟩ := Table.scan_eq_ok hscan
    have hplaces' : (h.table c.store).positions cs = .ok places := by
      rw [← hstore, TableHandle.table, Store.table_unread, Table.positions_unread]
      exact hplaces
    have hrows := Draws.ofCursor (i := i) (p := p) hsound hplaces' e
    simp only [hscan] at ht
    cases hfault : h.faults.scanFailure with
    | none =>
      rw [hfault] at ht
      cases ht
      exact hrows
    | some fault =>
      rw [hfault] at ht
      cases ht
      exact hrows.failingAfter fault.1 fault.2

theorem Twin.scan (hstore : store.unread = c.store) (hsound : (h.table c.store).Sound)
    (ht : TupleStream.scan h store cs i p = .ok t) (strict : Bool) :
    t.Twin c true (Tuple.Fits strict cs) t := by
  intro e
  have hdraws := Draws.scan hstore hsound ht e
  exact ⟨_, e, Trace.forall_mem_inView.2 fun _ hu => hsound.fits_slice strict hu, hdraws, hdraws⟩

end TupleStream

/-! ## Operators on single tuples -/

namespace Operator

/-- Whether an operator reads rows by their numbers. -/
def isFetch : Operator → Bool
  | fetch .. => true
  | _ => false

/-- Whether the results of a function are null or of the type of its output column, for tuples that
fit the columns of the input. -/
def Typed (slots : List (Option Value)) (input : List Column) : Operator → Prop
  | function f arguments out => ∀ u x, Tuple.Fits true input u →
    ((⟨slots, []⟩ : Bindings).resolveEach (some u) arguments).bind f.invoke = .ok x →
      out.type.accepts x = true
  | _ => True

/-- What an operator on single tuples makes of a tuple that is given in a view. -/
noncomputable def change (op : Operator) (c : Frame) (input : List Column) (e : View) (u : Tuple) :
    Option Tuple :=
  match op with
  | filter p => TupleStream.filtered c p e u
  | function f arguments _ => TupleStream.applied c f arguments (op.columns input) u
  | fetch h wanted => TupleStream.fetched c h wanted (op.columns input) u
  | projection p => (u.project p.columns).toOption
  | _ => none

variable {op : Operator} {c : Frame} {n : Bool} {input : List Column} {s : RunState}

theorem change_draws (hop : op.isPerTuple = true) (hlisting : op.isListing = true)
    (hshown : ∀ g ∈ op.readings, g ∉ c.hidden) (hn : op.isFetch = true → n = true)
    {limits : RunLimits} {groups : List GroupId} {t u : TupleStream}
    (hu : Lowering.stream limits s op (op.columns input) groups [t] = .ok u) {e e' : View}
    {L : Trace} (ht : t.Draws c n e L e') : u.Draws c n e (Trace.choose (op.change c input) L) e' := by
  cases op with
  | filter p =>
    cases hu
    exact TupleStream.filter_chooses hlisting hshown t e L e' ht
  | function f arguments out =>
    cases hu
    rw [isListing, ← Binding.arePlain_eq_all] at hlisting
    exact TupleStream.apply_chooses hlisting t e L e' ht
  | fetch h wanted =>
    cases hu
    cases hn rfl
    exact TupleStream.fetch_chooses h wanted _ t e L e' ht
  | projection p =>
    cases hu
    have hagg : p.isAggregate = false := by simpa [isPerTuple] using hop
    have hproject : t.project p p.columns = t.select p.columns := by
      rw [TupleStream.project, hagg, if_neg Bool.false_ne_true]
    change (t.project p p.columns).Draws c n e _ e'
    rw [hproject]
    exact TupleStream.changeEach_chooses (TupleStream.project_seen _) t e L e' ht
  | _ => cases hop

theorem change_fits {strict : Bool} (htables : ∀ m, (c.store.table m).Sound)
    (htyped : strict = true → op.Typed c.slots input) {u v : Tuple} {e : View}
    (hu : u.Fits strict input) (hv : op.change c input e u = some v) :
    v.Fits strict (op.columns input) := by
  cases op with
  | filter p => exact TupleStream.filtered_eq_some hv ▸ hu
  | function f arguments out =>
    refine TupleStream.fits_applied (fun hstrict x hx => ?_) hu hv
    cases hstrict
    exact htyped rfl u x hu hx
  | fetch h wanted => exact TupleStream.fits_fetched (htables h.number) hu hv
  | projection p => exact hu.project (Except.toOption_eq_some.1 hv)
  | _ => cases hv

theorem restrict_of_isPerTuple (hop : op.isPerTuple = true) (i p : Nat) : op.restrict i p = op := by
  cases op <;> first | rfl | cases hop

theorem readGroups_of_isPerTuple (hop : op.isPerTuple = true) (groups : List GroupId) :
    op.readGroups groups = [] := by
  cases op <;> first | rfl | cases hop

end Operator

/-! ## Chains -/

namespace PhysicalPlan

/-- Whether all functions of a plan are typed. -/
def Typed (slots : List (Option Value)) (t : PhysicalPlan) : Prop :=
  ∀ u ∈ t.subtrees, u.op.Typed slots ((u.inputs.map columns).headD [])

/-- The groups of the sub-queries that a plan reads. -/
def readings (t : PhysicalPlan) : List GroupId :=
  t.fold fun _ op _ below => op.readings ++ below.flatten

theorem readings_node (group : GroupId) (op : Operator) (inputs : List PhysicalPlan) :
    readings (.node group op inputs) = op.readings ++ (inputs.map readings).flatten := by
  rw [readings, PlanTree.fold_node]
  rfl

/-- A valid scan has no inputs. -/
theorem scan_valid {g : GroupId} {h : TableHandle} {cs : List Column} {i n : Nat}
    {below : List PhysicalPlan}
    (hvalid : validate (.node g (.scan h cs i n) below) = .ok ()) :
    below = [] ∧ ∀ c ∈ cs, c ∈ h.columns := by
  obtain ⟨harity, _, hdetails⟩ := Operator.check_eq_ok.1 (validate_node.1 hvalid).1
  refine ⟨?_, Operator.checkColumns_eq_ok.1 hdetails⟩
  refine List.eq_nil_of_length_eq_zero ?_
  simpa [Arity.admits, Operator.arity, Operator.shape] using harity

theorem isChain_node {group : GroupId} {op : Operator} {inputs : List PhysicalPlan}
    (h : isChain (.node group op inputs) = true) :
    op.isWholeScan = true ∨ op.isPerTuple = true ∧ ∃ input, inputs = [input] ∧ input.isChain = true := by
  rw [isChain, PlanTree.fold_node, Bool.and_eq_true, Bool.or_eq_true, Bool.and_eq_true] at h
  refine h.2.imp_right fun ⟨hop, hinputs⟩ => ⟨hop, ?_⟩
  rw [beq_iff_eq, List.map_eq_singleton_iff] at hinputs
  exact hinputs

/-- Induction on chains: a scan of a whole table, and then operators that work on single tuples. -/
theorem isChain_induct {motive : (t : PhysicalPlan) → t.isChain = true → Prop}
    (scan : ∀ group h cs i inputs ht, motive (.node group (.scan h cs i 1) inputs) ht)
    (step : ∀ group op input ht, op.isPerTuple = true → ∀ hinput, motive input hinput →
      motive (.node group op [input]) ht) (t : PhysicalPlan) (ht : t.isChain = true) :
    motive t ht := by
  induction t using PlanTree.induct with
  | node group op inputs ih =>
    rcases isChain_node ht with hscan | ⟨hop, input, rfl, hinput⟩
    · cases op with
      | scan h cs i n =>
        obtain rfl : n = 1 := by simpa [Operator.isWholeScan] using hscan
        exact scan group h cs i inputs ht
      | _ => cases hscan
    · exact step group op input ht hop hinput (ih input (List.mem_singleton_self input) hinput)

theorem part_node (group : GroupId) (op : Operator) (inputs : List PhysicalPlan) (i p : Nat)
    (g : GroupId) : part (.node group op inputs) i p g =
      .node g (op.restrict i p) (inputs.map fun t => part t i p g) := by
  rw [part, PlanTree.fold_node]
  rfl

/-- Only the scan of a chain reads less in a part of it. -/
theorem part_step {op : Operator} (hop : op.isPerTuple = true) (group : GroupId)
    (input : PhysicalPlan) (i p : Nat) (g : GroupId) :
    part (.node group op [input]) i p g = .node g op [part input i p g] := by
  rw [part_node, Operator.restrict_of_isPerTuple hop, List.map_singleton]

theorem columns_part (t : PhysicalPlan) (i p : Nat) (g : GroupId) :
    columns (t.part i p g) = t.columns := by
  induction t using PlanTree.induct with
  | node group op inputs ih =>
    have hsame : (inputs.map fun t => part t i p g).map columns = inputs.map columns := by
      rw [List.map_map]
      exact List.map_congr_left ih
    rw [part_node, columns_node, columns_node, hsame]
    cases op <;> rfl

/-- A chain and its parts do the same with the rows that they read. -/
structure Changes (s : RunState) (canSpill : Bool) (c : Frame) (t : PhysicalPlan) (h : TableHandle)
    (cs : List Column) (f : View → Tuple → Option Tuple) : Prop where
  whole : ∀ {u}, t.inline canSpill s = .ok u → ∀ e,
    u.Draws c true e (Trace.inView e (((h.table c.store).slice cs 0 1).filterMap (f e))) e
  part : ∀ {i p g u}, inline canSpill s (part t i p g) = .ok u → ∀ e,
    u.Draws c true e (Trace.inView e (((h.table c.store).slice cs i p).filterMap (f e))) e
  fits : ∀ {strict}, (strict = true → t.Typed c.slots) → ∀ {e u v}, u.Fits strict cs →
    f e u = some v → v.Fits strict t.columns

section

variable {s : RunState} {canSpill : Bool} {c : Frame} (hstore : s.store.unread = c.store)
  (htables : ∀ m, (c.store.table m).Sound)
include hstore htables

theorem scan_changes (group : GroupId) (h : TableHandle) (cs : List Column) (i : Nat)
    (inputs : List PhysicalPlan) :
    Changes s canSpill c (.node group (.scan h cs i 1) inputs) h cs fun _ => some where
  whole {u} hu e := by
    rw [inline_node] at hu
    obtain ⟨_, _, hu⟩ := Except.bind_eq_ok.1 hu
    obtain rfl : i = 0 := Nat.lt_one_iff.1 (TupleStream.scan_lt hu)
    rw [List.filterMap_some]
    exact TupleStream.Draws.scan hstore (htables h.number) hu e
  part {j p g u} hu e := by
    rw [part_node, inline_node] at hu
    obtain ⟨_, _, hu⟩ := Except.bind_eq_ok.1 hu
    rw [List.filterMap_some]
    exact TupleStream.Draws.scan hstore (htables h.number) hu e
  fits := by
    intro strict _ e u v hu hv
    rw [columns_node]
    exact Option.some.inj hv ▸ hu

theorem exists_changes (t : PhysicalPlan) (ht : t.isChain = true)
    (hlisting : ∀ u ∈ t.subtrees, u.op.isListing = true) (hshown : ∀ g ∈ t.readings, g ∉ c.hidden) :
    ∃ h cs f, t.Changes s canSpill c h cs f := by
  induction t, ht using isChain_induct with
  | scan group h cs i inputs => exact ⟨h, cs, _, scan_changes hstore htables group h cs i inputs⟩
  | step group op input _ hop _ ih =>
    have hmem := List.mem_singleton_self input
    rw [readings_node] at hshown
    obtain ⟨hlisted, hlisting⟩ := forall_subtrees_node.1 hlisting
    obtain ⟨h, cs, f, hchanges⟩ := ih (hlisting input hmem)
      (fun g hg => hshown g (List.mem_append_right _ (by simpa using hg)))
    have hstep {groups : List GroupId} {us : List Tuple} {u v : TupleStream} {e : View}
        (hv : Lowering.stream ⟨0, 0, canSpill⟩ s op (op.columns input.columns) groups [u] = .ok v)
        (hu : u.Draws c true e (Trace.inView e (us.filterMap (f e))) e) :
        v.Draws c true e (Trace.inView e
          (us.filterMap fun u => (f e u).bind (op.change c input.columns e))) e := by
      have hdraws := Operator.change_draws hop hlisted
        (fun g hg => hshown g (List.mem_append_left _ hg)) (fun _ => rfl) hv hu
      rwa [Trace.choose_inView, List.filterMap_filterMap] at hdraws
    refine ⟨h, cs, fun e u => (f e u).bind (op.change c input.columns e), ?_, ?_, ?_⟩
    · intro u hu e
      rw [inline_single] at hu
      obtain ⟨v, hv, hu⟩ := Except.bind_eq_ok.1 hu
      exact hstep hu (hchanges.whole hv e)
    · intro i p g u hu e
      rw [part_step hop, inline_single, columns_part] at hu
      obtain ⟨v, hv, hu⟩ := Except.bind_eq_ok.1 hu
      exact hstep hu (hchanges.part hv e)
    · intro strict htyped e u v hu hv
      obtain ⟨w, hw, hv⟩ := Option.bind_eq_some_iff.1 hv
      have htyped := fun hstrict => forall_subtrees_node.1 (htyped hstrict)
      rw [columns_node]
      exact Operator.change_fits htables (fun hstrict => (htyped hstrict).1)
        (hchanges.fits (fun hstrict => (htyped hstrict).2 input hmem) hu hw) hv

end

/-! ### The parts of a chain -/

section

variable {s : RunState} {canSpill : Bool} {c : Frame} {t : PhysicalPlan} {h : TableHandle}
  {cs : List Column} {f : View → Tuple → Option Tuple} {p : Nat} {next : GroupId}

theorem parts_columns (t : PhysicalPlan) (hp : 0 < p) (next : GroupId) :
    ((t.parts p next).map columns).headD [] = t.columns := by
  obtain ⟨p, rfl⟩ := Nat.exists_eq_add_one_of_ne_zero (Nat.ne_of_gt hp)
  rw [parts, List.range_succ_eq_map]
  exact columns_part t _ _ _

theorem Changes.parts_drawAll (hf : t.Changes s canSpill c h cs f) {us : List TupleStream}
    (hus : (t.parts p next).mapM (inline canSpill s) = .ok us) (e : View) :
    TupleStream.DrawAll c true us e (((List.range p).map fun i =>
      ((h.table c.store).slice cs i p).filterMap (f e)).map (Trace.inView e)) e := by
  have hall := List.forall₂_map_left_iff.1 (Except.mapM_eq_ok.1 hus)
  clear hus
  generalize List.range p = is at hall
  induction hall with
  | nil => exact .nil e
  | cons hu _ ih => exact .cons (hf.part hu e) ih

/-- A merge leaves tuples as they are that are laid out as it says. -/
theorem merge_draws {us : List TupleStream} {e : View} {vss : List (List Tuple)}
    (hus : TupleStream.DrawAll c true us e (vss.map (Trace.inView e)) e)
    (hvss : ∀ v ∈ vss.flatten, v.columns = cs) :
    (TupleStream.merge cs us).Draws c true e (Trace.inView e vss.flatten) e := by
  have hdraws := TupleStream.changeEach_chooses (TupleStream.align_seen cs) _ e _ e hus.concat
  have hflat : (vss.map (Trace.inView e)).flatten = Trace.inView e vss.flatten := by
    rw [Trace.inView, List.map_flatten]
    rfl
  have hsame : vss.flatten.filterMap (fun v => (TupleStream.align cs v).toOption) = vss.flatten := by
    refine (List.filterMap_congr fun v hv => ?_).trans List.filterMap_some
    rw [TupleStream.align, if_pos (hvss v hv)]
    rfl
  rwa [hflat, Trace.choose_inView, hsame] at hdraws

/-- A chain and the merge of its parts draw the same trace. -/
theorem Changes.parts_twin (hf : t.Changes s canSpill c h cs f)
    (hsound : (h.table c.store).Sound) {strict : Bool} (htyped : strict = true → t.Typed c.slots)
    (hp : 0 < p) (hw : p < 18446744073709551616) {u u' : TupleStream}
    (hu : t.inline canSpill s = .ok u)
    (hu' : inline canSpill s (.nary .merge (t.parts p next)) = .ok u') :
    u.Twin c true (Tuple.Fits strict t.columns) u' := by
  have hfits {e : View} {i p : Nat} : ∀ v ∈ ((h.table c.store).slice cs i p).filterMap (f e),
      v.Fits strict t.columns := by
    intro v hv
    obtain ⟨w, hw, hv⟩ := List.mem_filterMap.1 hv
    exact hf.fits htyped (hsound.fits_slice strict hw) hv
  rw [PlanTree.nary, inline_node, parts_columns t hp] at hu'
  obtain ⟨us, hus, hu'⟩ := Except.bind_eq_ok.1 hu'
  cases hu'
  intro e
  have hmerge : (TupleStream.merge t.columns us).Draws c true e _ e :=
    merge_draws (hf.parts_drawAll hus e) fun v hv => by
      obtain ⟨vs, hvs, hv⟩ := List.mem_flatten.1 hv
      obtain ⟨i, _, rfl⟩ := List.mem_map.1 hvs
      exact (hfits v hv).1
  have hperm := (hsound.slices_perm cs hp hw).filterMap (f e)
  rw [List.filterMap_flatMap] at hperm
  exact ⟨_, e, Trace.forall_mem_inView.2 hfits, hf.whole hu e, hmerge.shuffle (.inView e hperm)⟩

end

end PhysicalPlan

end QueryEngine
