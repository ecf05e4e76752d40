import QueryEngine.Proofs.BoundedSort
import QueryEngine.Proofs.Emission
import QueryEngine.Proofs.Partitions
import QueryEngine.Proofs.Sifting

/-!
# Splitting a sort with a limit

A sort with a limit over a chain is split into sorts of the parts, each with as many tuples as the
limit reaches, and an ordered merge. Of every part only those tuples are left out that come behind
enough others of the same part, so that the merge gives what the limit leaves of the sort of all
parts. A sort of the whole chain gives tuples with equal keys, place by place.
-/

set_option autoImplicit false

namespace QueryEngine

theorem RowLimit.reach_zero (n : UInt64) : (⟨0, n⟩ : RowLimit).reach = n := by
  rw [← UInt64.toNat_inj, reach_toNat]
  have hn := n.toNat_lt
  simp only [UInt64.toNat_zero, UInt64.size]
  omega

namespace TupleStream

/-! ## Streams that give lists -/

namespace Lists

variable {us : List Tuple} {t : TupleStream}

theorem run (h : t.Lists us) (s : RunState) : (t.run s).rows = us ∧ (t.run s).ending = .finished := by
  induction us generalizing t s with
  | nil =>
    obtain ⟨rest, hr⟩ := h s
    rw [TupleStream.run_eq, hr]
    exact ⟨rfl, rfl⟩
  | cons u us ih =>
    obtain ⟨rest, hr, hrest⟩ := h s
    obtain ⟨hrows, hend⟩ := ih hrest (s.count .pull)
    rw [TupleStream.run_eq, hr]
    exact ⟨congrArg (u :: ·) hrows, hend⟩

theorem tuples (h : t.Lists us) (s : RunState) : t.tuples s = us := by
  induction us generalizing t with
  | nil =>
    obtain ⟨rest, hr⟩ := h s
    rw [TupleStream.tuples, taken_eq, hr]
    rfl
  | cons u us ih =>
    obtain ⟨rest, hr, hrest⟩ := h s
    rw [tuples_of_row hr, ih hrest]

theorem consume_keepAll (h : t.Lists us) (found : List Tuple) (s : RunState) :
    t.consume keepAll found s = (.ok (found ++ us), s) := by
  induction us generalizing t found with
  | nil =>
    obtain ⟨rest, hr⟩ := h s
    rw [consume, drain_eq, hr, List.append_nil]
    rfl
  | cons u us ih =>
    obtain ⟨rest, hr, hrest⟩ := h s
    rw [List.append_cons, ← ih hrest, consume, drain_eq, hr]
    rfl

theorem pull_limitingSort {order : SortOrder} {out : List Tuple} (h : t.Lists us)
    (hkeys : order.Comparable us) (hout : StableSort order.compareKeys us out) (bounds : RowLimit)
    (s : RunState) : ∃ s', s.Recounted s' ∧ (t.limitingSort order bounds).pull s =
      (TupleStream.ofList ((out.take bounds.reach.toNat).drop bounds.skip.toNat)).pull s' := by
  by_cases hreach : bounds.reach = 0
  · refine ⟨s, .refl s, ?_⟩
    rw [pull_limitingSort_zero order hreach, hreach, UInt64.toNat_zero, List.take_zero, List.drop_nil]
    rfl
  · have hagree : Bond.same.Agree _ (t.consume (keepWithin order bounds) [] s)
        (t.consume keepAll [] s) := agree_keepWithin hreach (h.tuples s ▸ hkeys)
    rw [h.consume_keepAll, h.tuples] at hagree
    refine ⟨s.count .sort, .count s _, ?_⟩
    rw [limitingSort_eq order hreach]
    simp only [gathered, deferred, pull_of]
    generalize t.consume (keepWithin order bounds) [] s = o at hagree
    cases hagree with
    | ok hkept hs =>
      obtain ⟨-, out', hout', rfl⟩ := hkept
      cases hs
      rw [hout.unique hout']
    | excused he => exact he.elim

end Lists

/-! ## The merge of sorted parts -/

theorem mergeSorted_lists {order : SortOrder} {cs : List Column} {runs : List (List Tuple)}
    {out : List Tuple} (hsortable : order.Sortable cs runs.flatten)
    (hsorted : ∀ run ∈ runs, run.Pairwise fun u v => (order.compareKeys u v).isLE)
    (hout : StableSort order.compareKeys runs.flatten out) :
    (mergeSorted order (runs.map ofList)).Lists out := by
  refine .of_pull fun s => ?_
  obtain ⟨t, hstart, hlists⟩ := startMerge_lists hsortable hsorted hout s
  obtain ⟨hresult, hstate⟩ := Prod.mk.inj hstart
  refine ⟨t, hlists, ?_⟩
  rw [mergeSorted, show unbounded = unbounded - 1 + 1 from rfl, pull_retrying, hresult, hstate]

/-- Of every part as many tuples are enough as the limit reaches. -/
theorem take_merged {order : SortOrder} {bounds : RowLimit} {sorts : List (List Tuple)}
    {merged out : List Tuple}
    (hsorts : ∀ run ∈ sorts, run.Pairwise fun u v => (order.compareKeys u v).isLE)
    (hout : StableSort order.compareKeys sorts.flatten out)
    (hmerged : StableSort order.compareKeys (sorts.map (·.take bounds.reach.toNat)).flatten merged)
    (hlength : out.length < UInt64.size) :
    (merged.drop bounds.skip.toNat).take bounds.limit.toNat =
      (out.drop bounds.skip.toNat).take bounds.limit.toNat := by
  have hshort (n : Nat) : (sorts.map (·.take n)).flatten.length ≤ sorts.flatten.length := by
    clear hsorts hout hmerged
    induction sorts with
    | nil => exact Nat.le_refl 0
    | cons run rest ih =>
      rw [List.map_cons, List.flatten_cons, List.flatten_cons, List.length_append, List.length_append]
      exact Nat.add_le_add (List.length_take_le' n run) ih
  have hlength' : merged.length < UInt64.size := by
    rw [hmerged.length_eq]
    rw [hout.length_eq] at hlength
    exact Nat.lt_of_le_of_lt (hshort _) hlength
  rw [← bounds.take_reach (.inl hlength), ← bounds.take_reach (.inl hlength'),
    StableSort.take_runs hsorts hout hmerged]

section

variable {order : SortOrder} {s₀ : RunState}

theorem Sim.still_trans {t t' t'' : TupleStream} (h : t.Sim (.still s₀) (fun _ => True) t')
    (h' : t'.Sim (.still s₀) (fun _ => True) t'') : t.Sim (.still s₀) (fun _ => True) t'' :=
  Sim.trans (B := .still s₀) (fun hs => ⟨hs.1, hs.1⟩) (fun hs hs' => ⟨hs.1, hs'.2⟩) t h h'

theorem Sim.run_still {t t' : TupleStream} (h : t.Sim (.still s₀) (fun _ => True) t') :
    (t.run s₀).rows = (t'.run s₀).rows ∧ (t.run s₀).ending = (t'.run s₀).ending := by
  have hstill : (Bond.still s₀).state s₀ s₀ := ⟨.refl s₀, .refl s₀⟩
  have hsame := h.run (Bond.still_counted s₀) t hstill
  cases hsame with
  | excused _ he _ => exact he.elim
  | alike hrows _ hends _ => exact ⟨hrows, hends.resolve_left id⟩

/-- A sort with a limit is the list of what the limit leaves. -/
theorem Lists.sim_limitingSort {us out : List Tuple} {t : TupleStream} (h : t.Lists us)
    (hkeys : order.Comparable us) (hout : StableSort order.compareKeys us out) (bounds : RowLimit) :
    (t.limitingSort order bounds).Sim (.still s₀) (fun _ => True)
      (TupleStream.ofList ((out.take bounds.reach.toNat).drop bounds.skip.toNat)) := by
  refine sim_iff.2 fun s s' hs => ?_
  obtain ⟨s₁, ⟨p, rfl⟩, hpull⟩ := h.pull_limitingSort hkeys hout bounds s
  rw [hpull]
  exact (Sim.ofList fun _ _ => trivial).answer ⟨⟨hs.1.store, hs.1.bindings⟩, hs.2⟩

/-- The merge of sorts of the parts is the list of what the limit leaves of the sort of all. -/
theorem Lists.sim_mergeSorted {cs : List Column} {chunks : List (List Tuple)} {ts : List TupleStream}
    {out : List Tuple} (h : List.Forall₂ Lists chunks ts) (hsortable : order.Sortable cs chunks.flatten)
    (hlength : chunks.flatten.length < UInt64.size)
    (hout : StableSort order.compareKeys chunks.flatten out) (bounds : RowLimit) :
    ((mergeSorted order (ts.map (·.limitingSort order ⟨0, bounds.reach⟩))).limit bounds).Sim
      (.still s₀) (fun _ => True)
      (TupleStream.ofList ((out.drop bounds.skip.toNat).take bounds.limit.toNat)) := by
  let sorts := chunks.map fun us => us.mergeSort fun u v => (order.compareKeys u v).isLE
  let runs := sorts.map (·.take bounds.reach.toNat)
  have hsorts : List.Forall₂ (StableSort order.compareKeys) chunks sorts :=
    List.forall₂_map_right_iff.2 (List.forall₂_same.2 fun us _ => .mergeSort us)
  have hascending := StableSort.pairwise_of_mem_runs hsorts
  have hmem : ∀ u ∈ runs.flatten, u ∈ chunks.flatten := by
    intro u hu
    obtain ⟨_, htake, hu⟩ := List.mem_flatten.1 hu
    obtain ⟨run, hrun, rfl⟩ := List.mem_map.1 htake
    exact StableSort.mem_chunks hsorts (List.mem_flatten.2 ⟨run, hrun, List.mem_of_mem_take hu⟩)
  have hruns : ∀ run ∈ runs, run.Pairwise fun u v => (order.compareKeys u v).isLE := by
    intro _ htake
    obtain ⟨run, hrun, rfl⟩ := List.mem_map.1 htake
    exact (hascending run hrun).sublist (List.take_sublist _ _)
  -- The sort of the sorted parts is the sort of the parts.
  have hall : StableSort order.compareKeys sorts.flatten out := by
    have hsorted : StableSort order.compareKeys sorts.flatten _ := .mergeSort _
    rwa [hout.unique (.of_runs hsorts hsorted)]
  have hmerged : StableSort order.compareKeys runs.flatten _ := .mergeSort _
  have hlists := (mergeSorted_lists (hsortable.mono hmem) hruns hmerged).limit bounds
  rw [take_merged hascending hall hmerged (hout.length_eq ▸ hlength)] at hlists
  have hparts : List.Forall₂ (Sim (.still s₀) fun _ => True)
      (ts.map (·.limitingSort order ⟨0, bounds.reach⟩)) (runs.map TupleStream.ofList) := by
    simp only [runs, sorts, List.map_map]
    rw [List.forall₂_map_left_iff, List.forall₂_map_right_iff]
    refine (forall₂_mem h).flip.imp fun t us ⟨hus, ht⟩ => ?_
    have hkeys : order.Comparable us :=
      hsortable.comparable.mono fun u hu => List.mem_flatten.2 ⟨us, hus, hu⟩
    have hsort : (t.limitingSort order ⟨0, bounds.reach⟩).Sim (.still s₀) (fun _ => True) _ :=
      ht.sim_limitingSort hkeys (.mergeSort us) ⟨0, bounds.reach⟩
    rwa [RowLimit.reach_zero] at hsort
  exact ((Sim.mergeSorted hparts).limit bounds).still_trans (hlists.sim (.ofList _) fun _ _ => trivial)

end

/-! ## Parts that fail -/

section

variable (order : SortOrder) {bounds : RowLimit}

theorem pull_limitingSort_fails (hreach : bounds.reach ≠ 0) {judge : Tuple → Verdict Unit}
    {us : List Tuple} (h : ¬ Passes judge us) (s : RunState) :
    (((sift judge us).limitingSort order bounds).pull s).Fails := by
  obtain ⟨f, s', hf⟩ := consume_sift_fails (keepWithin order bounds) h [] s
  rw [limitingSort_eq order hreach]
  simp only [gathered, deferred, pull_of, hf]
  exact Reply.ofFailure_fails f s' _

theorem firstTuples_fails {ts : List TupleStream} {t : TupleStream} (ht : t ∈ ts)
    (hfails : ∀ s, (t.pull s).Fails) (i : Nat) (heads : StreamBundle.Heads) (s : RunState) :
    ∃ f, (firstTuples order i ts heads s).result = .error f := by
  induction ts generalizing i heads s with
  | nil => cases ht
  | cons v ts ih =>
    simp only [firstTuples]
    rcases List.mem_cons.1 ht with rfl | ht
    · have hpull := hfails s
      generalize t.pull s = r at hpull
      cases r with
      | row u s₁ rest => exact hpull.elim
      | finished s₁ rest => exact hpull.elim
      | failed e s₁ => exact ⟨_, rfl⟩
      | crashed c s₁ rest => exact ⟨_, rfl⟩
    · cases v.pull s with
      | row u s₁ rest =>
        simp only
        cases StreamBundle.addHead order i u heads with
        | error c => exact ⟨_, rfl⟩
        | ok found => exact ih ht (i + 1) found s₁
      | finished s₁ rest => exact ih ht (i + 1) heads s₁
      | failed e s₁ => exact ⟨_, rfl⟩
      | crashed c s₁ rest => exact ⟨_, rfl⟩

/-- A merge fails if one of its streams does at once. -/
theorem pull_mergeSorted_fails (hreach : bounds.reach ≠ 0) {ts : List TupleStream} {t : TupleStream}
    (ht : t ∈ ts) (hfails : ∀ s, (t.pull s).Fails) (s : RunState) :
    (((mergeSorted order ts).limit bounds).pull s).Fails := by
  obtain ⟨f, hf⟩ := firstTuples_fails order ht hfails 0 [] s
  have hresult : (startMerge order ts s).result = .error f := by
    rw [startMerge, Attempt.map, hf]
    rfl
  rw [limit, pull_transduce rfl, RowLimit.ne_zero hreach, if_pos rfl, mergeSorted,
    show unbounded = unbounded - 1 + 1 from rfl, pull_retrying, hresult]
  cases f <;> exact trivial

theorem run_fails {t : TupleStream} {s : RunState} (h : (t.pull s).Fails) :
    (t.run s).rows = [] ∧ (t.run s).ending ≠ .finished := by
  rw [TupleStream.run_eq]
  generalize t.pull s = r at h
  cases r with
  | row u s₁ rest => exact h.elim
  | finished s₁ rest => exact h.elim
  | failed e s₁ => exact ⟨rfl, nofun⟩
  | crashed c s₁ rest => exact ⟨rfl, nofun⟩

end

/-! ## The partitions of a table -/

section

variable {judge : Tuple → Verdict Unit} {t : Table} {cs : List Column} {p : Nat}

/-- A judge fails on a row of the table if it fails on one of a partition. -/
theorem passes_slices (h : t.Sound) (judge : Tuple → Verdict Unit) (cs : List Column) (hp : 0 < p)
    (hw : p < 18446744073709551616) :
    Passes judge (t.slice cs 0 1) ↔ ∀ i < p, Passes judge (t.slice cs i p) := by
  simp only [Passes, ← (h.slices_perm cs hp hw).mem_iff, List.mem_flatMap, List.mem_range]
  exact ⟨fun hall i hi u hu => hall u ⟨i, hi, hu⟩, fun hall u ⟨i, hi, hu⟩ => hall i hi u hu⟩

theorem sifted_slices_perm (h : t.Sound) (hp : 0 < p) (hw : p < 18446744073709551616) :
    ((List.range p).map fun i => sifted judge (t.slice cs i p)).flatten.Perm
      (sifted judge (t.slice cs 0 1)) := by
  have hperm := (h.slices_perm cs hp hw).filterMap fun u => (judge u).tuple?
  rwa [List.filterMap_flatMap] at hperm

theorem length_sifted_lt (h : t.Sound) (judge : Tuple → Verdict Unit) (cs : List Column)
    (i p : Nat) :
    (sifted judge (t.slice cs i p)).length < UInt64.size := by
  have hslice : (t.slice cs i p).length ≤ t.rows.length := by
    rw [Table.slice, List.length_map]
    exact List.length_filter_le _ _
  exact Nat.lt_of_le_of_lt (List.length_filterMap_le _ _)
    (Nat.lt_of_le_of_lt (Nat.le_trans hslice h.length_le) (by decide))

end

end TupleStream

/-! ## Plans -/

namespace PhysicalPlan

open TupleStream (Passes sift sifted)

theorem bind_part (t : PhysicalPlan) (b : Bindings) (i p : Nat) (g : GroupId) :
    bind (part t i p g) b = .ok () ↔ t.bind b = .ok () := by
  induction t using PlanTree.induct with
  | node group op inputs ih =>
    have hop : (op.restrict i p).bindings = op.bindings := by
      cases op <;> rfl
    rw [part_node, bind_node, bind_node, hop]
    refine and_congr_right fun _ => ?_
    rw [List.forall_mem_map]
    exact forall₂_congr ih

section

variable {limits : RunLimits} {t : PhysicalPlan} {q : QueryContext} {e : EngineState}

/-- Whether an execution of a plan emits what a stream emits and ends well if the stream does. -/
def ComesTo (limits : RunLimits) (q : QueryContext) (e : EngineState) (t : PhysicalPlan)
    (w : TupleStream) : Prop :=
  ∃ r, t.execute limits q e = pure r ∧ r.rows = (w.run (q.runState e)).rows ∧
    (r.ending = .finished ↔ (w.run (q.runState e)).ending = .finished)

/-- A plan comes to any stream that cannot be told from its own. -/
theorem comesTo_of_sim (hbind : t.bind q.bindings = .ok ()) (hlive : q.cancelled = false)
    (hroom : limits.channelCapacity < Lowering.channelBound) {v w : TupleStream}
    (hv : t.inline (limits.canSpill || false) (q.runState e) = .ok v)
    (hsim : v.Sim (.still (q.runState e)) (fun _ => True) w) : ComesTo limits q e t w := by
  rcases execute_cases limits false t hbind hlive hroom with ⟨f, hf, _⟩ | ⟨v', r, hv', hr, hlike⟩
  · cases hv.symm.trans hf
  · cases hv.symm.trans hv'
    refine ⟨r, hr, ?_⟩
    rw [← hsim.run_still.1, ← hsim.run_still.2]
    cases hlike with
    | excused _ he _ => cases he.1
    | alike hrows hshows _ _ =>
      refine ⟨hrows, ?_⟩
      generalize r.ending = x, (v.run (q.runState e)).ending = y at hshows
      cases hshows with
      | same => rfl
      | lost g c => simp

namespace ComesTo

variable {w : TupleStream}

theorem finishes {us : List Tuple} (h : ComesTo limits q e t w)
    (hw : w.Sim (.still (q.runState e)) (fun _ => True) (.ofList us)) :
    ∃ r, t.execute limits q e = pure r ∧ r.ending = .finished ∧ r.rows = us := by
  obtain ⟨r, hr, hrows, hend⟩ := h
  obtain ⟨hrows', hend'⟩ := (TupleStream.Lists.ofList us).run (q.runState e)
  rw [hw.run_still.1, hrows'] at hrows
  rw [hw.run_still.2] at hend
  exact ⟨r, hr, hend.2 hend', hrows⟩

theorem lists {us : List Tuple} (h : ComesTo limits q e t w) (hw : w.Lists us) :
    ∃ r, t.execute limits q e = pure r ∧ r.ending = .finished ∧ r.rows = us :=
  h.finishes (hw.sim (.ofList us) fun _ _ => trivial)

theorem fails (h : ComesTo limits q e t w) (hw : (w.pull (q.runState e)).Fails) :
    ∃ r, t.execute limits q e = pure r ∧ r.ending ≠ .finished ∧ r.rows = [] := by
  obtain ⟨r, hr, hrows, hend⟩ := h
  obtain ⟨hnone, hfails⟩ := TupleStream.run_fails hw
  exact ⟨r, hr, mt hend.1 hfails, hrows.trans hnone⟩

end ComesTo

end

/-- The ordered merge of sorts of the parts of a plan, each with as many tuples as a limit reaches. -/
def splitSort (group : GroupId) (order : SortOrder) (bounds : RowLimit) (input : PhysicalPlan)
    (p : Nat) (next : GroupId) : PhysicalPlan :=
  .node group (.mergeLimitingSort order bounds)
    ((parts input p next).map (.unary (.limitingSort order ⟨0, bounds.reach⟩)))

section

variable {group next : GroupId} {order : SortOrder} {bounds : RowLimit} {input : PhysicalPlan}
  {p : Nat}

theorem tryPartition_sort (hchain : input.isChain = true) (hp : 2 ≤ p) :
    tryPartition (.node group (.limitingSort order bounds) [input]) p next =
      some (splitSort group order bounds input p next, afterSplit p next) := by
  have hnot : isChain (.node group (.limitingSort order bounds) [input]) = false := by
    rw [isChain, PlanTree.fold_node]
    exact Bool.and_false _
  have hhere : splitHere? (.node group (.limitingSort order bounds) [input]) p next =
      some (splitSort group order bounds input p next) := by
    rw [splitHere?, hnot, if_neg Bool.false_ne_true]
    exact if_pos hchain
  rw [tryPartition, if_neg (by omega), splitFirst?, hhere]
  rfl

theorem bind_limitingSort {b : Bindings} (h : input.bind b = .ok ()) :
    bind (.node group (.limitingSort order bounds) [input]) b = .ok () :=
  bind_node.2 ⟨rfl, List.forall_mem_singleton.2 h⟩

theorem bind_splitSort {b : Bindings} (h : input.bind b = .ok ()) :
    (splitSort group order bounds input p next).bind b = .ok () := by
  refine bind_node.2 ⟨rfl, fun t ht => ?_⟩
  obtain ⟨_, hpart, rfl⟩ := List.mem_map.1 ht
  obtain ⟨i, _, rfl⟩ := List.mem_map.1 hpart
  exact bind_node.2 ⟨rfl, List.forall_mem_singleton.2 ((bind_part input b i p _).2 h)⟩

section

variable {s₀ : RunState} {canSpill : Bool} {h : TableHandle} {cs : List Column}
  {judge : Tuple → Verdict Unit} {u : TupleStream}

theorem Sifts.sortable (hf : input.Sifts s₀ canSpill h cs judge) (hsound : (s₀.table h).Sound)
    {i p : Nat} (hkeys : order.Uniform (sifted judge ((s₀.table h).slice cs i p))) :
    order.Sortable input.columns (sifted judge ((s₀.table h).slice cs i p)) := by
  refine ⟨fun v hv => ?_, hkeys⟩
  obtain ⟨w, hw, hemit⟩ := TupleStream.mem_sifted.1 hv
  exact (hf.keeps hemit).2 (hsound.fits_slice false hw).laid

theorem Sifts.nodup_rows (hf : input.Sifts s₀ canSpill h cs judge) (hsound : (s₀.table h).Sound)
    (i p : Nat) :
    ((sifted judge ((s₀.table h).slice cs i p)).map Tuple.row).Nodup := by
  have hrows := List.pairwise_map.1 (hsound.nodup_rows_slice cs i p)
  refine List.pairwise_map.2 (List.pairwise_filterMap.2 (hrows.imp fun {w w'} hne v hv v' hv' => ?_))
  have hemit {u v : Tuple} (h : (judge u).tuple? = some v) : judge u = .emit v () := by
    generalize judge u = verdict at h
    cases verdict <;> cases h
    rfl
  rw [(hf.keeps (hemit hv)).1, (hf.keeps (hemit hv')).1]
  exact hne

/-- The tuples of a part, judged one after another. -/
def partStreams (s₀ : RunState) (h : TableHandle) (cs : List Column) (judge : Tuple → Verdict Unit)
    (p : Nat) : List TupleStream :=
  (List.range p).map fun i => .sift judge ((s₀.table h).slice cs i p)

theorem Sifts.sort_sim (hf : input.Sifts s₀ canSpill h cs judge)
    (hu : input.inline canSpill s₀ = .ok u) (group : GroupId) (order : SortOrder)
    (bounds : RowLimit) :
    ∃ v, inline canSpill s₀ (.node group (.limitingSort order bounds) [input]) = .ok v ∧
      v.Sim (.still s₀) (fun _ => True)
        ((sift judge ((s₀.table h).slice cs 0 1)).limitingSort order bounds) := by
  refine ⟨u.limitingSort order bounds, by rw [inline_single, hu]; rfl, ?_⟩
  exact (hf.whole hu).limitingSort (Bond.still_count .sort) order bounds

theorem Sifts.parts_sim (hf : input.Sifts s₀ canSpill h cs judge)
    (hu : input.inline canSpill s₀ = .ok u) :
    List.Forall₂ (fun t w => ∃ v, inline canSpill s₀ t = .ok v ∧ v.Sim (.still s₀) (fun _ => True) w)
      (input.parts p next) (partStreams s₀ h cs judge p) := by
  rw [parts, partStreams, List.forall₂_map_left_iff, List.forall₂_map_right_iff,
    List.forall₂_same]
  exact fun i hi => hf.part hu (List.mem_range.1 hi) _

theorem Sifts.splitSort_sim (hf : input.Sifts s₀ canSpill h cs judge)
    (hu : input.inline canSpill s₀ = .ok u) (group : GroupId) (order : SortOrder)
    (bounds : RowLimit) (p : Nat) (next : GroupId) :
    ∃ v, (splitSort group order bounds input p next).inline canSpill s₀ = .ok v ∧
      v.Sim (.still s₀) (fun _ => True)
        ((TupleStream.mergeSorted order ((partStreams s₀ h cs judge p).map
          (·.limitingSort order ⟨0, bounds.reach⟩))).limit bounds) := by
  have hsorts : List.Forall₂
      (fun t w => ∃ v, inline canSpill s₀ t = .ok v ∧ v.Sim (.still s₀) (fun _ => True) w)
      ((input.parts p next).map (.unary (.limitingSort order ⟨0, bounds.reach⟩)))
      ((partStreams s₀ h cs judge p).map (·.limitingSort order ⟨0, bounds.reach⟩)) := by
    rw [List.forall₂_map_left_iff, List.forall₂_map_right_iff]
    refine (hf.parts_sim hu).imp fun t w ⟨v, hv, hsim⟩ => ?_
    refine ⟨v.limitingSort order ⟨0, bounds.reach⟩, by rw [inline_unary, hv]; rfl, ?_⟩
    exact hsim.limitingSort (Bond.still_count .sort) order _
  obtain ⟨vs, hvs, hsims⟩ := Except.exists_mapM hsorts
  refine ⟨(TupleStream.mergeSorted order vs).limit bounds, ?_,
    (TupleStream.Sim.mergeSorted hsims).limit bounds⟩
  rw [splitSort, inline_node, hvs]
  rfl

end

/-! ## Executions -/

/-- Whether a chain can be executed and judges the rows of its table one by one. -/
structure SiftsIn (limits : RunLimits) (q : QueryContext) (e : EngineState) (t : PhysicalPlan)
    (h : TableHandle) (cs : List Column) (judge : Tuple → Verdict Unit) : Prop where
  bound : t.bind q.bindings = .ok ()
  live : q.cancelled = false
  room : limits.channelCapacity < Lowering.channelBound
  setUp : ∃ u, t.inline (limits.canSpill || false) (q.runState e) = .ok u
  sifts : t.Sifts (q.runState e) (limits.canSpill || false) h cs judge

namespace SiftsIn

variable {limits : RunLimits} {q : QueryContext} {e : EngineState} {h : TableHandle}
  {cs : List Column} {judge : Tuple → Verdict Unit}

section

variable (hx : input.SiftsIn limits q e h cs judge)
include hx

theorem chain_comesTo :
    input.ComesTo limits q e (sift judge (((q.runState e).table h).slice cs 0 1)) := by
  obtain ⟨u, hu⟩ := hx.setUp
  exact comesTo_of_sim hx.bound hx.live hx.room hu (hx.sifts.whole hu)

theorem part_comesTo {i : Nat} (hi : i < p) (g : GroupId) :
    (input.part i p g).ComesTo limits q e (sift judge (((q.runState e).table h).slice cs i p)) := by
  obtain ⟨u, hu⟩ := hx.setUp
  obtain ⟨v, hv, hsim⟩ := hx.sifts.part hu hi g
  exact comesTo_of_sim ((bind_part input q.bindings i p g).2 hx.bound) hx.live hx.room hv hsim

theorem sort_comesTo (group : GroupId) (order : SortOrder) (bounds : RowLimit) :
    ComesTo limits q e (.node group (.limitingSort order bounds) [input])
      ((sift judge (((q.runState e).table h).slice cs 0 1)).limitingSort order bounds) := by
  obtain ⟨u, hu⟩ := hx.setUp
  obtain ⟨v, hv, hsim⟩ := hx.sifts.sort_sim hu group order bounds
  exact comesTo_of_sim (bind_limitingSort hx.bound) hx.live hx.room hv hsim

theorem splitSort_comesTo (group next : GroupId) (order : SortOrder) (bounds : RowLimit) (p : Nat) :
    ComesTo limits q e (splitSort group order bounds input p next)
      ((TupleStream.mergeSorted order ((partStreams (q.runState e) h cs judge p).map
        (·.limitingSort order ⟨0, bounds.reach⟩))).limit bounds) := by
  obtain ⟨u, hu⟩ := hx.setUp
  obtain ⟨v, hv, hsim⟩ := hx.sifts.splitSort_sim hu group order bounds p next
  exact comesTo_of_sim (bind_splitSort hx.bound) hx.live hx.room hv hsim

/-- An execution of the chain comes to its end if no row makes it fail. -/
theorem ending_eq_finished {r : Run} (hrun : input.execute limits q e = pure r) :
    (r.ending = .finished ↔ Passes judge (((q.runState e).table h).slice cs 0 1)) ∧
      (r.ending = .finished →
        r.rows = sifted judge (((q.runState e).table h).slice cs 0 1)) := by
  by_cases hpass : Passes judge (((q.runState e).table h).slice cs 0 1)
  · obtain ⟨r', hrun', hend, hrows⟩ := hx.chain_comesTo.lists (TupleStream.lists_sift hpass)
    cases hrun.symm.trans hrun'
    exact ⟨iff_of_true hend hpass, fun _ => hrows⟩
  · obtain ⟨r', hrun', _, hend⟩ := hx.chain_comesTo
    cases hrun.symm.trans hrun'
    have hfails := mt hend.1 (TupleStream.run_sift_fails hpass (q.runState e))
    exact ⟨iff_of_false hfails hpass, fun h => absurd h hfails⟩

theorem execute_parts
    (hpass : ∀ i < p, Passes judge (((q.runState e).table h).slice cs i p)) (next : GroupId) :
    ∃ runs, List.Forall₂ (fun (t : PhysicalPlan) run => t.execute limits q e = pure run ∧
        run.ending = .finished) (input.parts p next) runs ∧
      runs.map Run.rows = (List.range p).map fun i =>
        sifted judge (((q.runState e).table h).slice cs i p) := by
  have hparts : ∀ i ∈ List.range p, ∃ run : Run,
      execute limits (input.part i p
          (if i = 0 then input.group else next + UInt32.ofNat (i - 1))) q e = pure run ∧
        run.ending = .finished ∧
        run.rows = sifted judge (((q.runState e).table h).slice cs i p) := by
    intro i hi
    have hi := List.mem_range.1 hi
    exact (hx.part_comesTo hi _).lists (TupleStream.lists_sift (hpass i hi))
  obtain ⟨runs, hruns⟩ := exists_forall₂ hparts
  refine ⟨runs, ?_, ?_⟩
  · rw [parts, List.forall₂_map_left_iff]
    exact hruns.imp fun _ _ hrun => ⟨hrun.1, hrun.2.1⟩
  · rw [← List.forall₂_eq_eq_eq, List.forall₂_map_left_iff, List.forall₂_map_right_iff]
    exact hruns.flip.imp fun _ _ hrun => hrun.2.2

theorem execute_sort (hpass : Passes judge (((q.runState e).table h).slice cs 0 1))
    {out : List Tuple}
    (hkeys : order.Comparable (sifted judge (((q.runState e).table h).slice cs 0 1)))
    (hout : StableSort order.compareKeys
      (sifted judge (((q.runState e).table h).slice cs 0 1)) out)
    (hlength : out.length < UInt64.size) (group : GroupId) (bounds : RowLimit) :
    ∃ r, execute limits (.node group (.limitingSort order bounds) [input]) q e = pure r ∧
      r.ending = .finished ∧ r.rows = (out.drop bounds.skip.toNat).take bounds.limit.toNat := by
  rw [← bounds.take_reach (.inl hlength)]
  exact (hx.sort_comesTo group order bounds).finishes
    ((TupleStream.lists_sift hpass).sim_limitingSort hkeys hout bounds)

theorem execute_splitSort
    (hpass : ∀ i < p, Passes judge (((q.runState e).table h).slice cs i p))
    {chunks : List (List Tuple)} (hchunks : chunks = (List.range p).map fun i =>
      sifted judge (((q.runState e).table h).slice cs i p)) {out : List Tuple}
    (hsortable : order.Sortable input.columns chunks.flatten)
    (hlength : chunks.flatten.length < UInt64.size)
    (hout : StableSort order.compareKeys chunks.flatten out) (group next : GroupId)
    (bounds : RowLimit) :
    ∃ r, (splitSort group order bounds input p next).execute limits q e = pure r ∧
      r.ending = .finished ∧ r.rows = (out.drop bounds.skip.toNat).take bounds.limit.toNat := by
  have hlists : List.Forall₂ TupleStream.Lists chunks (partStreams (q.runState e) h cs judge p) := by
    rw [hchunks, partStreams, List.forall₂_map_left_iff, List.forall₂_map_right_iff,
      List.forall₂_same]
    exact fun i hi => TupleStream.lists_sift (hpass i (List.mem_range.1 hi))
  exact (hx.splitSort_comesTo group next order bounds p).finishes
    (TupleStream.Lists.sim_mergeSorted hlists hsortable hlength hout bounds)

/-- A limit that takes nothing ends both at once. -/
theorem execute_idle (hreach : bounds.reach = 0) (group next : GroupId) (order : SortOrder) (p : Nat) :
    (∃ r, execute limits (.node group (.limitingSort order bounds) [input]) q e = pure r ∧
      r.ending = .finished ∧ r.rows = []) ∧
    ∃ r, (splitSort group order bounds input p next).execute limits q e = pure r ∧
      r.ending = .finished ∧ r.rows = [] :=
  ⟨(hx.sort_comesTo group order bounds).lists
      fun s => ⟨_, TupleStream.pull_limitingSort_zero order hreach _ s⟩,
    (hx.splitSort_comesTo group next order bounds p).lists
      fun s => ⟨_, TupleStream.pull_limit_zero hreach _ s⟩⟩

/-- If a row makes the chain fail, both fail before they give a tuple. -/
theorem execute_fails (hreach : bounds.reach ≠ 0)
    (hwhole : ¬ Passes judge (((q.runState e).table h).slice cs 0 1))
    (hpart : ∃ i < p, ¬ Passes judge (((q.runState e).table h).slice cs i p))
    (group next : GroupId) (order : SortOrder) :
    (∃ r, execute limits (.node group (.limitingSort order bounds) [input]) q e = pure r ∧
      r.ending ≠ .finished ∧ r.rows = []) ∧
    ∃ r, (splitSort group order bounds input p next).execute limits q e = pure r ∧
      r.ending ≠ .finished ∧ r.rows = [] := by
  constructor
  · exact (hx.sort_comesTo group order bounds).fails
      (TupleStream.pull_limitingSort_fails order hreach hwhole (q.runState e))
  · obtain ⟨i, hi, hfails⟩ := hpart
    have hreach' : (⟨0, bounds.reach⟩ : RowLimit).reach ≠ 0 := by
      rwa [RowLimit.reach_zero]
    have hmem : (sift judge (((q.runState e).table h).slice cs i p)).limitingSort order
        ⟨0, bounds.reach⟩ ∈ (partStreams (q.runState e) h cs judge p).map
          (·.limitingSort order ⟨0, bounds.reach⟩) :=
      List.mem_map_of_mem (List.mem_map.2 ⟨i, List.mem_range.2 hi, rfl⟩)
    exact (hx.splitSort_comesTo group next order bounds p).fails
      (TupleStream.pull_mergeSorted_fails order hreach hmem
        (TupleStream.pull_limitingSort_fails order hreach' hfails) (q.runState e))

end

end SiftsIn

theorem exists_siftsIn {limits : RunLimits} {q : QueryContext} {e : EngineState} {r : Run}
    (hsound : ∀ m, (e.store.table m).Sound) (hchain : input.isChain = true)
    (hmemory : input.OnTables) (hroom : limits.channelCapacity < Lowering.channelBound)
    (hrun : input.execute limits q e = pure r) :
    ∃ h cs judge, input.SiftsIn limits q e h cs judge := by
  obtain ⟨h, cs, judge, hf⟩ : ∃ h cs judge,
      input.Sifts (q.runState e) (limits.canSpill || false) h cs judge :=
    exists_sifts hsound input hchain hmemory
  obtain ⟨hbind, hlive⟩ := bound_of_execute limits input hrun
  obtain ⟨u, hu, _⟩ := execute_eq_pure limits false input hrun
  exact ⟨h, cs, judge, hbind, hlive, hroom, ⟨u, hu⟩, hf⟩

/-- A sort with a limit over a chain is split into a tree that gives what the limit leaves of the
stable sort of all that the parts give. Without the split there are as many tuples, with equal keys
place by place. If the chain fails, both fail before they give a tuple, unless the limit ends them at
once. -/
theorem tryPartition_topRows (group next : GroupId) (bounds : RowLimit) {limits : RunLimits}
    {q : QueryContext} {e : EngineState} {r₀ : Run}
    (htables : ∀ x ∈ e.store.tables, x.Reachable) (hchain : input.isChain = true)
    (hmemory : input.OnTables) (hp : 2 ≤ p) (hw : p < 18446744073709551616)
    (hroom : limits.channelCapacity < Lowering.channelBound)
    (hrun : input.execute limits q e = pure r₀) (hkeys : order.Uniform r₀.rows) :
    tryPartition (.node group (.limitingSort order bounds) [input]) p next =
        some (splitSort group order bounds input p next, afterSplit p next) ∧
      ∃ r r', execute limits (.node group (.limitingSort order bounds) [input]) q e = pure r ∧
        execute limits (splitSort group order bounds input p next) q e = pure r' ∧
        (r₀.ending = .finished →
          r.ending = .finished ∧ r'.ending = .finished ∧
          (∃ runs sorted, List.Forall₂ (fun t run => execute limits t q e = pure run ∧
              run.ending = .finished) (input.parts p next) runs ∧
            order.sortTuples (runs.map Run.rows).flatten = .ok sorted ∧
            r'.rows = (sorted.drop bounds.skip.toNat).take bounds.limit.toNat) ∧
          List.Forall₂ (fun u v => order.compareTuples u v = .ok .eq) r.rows r'.rows ∧
          (r'.rows.map Tuple.row).Nodup) ∧
        (r₀.ending ≠ .finished → r.rows = [] ∧ r'.rows = [] ∧
          (r.ending = .finished ↔ bounds.reach = 0) ∧
          (r'.ending = .finished ↔ bounds.reach = 0)) := by
  refine ⟨tryPartition_sort hchain hp, ?_⟩
  have hsound := Store.table_sound htables
  obtain ⟨h, cs, judge, hx⟩ := exists_siftsIn hsound hchain hmemory hroom hrun
  have htable : ((q.runState e).table h).Sound := hsound h.number
  obtain ⟨hends, hrows⟩ := hx.ending_eq_finished hrun
  have hslices := TupleStream.passes_slices htable judge cs (by omega) hw
  by_cases hend : r₀.ending = .finished
  · have hwhole := hends.1 hend
    have hparts := hslices.1 hwhole
    rw [hrows hend] at hkeys
    have hsortable := hx.sifts.sortable htable hkeys
    obtain ⟨runs, hruns, hchunks⟩ := hx.execute_parts hparts next
    -- The parts give what the chain gives, in another order.
    have hperm : (runs.map Run.rows).flatten.Perm
        (sifted judge (((q.runState e).table h).slice cs 0 1)) := by
      rw [hchunks]
      exact TupleStream.sifted_slices_perm htable (by omega) hw
    have hsplit : order.Sortable input.columns (runs.map Run.rows).flatten :=
      hsortable.mono fun v hv => hperm.mem_iff.1 hv
    have hlength := TupleStream.length_sifted_lt htable judge cs 0 1
    obtain ⟨out, _, hout⟩ := hsortable.comparable.sortTuples
    obtain ⟨sorted, hsorted, hout'⟩ := hsplit.comparable.sortTuples
    obtain ⟨r, hr, hfin, hgiven⟩ := hx.execute_sort hwhole hsortable.comparable hout
      (hout.length_eq ▸ hlength) group bounds
    obtain ⟨r', hr', hfin', hgiven'⟩ := hx.execute_splitSort hparts hchunks hsplit
      (hperm.length_eq ▸ hlength) hout' group next bounds
    refine ⟨r, r', hr, hr', fun _ => ⟨hfin, hfin', ⟨runs, sorted, hruns, hsorted, hgiven'⟩, ?_, ?_⟩,
      fun hne => absurd hend hne⟩
    · rw [hgiven, hgiven']
      have hequal := hsortable.comparable.forall₂_compareTuples hperm.symm hout hout'
      exact List.forall₂_take _ (List.forall₂_drop _ hequal)
    · rw [hgiven']
      have hnodup : (sorted.map Tuple.row).Nodup :=
        ((hout'.perm.trans hperm).map Tuple.row).nodup_iff.2 (hx.sifts.nodup_rows htable 0 1)
      exact hnodup.sublist
        (((List.take_sublist _ _).trans (List.drop_sublist _ _)).map Tuple.row)
  · by_cases hreach : bounds.reach = 0
    · obtain ⟨⟨r, hr, hfin, hnone⟩, r', hr', hfin', hnone'⟩ :=
        hx.execute_idle hreach group next order p
      exact ⟨r, r', hr, hr', fun h => absurd h hend,
        fun _ => ⟨hnone, hnone', iff_of_true hfin hreach, iff_of_true hfin' hreach⟩⟩
    · have hwhole := mt hends.2 hend
      have hpart := mt hslices.2 hwhole
      push Not at hpart
      obtain ⟨⟨r, hr, hfails, hnone⟩, r', hr', hfails', hnone'⟩ :=
        hx.execute_fails hreach hwhole hpart group next order
      exact ⟨r, r', hr, hr', fun h => absurd h hend,
        fun _ => ⟨hnone, hnone', iff_of_false hfails hreach, iff_of_false hfails' hreach⟩⟩

end

/-! ### Ties -/

namespace Ties

def key : Column := ⟨"t.k", .long, true⟩

/-- Rows of which the first and the last have one key, and the others none. -/
def table : Table := ⟨"t", [key],
  [(0, [.long 2]), (1, [.null]), (2, [.null]), (3, [.long 2])], 4, [], 0⟩

theorem table_reachable : table.Reachable := by
  have hempty := Table.Reachable.empty "t" [key]
  have hone : (Table.empty "t" [key]).insert [key] [.long 2] =
      .ok (0, ⟨"t", [key], [(0, [.long 2])], 1, [], 0⟩) := by decide
  have htwo : (⟨"t", [key], [(0, [.long 2])], 1, [], 0⟩ : Table).insert [key] [.null] =
      .ok (1, ⟨"t", [key], [(0, [.long 2]), (1, [.null])], 2, [], 0⟩) := by decide
  have hthree : (⟨"t", [key], [(0, [.long 2]), (1, [.null])], 2, [], 0⟩ : Table).insert [key] [.null] =
      .ok (2, ⟨"t", [key], [(0, [.long 2]), (1, [.null]), (2, [.null])], 3, [], 0⟩) := by decide
  have hfour : (⟨"t", [key], [(0, [.long 2]), (1, [.null]), (2, [.null])], 3, [], 0⟩ : Table).insert
      [key] [.long 2] = .ok (3, table) := by decide
  exact .insert (.insert (.insert (.insert hempty (by decide) hone) (by decide) htwo) (by decide)
    hthree) (by decide) hfour

def engine : EngineState := ⟨⟨[table]⟩, .empty⟩

def query : QueryContext := ⟨.none, .standard, .empty, 0, false⟩

def limits : RunLimits := ⟨1, 4, true⟩

def scan : PhysicalPlan := .node 0 (.scan (engine.store.handle 0) [key] 0 1) []

def order : SortOrder := [(key, .ascending)]

/-- A limit between the rows with equal keys. -/
def bounds : RowLimit := ⟨1, 2⟩

def topRows : PhysicalPlan := .node 0 (.limitingSort order bounds) [scan]

theorem scan_onTables : scan.OnTables := by
  rintro u hu h cs i n hop
  cases List.mem_singleton.1 hu
  cases hop
  rfl

end Ties

open Ties in
/-- Once it is split, a sort with a limit may give other rows with the same keys. -/
theorem tryPartition_topRows_ties : ∃ t' next' r r', topRows.tryPartition 2 7 = some (t', next') ∧
    topRows.execute limits query engine = pure r ∧ t'.execute limits query engine = pure r' ∧
    List.Forall₂ (fun u v => order.compareTuples u v = .ok .eq) r.rows r'.rows ∧
    (r'.rows.map Tuple.row).Nodup ∧
    r.rows.map Tuple.row = [2, 0] ∧ r'.rows.map Tuple.row = [1, 0] := by
  obtain ⟨r₀, hrun, hend, hkeys⟩ : ∃ r₀, scan.execute limits query engine = pure r₀ ∧
      r₀.ending = .finished ∧ order.Uniform r₀.rows :=
    ⟨_, rfl, by decide +kernel, by decide +kernel⟩
  obtain ⟨hsplit, r, r', hr, hr', hfinished, _⟩ :=
    tryPartition_topRows 0 7 bounds (List.forall_mem_singleton.2 table_reachable) (by decide)
      scan_onTables (Nat.le_refl 2) (by decide) (by decide) hrun hkeys
  obtain ⟨_, _, _, hequal, hnodup⟩ := hfinished hend
  obtain ⟨v, hv, hrows⟩ : ∃ v, topRows.execute limits query engine = pure v ∧
      v.rows.map Tuple.row = [2, 0] := ⟨_, rfl, by decide +kernel⟩
  obtain ⟨v', hv', hrows'⟩ : ∃ v', execute limits (splitSort 0 order bounds scan 2 7) query engine =
      pure v' ∧ v'.rows.map Tuple.row = [1, 0] := ⟨_, rfl, by decide +kernel⟩
  cases hr.symm.trans hv
  cases hr'.symm.trans hv'
  exact ⟨_, _, r, r', hsplit, hr, hr', hequal, hnodup, hrows, hrows'⟩

end PhysicalPlan

end QueryEngine
