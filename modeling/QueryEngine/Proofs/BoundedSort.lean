import QueryEngine.Proofs.Gathering

/-!
# Sorting under a bound

A sort with a limit holds the least of the tuples that it has taken, no more of them than the limit
reaches. What it drives out would come behind all that it holds, so that a sort, a skip and a take
come to the same, whether the input ends or fails.
-/

set_option autoImplicit false

namespace QueryEngine

theorem SortOrder.length_insert {order : SortOrder} {u : Tuple} {ts found : List Tuple}
    (h : order.insert u ts = .ok found) : found.length = ts.length + 1 :=
  (SortOrder.insert_perm h).length_eq

namespace TupleStream

variable {order : SortOrder}

/-- A further tuple is kept or drives one out as soon as there is no more room. -/
theorem length_keepLeast {capacity : Nat} {kept found : List Tuple} {u : Tuple}
    (hkept : kept.length ≤ capacity) (h : keepLeast order capacity kept u = .ok found) :
    found.length = min (kept.length + 1) capacity := by
  unfold keepLeast at h
  split at h
  · rw [SortOrder.length_insert h]
    omega
  · cases hlast : kept.getLast? with
    | none =>
      simp only [hlast] at h
      cases h
      have hempty : kept.length = 0 := by rw [List.getLast?_eq_none_iff.1 hlast, List.length_nil]
      omega
    | some worst =>
      have hpos : 0 < kept.length := by
        apply List.length_pos_of_mem
        exact List.mem_of_getLast? hlast
      simp only [hlast] at h
      obtain ⟨o, _, h⟩ := Except.bind_eq_ok.1 h
      split at h
      · rw [SortOrder.length_insert h, List.length_dropLast]
        omega
      · cases h
        omega

/-- What a sort with a limit holds before each pull of its input. -/
def heaps (order : SortOrder) (bounds : RowLimit) (t : TupleStream) (s : RunState) :
    List (List Tuple) :=
  if bounds.reach = 0 then [] else t.gatherings (keepWithin order bounds) [] s

/-- A limit applies to nothing more than it reaches. -/
theorem length_heaps (order : SortOrder) (bounds : RowLimit) (t : TupleStream) (s : RunState) :
    ∀ kept ∈ t.heaps order bounds s, kept.length ≤ bounds.skip.toNat + bounds.limit.toNat := by
  unfold heaps
  split
  · exact List.forall_mem_nil _
  · intro kept hkept
    have hreach : kept.length ≤ bounds.reach.toNat := by
      have hstep (a : List Tuple) (u : Tuple) (s : RunState) (next : List Tuple) (s' : RunState)
          (ha : a.length ≤ bounds.reach.toNat)
          (hnext : keepWithin order bounds a u s = (.ok next, s')) :
          next.length ≤ bounds.reach.toNat := by
        rw [length_keepLeast ha (Crash.lifted_eq_ok.1 (congrArg Prod.fst hnext))]
        exact Nat.min_le_right _ _
      exact forall_gatherings hstep t (Nat.zero_le _) kept hkept
    rw [bounds.reach_toNat] at hreach
    omega

section

variable {bounds : RowLimit} {t : TupleStream} {s : RunState}

/-- Keeping the least tuples fails where finding all of them fails, and else keeps the first ones. -/
theorem agree_keepWithin (hreach : bounds.reach ≠ 0) (hkeys : order.Comparable (t.tuples s)) :
    Bond.same.Agree (fun kept found => found = t.tuples s ∧
        ∃ out, StableSort order.compareKeys found out ∧ kept = out.take bounds.reach.toNat)
      (t.consume (keepWithin order bounds) [] s) (t.consume keepAll [] s) := by
  refine (Sim.same t).gathers rfl ⟨[], .nil, List.take_nil.symm⟩ ?_
  intro us u kept s₁ s₁' hprefix hs hkept
  have hall : order.Comparable (us ++ [u]) := hkeys.mono fun v hv => hprefix.subset hv
  obtain ⟨found, hfound, hheld⟩ := keepWithin_first hreach hall hkept s₁
  exact ⟨found, s₁, hfound, hs, hheld⟩

/-- What is kept of the first tuples is what the limit leaves of all of them. -/
theorem agree_emitted {us out : List Tuple} (hkeys : order.Comparable us)
    (hcount : us.length < UInt64.size ∨ bounds.skip.toNat + bounds.limit.toNat < UInt64.size)
    (hout : StableSort order.compareKeys us out) (s : RunState) :
    Bond.same.Agree (Sim .same fun _ => True)
      (.ok (ofList ((out.take bounds.reach.toNat).drop bounds.skip.toNat)), s.count .sort)
      (Outcome.map (·.limit bounds) (Outcome.map ofList (sorted order us s))) := by
  obtain ⟨out', hsorted, hout'⟩ := sorted_eq hkeys s
  obtain rfl := hout.unique hout'
  rw [hsorted]
  refine .ok ?_ rfl
  have hlists : ((ofList out).limit bounds).Lists _ := Lists.limit (.ofList out) bounds
  rw [← bounds.take_reach (hout.length_eq.symm ▸ hcount)] at hlists
  exact Lists.sim (.ofList _) hlists fun _ _ => trivial

end

/-- A sort that keeps what a limit reaches is a sort with the limit behind it: the same tuples in the
same order, and the same error. It never holds more tuples than are skipped and taken. -/
theorem run_limitingSort (order : SortOrder) (bounds : RowLimit) (t : TupleStream) (s : RunState)
    (hkeys : order.Comparable (t.tuples s))
    (hcount : (t.tuples s).length < UInt64.size ∨
      bounds.skip.toNat + bounds.limit.toNat < UInt64.size) :
    (t.limitingSort order bounds).run s = ((t.sort order).limit bounds).run s ∧
      ∀ kept ∈ t.heaps order bounds s, kept.length ≤ bounds.skip.toNat + bounds.limit.toNat := by
  refine ⟨?_, length_heaps order bounds t s⟩
  by_cases hreach : bounds.reach = 0
  · rw [TupleStream.run_eq, pull_limitingSort_zero order hreach t s, TupleStream.run_eq _ s,
      pull_limit_zero hreach (t.sort order) s]
  · have hfinish (kept us : List Tuple) (s₁ s₁' : RunState)
        (h : us = t.tuples s ∧ ∃ out, StableSort order.compareKeys us out ∧
          kept = out.take bounds.reach.toNat) (hs : s₁ = s₁') :
        Bond.same.Agree (Sim .same fun _ => True)
          (.ok (ofList (kept.drop bounds.skip.toNat)), s₁.count .sort)
          (Outcome.map (·.limit bounds) (Outcome.map ofList (sorted order us s₁'))) := by
      obtain ⟨rfl, out, hout, rfl⟩ := h
      obtain rfl := hs
      exact agree_emitted hkeys hcount hout s₁
    have hanswer := answer_gathered (agree_keepWithin hreach hkeys) hfinish
    rw [TupleStream.run_eq, TupleStream.run_eq _ s, sort_eq, pull_limit_gathered t hreach,
      limitingSort_eq order hreach]
    exact (hanswer.run Bond.same_counted (Eq.refl s)).eq

end TupleStream

namespace Tied

def key : Column := ⟨"t.k", .long, true⟩

def tuple (id : RowId) (v : Value) : Tuple := ⟨id, [key], [v]⟩

/-- Tuples of which the first one and the last one have the same key. -/
def given : List Tuple :=
  [tuple 0 (.long 2), tuple 1 .null, tuple 2 (.long 1), tuple 3 (.long 2)]

/-- A limit that skips one tuple and reaches more than can be counted. -/
def bounds : RowLimit := ⟨1, 18446744073709551615⟩

def order : SortOrder := [(key, .ascending)]

def start : RunState := ⟨.empty, .empty, .empty, 0⟩

theorem comparable : order.Comparable given :=
  ⟨by simp [given, tuple, Tuple.Laid], by decide⟩

end Tied

open Tied in
theorem TupleStream.run_limitingSort_tied :
    ((ofList given).limitingSort order bounds).run start =
        (((ofList given).sort order).limit bounds).run start ∧
      (((ofList given).limitingSort order bounds).run start).rows.map Tuple.row = [2, 0, 3] :=
  ⟨(run_limitingSort order bounds (ofList given) start comparable (.inl (by decide))).1, by decide⟩

end QueryEngine
