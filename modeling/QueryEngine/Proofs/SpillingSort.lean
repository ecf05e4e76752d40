import QueryEngine.Proofs.Gathering
import QueryEngine.Proofs.ReadOnly

/-!
# Sorting with little memory

A sort that spills cuts its input into chunks, wherever these end, and writes each as a sorted run.
Merging the runs that are read back gives the tuples that a sort in memory gives, bit for bit and with
equals in the order of the input, as long as a line is read as it was written. Only the counters tell
how many runs there were, so that the input must not look at them.
-/

set_option autoImplicit false

namespace QueryEngine

theorem Bond.uncounted_faithful : Bond.uncounted.Faithful := by
  have h := Lowering.equal_faithful false
  exact ⟨h.bindings, h.recount, h.openSubquery, h.append, h.countRows, h.index, h.scan, h.read, h.next⟩

theorem Bond.uncounted_exact : Bond.uncounted.Exact := by
  have h := Lowering.equal_exact false
  exact ⟨h.store, h.affected, h.change⟩

/-- Whether a stream takes no notice of counters. -/
def TupleStream.IgnoresCounters (t : TupleStream) : Prop := t.Sim Bond.uncounted (fun _ => True) t

/-- No plan looks at counters, whether it writes or not. -/
theorem PhysicalPlan.ignoresCounters {t : PhysicalPlan} {s : RunState} {canSpill : Bool}
    {v : TupleStream} (hv : t.inline canSpill s = .ok v) : v.IgnoresCounters :=
  inline_sim Bond.uncounted_faithful (L := Lowering.anyTuple) (.refl s) t (fun _ _ _ => Bond.uncounted_exact)
    (fun u _ => keepsTuples_any _ s u) hv

namespace TupleStream

variable {format : LineFormat} {order : SortOrder} {cs : List Column} {t : TupleStream} {s : RunState}

/-- Lines that are read as they were written give back the tuples of a run. -/
theorem readsBack_lines {us : List Tuple} (hlaid : ∀ u ∈ us, u.Laid cs)
    (hlines : ∀ u ∈ us, format.read (format.write (.ofTuple u)) = .ok (.ofTuple u)) :
    ReadsBack format.writeRun (format.readRun cs) us := by
  intro run hrun
  rw [LineFormat.readRun_writeRun (fun u hu => hlines u (hrun u hu)),
    relaid_laid fun u hu => hlaid u (hrun u hu)]

/-- What a spilling sort has read before each pull of its input. -/
def spills (format : LineFormat) (order : SortOrder) (chunk : Nat) (t : TupleStream) (s : RunState) :
    List (SpillState (List format.Line)) :=
  t.gatherings (SpillState.add order (max chunk 1) true format.writeRun) ⟨[], []⟩ s

/-- There is room for the next tuple before every pull. -/
theorem waiting_lt (format : LineFormat) (order : SortOrder) (chunk : Nat) (t : TupleStream)
    (s : RunState) : ∀ a ∈ t.spills format order chunk s, a.waiting.length < max chunk 1 := by
  have hpos : 0 < max chunk 1 := Nat.lt_of_lt_of_le Nat.zero_lt_one (Nat.le_max_right chunk 1)
  have hstep (a : SpillState (List format.Line)) (u : Tuple) (s : RunState)
      (next : SpillState (List format.Line)) (s' : RunState) (_ : a.waiting.length < max chunk 1)
      (h : a.add order (max chunk 1) true format.writeRun u s = (.ok next, s')) :
      next.waiting.length < max chunk 1 := by
    simp only [SpillState.add] at h
    split at h
    · simp only [SpillState.spill] at h
      rcases hsorted : sorted order (a.waiting ++ [u]) s with ⟨f | run, s₁⟩
      · rw [hsorted] at h
        cases h
      · rw [hsorted] at h
        cases h
        exact hpos
    · rename_i hroom
      cases h
      exact Nat.lt_of_not_le hroom
  exact forall_gatherings hstep t hpos

/-- Writing chunks on the way fails where finding all tuples fails, and else sorts them in parts. -/
theorem agree_spilled (chunk : Nat) (hinput : t.IgnoresCounters)
    (hkeys : order.Comparable (t.tuples s)) :
    Bond.uncounted.Agree (fun a found => found = t.tuples s ∧ Spilled order format.writeRun found a)
      (t.consume (SpillState.add order (max chunk 1) true format.writeRun) ⟨[], []⟩ s)
      (t.consume keepAll [] s) := by
  refine hinput.gathers (.refl s) spilled_nil ?_
  intro us u a s₁ s₁' hprefix hs ha
  have hall : order.Comparable (us ++ [u]) := hkeys.mono fun v hv => hprefix.subset hv
  obtain ⟨a', s₂, hadd, hs₂, ha'⟩ := add_spilled (max chunk 1) ha hall s₁
  exact ⟨a', s₂, hadd, hs₂.symm.trans hs, ha'⟩

/-- Merging what has been written gives what sorting all at once gives. -/
theorem agree_merged {us : List Tuple} {a : SpillState (List format.Line)}
    (ha : Spilled order format.writeRun us a) (hkeys : order.Sortable cs us)
    (hlines : ∀ u ∈ us, format.read (format.write (.ofTuple u)) = .ok (.ofTuple u))
    {s s' : RunState} (hs : s.Recounted s') :
    Bond.uncounted.Agree (Sim .uncounted fun _ => True)
      (a.finish order true format.writeRun (format.readRun cs) s)
      (Outcome.map ofList (sorted order us s')) := by
  obtain ⟨out, hsorted, hout⟩ := sorted_eq hkeys.comparable s'
  obtain ⟨v, s₁, hfinish, hs₁, hlists⟩ :=
    finish_spilled ha hkeys (readsBack_lines hkeys.laid hlines) hout s
  rw [hfinish, hsorted]
  exact .ok (hlists.sim (.ofList out) fun _ _ => trivial) (hs₁.symm.trans (hs.trans (.count s' _)))

/-- A sort that spills gives what a sort in memory gives: every tuple with its row and its values as
they were, equals in the order of the input, or the same error. It never holds more tuples than make
a chunk: before each pull there is room for one more. -/
theorem run_externalSort (format : LineFormat) (order : SortOrder) (chunk : Nat) (cs : List Column)
    (t : TupleStream) (s : RunState) (hinput : t.IgnoresCounters)
    (hkeys : order.Sortable cs (t.tuples s))
    (hlines : ∀ u ∈ t.tuples s, format.read (format.write (.ofTuple u)) = .ok (.ofTuple u)) :
    ((t.externalSort format order chunk true cs).run s).rows = ((t.sort order).run s).rows ∧
      ((t.externalSort format order chunk true cs).run s).ending = ((t.sort order).run s).ending ∧
      ∀ a ∈ t.spills format order chunk s, a.waiting.length < max chunk 1 := by
  have hfinish (a : SpillState (List format.Line)) (us : List Tuple) (s₁ s₁' : RunState)
      (h : us = t.tuples s ∧ Spilled order format.writeRun us a) (hs : s₁.Recounted s₁') :
      Bond.uncounted.Agree (Sim .uncounted fun _ => True)
        (a.finish order true format.writeRun (format.readRun cs) s₁)
        (Outcome.map ofList (sorted order us s₁')) := by
    obtain ⟨rfl, ha⟩ := h
    exact agree_merged ha hkeys hlines hs
  have hanswer := answer_gathered (agree_spilled chunk hinput hkeys.comparable) hfinish
  have hlike := hanswer.run Bond.uncounted_counted (.refl s)
  rw [TupleStream.run_eq, TupleStream.run_eq (t.sort order), sort_eq, externalSort, sortByRuns_eq]
  cases hlike with
  | alike hrows _ hends _ => exact ⟨hrows, hends.resolve_left id, waiting_lt format order chunk t s⟩
  | excused _ he _ => exact he.elim

end TupleStream

namespace Spilling

def key : Column := ⟨"t.k", .double, true⟩

def tuple (id : RowId) (v : Value) : Tuple := ⟨id, [key], [v]⟩

def order : SortOrder := [(key, .descending)]

/-- A number that is none, with a payload. -/
def payload : Binary64 := ⟨BitVec.ofNat 64 0x7ff8000000001234⟩

/-- Numbers that no decimal can stand for, null, and two tuples with the same key. -/
def given : List Tuple :=
  [tuple 0 (.double (.ofInt 1)), tuple 1 (.double payload), tuple 2 .null,
    tuple 3 (.double (Binary.zero.negate)), tuple 4 (.double (.infinity true)),
    tuple 5 (.double (.ofInt 1)), tuple 6 (.double .zero)]

def start : RunState := ⟨.empty, .empty, .empty, 0⟩

theorem sortable : order.Sortable [key] given :=
  ⟨by simp [given, tuple, Tuple.Laid], by decide⟩

theorem ignoresCounters : (TupleStream.ofList given).IgnoresCounters :=
  .ofList fun _ _ => trivial

/-- Lines of JSON hold these tuples. -/
theorem readsLines : ∀ u ∈ given,
    LineFormat.json.read (LineFormat.json.write (.ofTuple u)) = .ok (.ofTuple u) := by
  decide +kernel

end Spilling

open Spilling in
/-- Seven tuples in chunks of two: the last one is a run of its own. -/
theorem TupleStream.run_externalSort_payload :
    (((ofList given).externalSort .json order 2 true [key]).run start).rows =
        (((ofList given).sort order).run start).rows ∧
      (((ofList given).externalSort .json order 2 true [key]).run start).ending =
        (((ofList given).sort order).run start).ending ∧
      ∀ a ∈ (ofList given).spills .json order 2 start, a.waiting.length < 2 :=
  run_externalSort .json order 2 [key] (ofList given) start ignoresCounters sortable readsLines

end QueryEngine
