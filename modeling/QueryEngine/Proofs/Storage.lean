import QueryEngine.Execution.Sorting
import QueryEngine.Proofs.Run

/-!
# What storage gives back

Nothing of a tuple is lost on storage but its columns, and a run is read in the layout of its node. A
sort that spills files of lines therefore comes to the same as one that holds its runs as tuples, laid
out anew.
-/

set_option autoImplicit false

namespace QueryEngine

namespace SpilledValue

/-- Every value comes back bit for bit. -/
@[simp] theorem toValue_ofValue (v : Value) : (ofValue v).toValue = v := by
  cases v with
  | floatVector xs => simp [ofValue, toValue, Function.comp_def]
  | doubleVector xs => simp [ofValue, toValue, Function.comp_def]
  | _ => rfl

end SpilledValue

namespace SpilledTuple

theorem toTuple_ofTuple (cs : List Column) (t : Tuple) :
    (ofTuple t).toTuple cs = { t with columns := cs } := by
  simp [ofTuple, toTuple, Function.comp_def]

end SpilledTuple

/-- Tuples in the layout `cs`. -/
def relaid (cs : List Column) (run : List Tuple) : List Tuple :=
  run.map fun t => { t with columns := cs }

namespace LineFormat

variable {format : LineFormat}

/-- A run whose lines are read as they were written gives its tuples. -/
theorem readRun_writeRun {run : List Tuple}
    (h : ∀ u ∈ run, format.read (format.write (.ofTuple u)) = .ok (.ofTuple u)) (cs : List Column) :
    format.readRun cs (format.writeRun run) = TupleStream.ofList (relaid cs run) := by
  induction run with
  | nil => rfl
  | cons u rest ih =>
    have hrest := ih fun v hv => h v (List.mem_cons_of_mem _ hv)
    simp only [writeRun, List.map_cons, readRun, h u List.mem_cons_self,
      SpilledTuple.toTuple_ofTuple] at hrest ⊢
    rw [hrest]
    rfl

end LineFormat

namespace TupleStream

namespace SpillState

variable {ρ τ : Type} {order : SortOrder} {canSpill : Bool} {write : List Tuple → ρ} (f : ρ → τ)

/-- The same state with another way of holding runs. -/
def map (a : SpillState ρ) : SpillState τ := ⟨a.runs.map f, a.waiting⟩

theorem spill_map (a : SpillState ρ) (s : RunState) :
    (a.map f).spill order canSpill (f ∘ write) s = Outcome.map (map f) (a.spill order canSpill write s) := by
  unfold spill
  rcases hsorted : sorted order a.waiting s with ⟨c | run, s'⟩
  · simp only [map, hsorted]
    rfl
  · simp only [map, hsorted]
    cases canSpill with
    | false => rfl
    | true => simp [Outcome.map, Except.map, map]

theorem add_map (chunk : Nat) (a : SpillState ρ) (u : Tuple) (s : RunState) :
    (a.map f).add order chunk canSpill (f ∘ write) u s =
      Outcome.map (map f) (a.add order chunk canSpill write u s) := by
  by_cases hfull : chunk ≤ (a.waiting ++ [u]).length
  · simp only [add, hfull, if_true]
    rw [← spill_map]
    exact if_pos hfull
  · simp only [add, hfull, if_false]
    exact if_neg hfull

theorem finish_map (read : τ → TupleStream) (a : SpillState ρ) (s : RunState) :
    (a.map f).finish order canSpill (f ∘ write) read s = a.finish order canSpill write (read ∘ f) s := by
  have hmerge (b : SpillState ρ) (s : RunState) :
      (b.map f).merge order read s = b.merge order (read ∘ f) s := by
    simp only [merge, map, List.map_map]
  simp only [finish, spill_map, hmerge]
  simp only [map, List.isEmpty_map]
  rcases a.spill order canSpill write s with ⟨c | b, s'⟩
  · rfl
  · simp only [Outcome.map, Except.map, hmerge]

end SpillState

/-- Reading with states that are mapped comes to the mapped state. -/
theorem consume_map {σ τ : Type} {step : σ → Tuple → RunState → Outcome σ}
    {step' : τ → Tuple → RunState → Outcome τ} {g : σ → τ}
    (h : ∀ a u s, step' (g a) u s = Outcome.map g (step a u s)) (t : TupleStream) :
    ∀ (a : σ) (s : RunState), t.consume step' (g a) s = Outcome.map g (t.consume step a s) := by
  induction t using TupleStream.induct with
  | step t ih =>
    intro a s
    simp only [consume, drain_eq _ t]
    have rests := ih s
    generalize t.pull s = r at rests
    cases r with
    | finished s₁ rest => rfl
    | failed e s₁ => rfl
    | crashed c s₁ rest => rfl
    | row u s₁ rest =>
      simp only [Reply.drain, h]
      rcases step a u s₁ with ⟨f | next, s₂⟩
      · rfl
      · exact rests u s₁ rest rfl next s₂

section

variable {ρ τ : Type} (order : SortOrder) (chunk : Nat) (canSpill : Bool) (t : TupleStream)

/-- It makes no difference whether runs change when they are written or when they are read. -/
theorem sortByRuns_map (write : List Tuple → ρ) (f : ρ → τ) (read : τ → TupleStream) :
    t.sortByRuns order chunk canSpill (f ∘ write) read =
      t.sortByRuns order chunk canSpill write (read ∘ f) := by
  unfold sortByRuns
  congr 1
  funext s
  have hread : t.consume (SpillState.add order (max chunk 1) canSpill (f ∘ write)) ⟨[], []⟩ s =
      Outcome.map (SpillState.map f)
        (t.consume (SpillState.add order (max chunk 1) canSpill write) ⟨[], []⟩ s) :=
    consume_map (SpillState.add_map f _) t ⟨[], []⟩ s
  rw [hread]
  rcases t.consume (SpillState.add order (max chunk 1) canSpill write) ⟨[], []⟩ s with ⟨c | a, s'⟩
  · rfl
  · exact SpillState.finish_map f read a s'

/-- Files of lines come to the same as runs of tuples that are laid out anew. -/
theorem externalSort_relaid (cs : List Column) : t.externalSort .plain order chunk canSpill cs =
    t.sortByRuns order chunk canSpill (relaid cs) ofList := by
  have hread : LineFormat.plain.readRun cs ∘ LineFormat.plain.writeRun = ofList ∘ relaid cs :=
    funext fun run => LineFormat.readRun_writeRun (fun _ _ => rfl) cs
  have hlines := sortByRuns_map order chunk canSpill t id LineFormat.plain.writeRun
    (LineFormat.plain.readRun cs)
  rw [hread, ← sortByRuns_map] at hlines
  exact hlines

end

end TupleStream

end QueryEngine
