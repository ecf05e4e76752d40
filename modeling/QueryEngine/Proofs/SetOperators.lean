import QueryEngine.Execution.Lower
import QueryEngine.Proofs.Typing

/-!
# Set operators

What unions, merges and intersections emit is told by what their inputs emit one after another.
Rows of values are told apart bit by bit. A machine that keeps the rows it has seen lets a tuple
through exactly if none before it has the same values.
-/

set_option autoImplicit false

namespace QueryEngine

/-! ## What is emitted -/

mutual

/-- What pulling a stream to its end comes to if nothing happens between the pulls. -/
def TupleStream.emission : TupleStream → RunState → Run
  | .ended, s => ⟨[], .finished, s⟩
  | .of pull, s => (pull s).emission

def Reply.emission : Reply → Run
  | .row u s rest => (rest.emission s).after u
  | .finished s _ => ⟨[], .finished, s⟩
  | .failed e s => ⟨[], .failed e, s⟩
  | .crashed c s _ => ⟨[], .crashed c, s⟩

end

/-- The result of reading everything, if it comes to an end. -/
def Ending.result {α : Type} (e : Ending) (all : α) : Except Failure α :=
  match e with
  | .finished => .ok all
  | .failed e => .error (.error e)
  | .crashed c => .error (.crashed c)

namespace Run

/-- Goes on from the end of a run; a failure is final. -/
def andThen (r : Run) (next : RunState → Run) : Run :=
  match r.ending with
  | .finished => { next r.state with rows := r.rows ++ (next r.state).rows }
  | _ => r

/-- The run of what is made of the tuples. -/
def mapRows (f : List Tuple → List Tuple) (r : Run) : Run := { r with rows := f r.rows }

/-- The run in which nothing is emitted before a failure. -/
def ofFailure (f : Failure) (s : RunState) : Run :=
  match f with
  | .error e => ⟨[], .failed e, s⟩
  | .crashed c => ⟨[], .crashed c, s⟩

theorem after_andThen (u : Tuple) (r : Run) (next : RunState → Run) :
    (r.after u).andThen next = (r.andThen next).after u := by
  obtain ⟨rows, ending, s⟩ := r
  cases ending <;> rfl

theorem mem_rows_andThen {r : Run} {next : RunState → Run} {u : Tuple}
    (h : u ∈ (r.andThen next).rows) : u ∈ r.rows ∨ u ∈ (next r.state).rows := by
  unfold andThen at h
  split at h
  · exact List.mem_append.1 h
  · exact .inl h

end Run

namespace TupleStream

/-- What the streams emit one after another, until the first failure. -/
def inTurn : List TupleStream → RunState → Run
  | [], s => ⟨[], .finished, s⟩
  | t :: rest, s => (t.emission s).andThen (inTurn rest)

/-- The tuples of every stream, read one after another. -/
def collectEach : List TupleStream → RunState → Outcome (List (List Tuple))
  | [], s => (.ok [], s)
  | t :: rest, s =>
    match t.collect s with
    | (.ok us, s) => (collectEach rest s).map (us :: ·)
    | (.error f, s) => (.error f, s)

/-- Whether a tuple at a place is the first one with its values. -/
def isFirst (us : List Tuple) (x : Tuple × Nat) : Bool :=
  (us.take x.2).all fun u => u.values ≠ x.1.values

/-- The tuples before which there is none with the same values. -/
def firstOfEach (us : List Tuple) : List Tuple := (us.zipIdx.filter (isFirst us)).map Prod.fst

/-- The first tuples of the first stream with values that all the others have as well. The others are
read first. -/
def common : List TupleStream → RunState → Run
  | [], s => ⟨[], .finished, s⟩
  | first :: others, s =>
    match collectEach others s with
    | (.error f, s) => .ofFailure f s
    | (.ok found, s) => (first.emission s).mapRows fun us =>
      (firstOfEach us).filter fun u => found.all (·.any fun v => v.values = u.values)

/-! ## Reading -/

section

variable {P : Tuple → Prop} {t : TupleStream} {s : RunState}

theorem emission_eq (t : TupleStream) (s : RunState) : t.emission s = (t.pull s).emission := by
  cases t with
  | ended => rfl
  | of pull => rfl

theorem Supplies.emission (t : TupleStream) :
    t.Supplies (fun _ => True) P → ∀ s, ∀ u ∈ (t.emission s).rows, P u := by
  induction t using TupleStream.induct with
  | step t ih =>
    intro h s
    have hpull := supplies_iff.1 h s trivial
    have rests := ih s
    rw [emission_eq]
    generalize t.pull s = r at hpull rests
    cases r with
    | row u s' rest => exact List.forall_mem_cons.2 ⟨hpull.1, rests u s' rest rfl hpull.2.2 s'⟩
    | finished s' rest => exact List.forall_mem_nil _
    | failed e s' => exact List.forall_mem_nil _
    | crashed c s' rest => exact List.forall_mem_nil _

/-- Reading with a step that always succeeds and does not touch the state. -/
theorem drain_eq_foldl {σ : Type} (step : σ → Tuple → RunState → Outcome σ) (next : σ → Tuple → σ)
    (hstep : ∀ a u s, P u → step a u s = (.ok (next a u), s)) (t : TupleStream) : ∀ {a s},
      (∀ u ∈ (t.emission s).rows, P u) →
        (t.drain step a s).result =
            (t.emission s).ending.result ((t.emission s).rows.foldl next a) ∧
          (t.drain step a s).state = (t.emission s).state := by
  induction t using TupleStream.induct with
  | step t ih =>
    intro a s
    rw [drain_eq, emission_eq]
    have rests := ih s
    generalize t.pull s = r at rests
    cases r with
    | row u s' rest =>
      intro h
      obtain ⟨hu, hrest⟩ := List.forall_mem_cons.1 h
      simp only [Reply.drain, hstep a u s' hu]
      exact rests u s' rest rfl hrest
    | finished s' rest => exact fun _ => ⟨rfl, rfl⟩
    | failed e s' => exact fun _ => ⟨rfl, rfl⟩
    | crashed c s' rest => exact fun _ => ⟨rfl, rfl⟩

theorem collect_eq (t : TupleStream) (s : RunState) :
    t.collect s = ((t.emission s).ending.result (t.emission s).rows, (t.emission s).state) := by
  have hread := drain_eq_foldl (P := fun _ => True) (fun found u s => (.ok (found ++ [u]), s))
    (fun found u => found ++ [u]) (fun _ _ _ _ => rfl) t (a := []) (s := s) fun _ _ => trivial
  have hrows (us found : List Tuple) : us.foldl (fun found u => found ++ [u]) found = found ++ us := by
    induction us generalizing found with
    | nil => exact (List.append_nil found).symm
    | cons u us ih => rw [List.foldl_cons, ih, List.append_assoc, List.singleton_append]
  rw [hrows] at hread
  exact Prod.ext hread.1 hread.2

theorem emission_append (t next : TupleStream) (s : RunState) :
    (t.append next).emission s = (t.emission s).andThen next.emission := by
  induction t using TupleStream.induct generalizing s with
  | step t ih =>
    rw [emission_eq, pull_append, emission_eq t]
    have rests := ih s
    generalize t.pull s = r at rests
    cases r with
    | row u s' rest =>
      rw [Reply.append, Reply.emission, rests u s' rest rfl, Reply.emission, Run.after_andThen]
    | finished s' rest =>
      rw [Reply.append, ← emission_eq]
      rfl
    | failed e s' => rfl
    | crashed c s' rest => rfl

theorem emission_concat (inputs : List TupleStream) :
    (concat inputs).emission = inTurn inputs := by
  induction inputs with
  | nil => rfl
  | cons t rest ih =>
    funext s
    rw [inTurn, ← ih]
    exact emission_append t (concat rest) s

theorem Supplies.inTurn {inputs : List TupleStream}
    (h : ∀ t ∈ inputs, t.Supplies (fun _ => True) P) : ∀ s, ∀ u ∈ (inTurn inputs s).rows, P u := by
  induction inputs with
  | nil => exact fun s => List.forall_mem_nil _
  | cons t rest ih =>
    obtain ⟨ht, hrest⟩ := List.forall_mem_cons.1 h
    intro s u hu
    exact (Run.mem_rows_andThen hu).elim (ht.emission t s u) (ih hrest _ u)

end

/-! ## Tuple by tuple -/

section

variable {P : Tuple → Prop} {σ : Type}

/-- The tuples that are kept of a list while a state follows them. -/
def sieve (keep : σ → Tuple → Bool) (next : σ → Tuple → σ) : σ → List Tuple → List Tuple
  | _, [] => []
  | a, u :: us =>
    if keep a u then u :: sieve keep next (next a u) us else sieve keep next (next a u) us

/-- A machine that only keeps or drops tuples, without touching the state of the run. -/
theorem emission_transduce (step : σ → Tuple → RunState → Verdict σ × RunState)
    (keep : σ → Tuple → Bool) (next : σ → Tuple → σ)
    (hstep : ∀ a u s, P u →
      step a u s = (if keep a u then .emit u (next a u) else .drop (next a u), s))
    (t : TupleStream) : ∀ {a s}, (∀ u ∈ (t.emission s).rows, P u) →
      (t.transduce (.steady step) a).emission s = (t.emission s).mapRows (sieve keep next a) := by
  induction t using TupleStream.induct with
  | step t ih =>
    intro a s
    rw [emission_eq (transduce _ t a), pull_steady, emission_eq t]
    have rests := ih s
    generalize t.pull s = r at rests
    cases r with
    | row u s' rest =>
      intro h
      obtain ⟨hu, hrest⟩ := List.forall_mem_cons.1 h
      have hlater := rests u s' rest rfl hrest (a := next a u)
      have hreply : (Reply.row u s' rest).transduce (.steady step) a =
          if keep a u then .row u s' (rest.transduce (.steady step) (next a u))
          else (rest.transduce (.steady step) (next a u)).pull s' := by
        have hverdict : (Transducer.steady step).step a u s' = step a u s' := rfl
        rw [Reply.transduce, hverdict, hstep a u s' hu]
        cases keep a u <;> rfl
      rw [hreply]
      cases hkeep : keep a u with
      | true =>
        rw [if_pos rfl, Reply.emission, hlater]
        simp [Reply.emission, Run.mapRows, Run.after, sieve, hkeep]
      | false =>
        rw [if_neg Bool.false_ne_true, ← emission_eq, hlater]
        simp [Reply.emission, Run.mapRows, Run.after, sieve, hkeep]
    | finished s' rest => exact fun _ => rfl
    | failed e s' => exact fun _ => rfl
    | crashed c s' rest => exact fun _ => rfl

theorem sieve_all (next : σ → Tuple → σ) (a : σ) (us : List Tuple) :
    sieve (fun _ _ => true) next a us = us := by
  induction us generalizing a with
  | nil => rfl
  | cons u us ih => rw [sieve, if_pos rfl, ih]

variable {cs : List Column}

theorem align_eq_ok {u : Tuple} (hu : u.columns = cs) : align cs u = .ok u := if_pos hu

/-- Tuples that have the layout already stay as they are. -/
theorem emission_changeEach_align {t : TupleStream} {s : RunState}
    (h : ∀ u ∈ (t.emission s).rows, u.columns = cs) :
    (t.changeEach (align cs)).emission s = t.emission s := by
  have hkeep := emission_transduce
    (fun (_ : Unit) u s => (.ofResult (Crash.lifted (align cs u)) (.emit · ()), s))
    (fun _ _ => true) (fun _ _ => ()) (fun _ u s hu => by rw [align_eq_ok hu]; rfl) t h (a := ())
  refine hkeep.trans ?_
  rw [Run.mapRows, sieve_all]

end

/-! ## Rows that were seen -/

section

variable {wanted : List Value → Bool} {t : TupleStream} {s : RunState}

/-- The first tuples of the rows of values that are wanted and have not been seen. -/
def unseen (wanted : List Value → Bool) : List (List Value) → List Tuple → List Tuple :=
  sieve (fun seen u => wanted u.values && !seen.contains u.values)
    fun seen u => if wanted u.values && !seen.contains u.values then u.values :: seen else seen

theorem unseen_cons (seen : List (List Value)) (u : Tuple) (us : List Tuple) :
    unseen wanted seen (u :: us) =
      if wanted u.values && !seen.contains u.values then u :: unseen wanted (u.values :: seen) us
      else unseen wanted seen us := by
  rw [unseen, sieve]
  split <;> rfl

/-- A row has been seen if it is wanted and a tuple in front has it. -/
theorem unseen_eq {front us : List Tuple} {seen : List (List Value)}
    (h : ∀ r, r ∈ seen ↔ wanted r = true ∧ ∃ v ∈ front, v.values = r) :
    unseen wanted seen us =
      (((us.zipIdx front.length).filter (isFirst (front ++ us))).map Prod.fst).filter
        fun u => wanted u.values := by
  induction us generalizing front seen with
  | nil => rfl
  | cons u us ih =>
    have hfirst : isFirst (front ++ u :: us) (u, front.length) = true ↔
        ¬ ∃ v ∈ front, v.values = u.values := by
      simp [isFirst]
    have hrest {seen : List (List Value)}
        (h : ∀ r, r ∈ seen ↔ wanted r = true ∧ ∃ v ∈ front ++ [u], v.values = r) :
        unseen wanted seen us =
          (((us.zipIdx (front.length + 1)).filter (isFirst (front ++ u :: us))).map Prod.fst).filter
            fun u => wanted u.values := by
      have hus := ih h
      rwa [List.length_append, List.length_singleton, List.append_assoc, List.singleton_append] at hus
    have hnext (r : List Value) : (∃ v ∈ front ++ [u], v.values = r) ↔
        (∃ v ∈ front, v.values = r) ∨ u.values = r := by
      simp [or_and_right, exists_or]
    rw [unseen_cons, List.zipIdx_cons]
    by_cases hfront : ∃ v ∈ front, v.values = u.values
    · have hdrop : ¬ (wanted u.values && !seen.contains u.values) = true := by
        simp only [Bool.and_eq_true, Bool.not_eq_true', List.contains_eq_mem, decide_eq_false_iff_not,
          h, not_and]
        exact fun hu hunseen => hunseen hu hfront
      rw [if_neg hdrop, List.filter_cons_of_neg (mt hfirst.1 (not_not.2 hfront))]
      refine hrest fun r => (h r).trans (and_congr_right fun _ => ?_)
      rw [hnext r]
      exact ⟨.inl, fun hr => hr.elim id fun he => he ▸ hfront⟩
    · have hunseen : u.values ∉ seen := fun hs => hfront ((h _).1 hs).2
      rw [List.filter_cons_of_pos (hfirst.2 hfront), List.map_cons, List.filter_cons]
      cases hu : wanted u.values with
      | true =>
        rw [if_pos (by simpa using hunseen), if_pos rfl]
        refine congrArg (u :: ·) (hrest fun r => ?_)
        rw [List.mem_cons, h r, hnext r]
        constructor
        · rintro (rfl | ⟨hr, hr'⟩)
          · exact ⟨hu, .inr rfl⟩
          · exact ⟨hr, .inl hr'⟩
        · rintro ⟨hr, hr' | rfl⟩
          · exact .inr ⟨hr, hr'⟩
          · exact .inl rfl
      | false =>
        rw [Bool.false_and, if_neg Bool.false_ne_true, if_neg Bool.false_ne_true]
        refine hrest fun r => (h r).trans (and_congr_right fun hr => ?_)
        rw [hnext r]
        refine ⟨.inl, fun hr' => hr'.elim id ?_⟩
        rintro rfl
        rw [hu] at hr
        cases hr

theorem unseen_nil (wanted : List Value → Bool) (us : List Tuple) :
    unseen wanted [] us = (firstOfEach us).filter fun u => wanted u.values :=
  @unseen_eq wanted [] us [] (by simp)

/-- A machine that keeps the rows of values it has let through. -/
theorem emission_unseen (wanted : List Value → Bool)
    {step : List (List Value) → Tuple → RunState → Verdict (List (List Value)) × RunState}
    (hstep : ∀ seen u s, step seen u s =
      (if wanted u.values = true ∧ u.values ∉ seen then .emit u (u.values :: seen) else .drop seen, s))
    (t : TupleStream) (s : RunState) :
    (t.transduce (.steady step) []).emission s =
      (t.emission s).mapRows fun us => (firstOfEach us).filter fun u => wanted u.values := by
  have hkeep := emission_transduce (P := fun _ => True) step
    (fun seen u => wanted u.values && !seen.contains u.values)
    (fun seen u => if wanted u.values && !seen.contains u.values then u.values :: seen else seen)
    (fun seen u s _ => by
      rw [hstep]
      by_cases hu : wanted u.values = true ∧ u.values ∉ seen <;> simp [hu])
    t (a := []) (s := s) fun _ _ => trivial
  refine hkeep.trans (congrArg (Run.mk · _ _) ?_)
  exact unseen_nil wanted _

theorem emission_distinct (t : TupleStream) (s : RunState) :
    t.distinct.emission s = (t.emission s).mapRows firstOfEach := by
  have hunseen : t.distinct.emission s =
      (t.emission s).mapRows fun us => (firstOfEach us).filter fun _ => true :=
    emission_unseen (fun _ => true)
      (fun seen u s => by by_cases hu : u.values ∈ seen <;> simp [hu]) t s
  simpa only [List.filter_true] using hunseen

theorem emission_within (sets : List (List (List Value))) (t : TupleStream) (s : RunState) :
    (t.within sets).emission s = (t.emission s).mapRows fun us =>
      (firstOfEach us).filter fun u => sets.all (u.values ∈ ·) :=
  emission_unseen (fun r => sets.all (r ∈ ·)) (fun seen u s => by simp) t s

end

/-! ## The operators -/

section

variable {cs : List Column} {inputs : List TupleStream}

theorem rowsOf_eq (h : ∀ t ∈ inputs, t.Supplies (fun _ => True) fun u => u.columns = cs)
    (s : RunState) :
    (rowsOf cs inputs s).result =
        (collectEach inputs s).1.map (List.map fun us => (us.map (·.values)).reverse) ∧
      (rowsOf cs inputs s).state = (collectEach inputs s).2 := by
  induction inputs generalizing s with
  | nil => exact ⟨rfl, rfl⟩
  | cons t rest ih =>
    obtain ⟨ht, hrest⟩ := List.forall_mem_cons.1 h
    have hread := drain_eq_foldl
      (fun rows u s => ((Crash.lifted (align cs u)).map fun u => u.values :: rows, s))
      (fun rows u => u.values :: rows)
      (fun rows u s hu => by rw [align_eq_ok hu]; rfl) t (a := []) (ht.emission t s)
    have hrows (us : List Tuple) (rows : List (List Value)) :
        us.foldl (fun rows u => u.values :: rows) rows = (us.map (·.values)).reverse ++ rows := by
      induction us generalizing rows with
      | nil => rfl
      | cons u us ih => rw [List.foldl_cons, ih]; simp
    rw [hrows, List.append_nil] at hread
    rw [rowsOf, collectEach, collect_eq]
    generalize t.drain _ [] s = read at hread
    obtain ⟨result, left, s'⟩ := read
    obtain ⟨rfl, rfl⟩ := hread
    cases (t.emission s).ending with
    | failed e => exact ⟨rfl, rfl⟩
    | crashed c => exact ⟨rfl, rfl⟩
    | finished =>
      obtain ⟨hresult, hstate⟩ := ih hrest (t.emission s).state
      refine ⟨?_, hstate⟩
      simp only [Ending.result, Attempt.after, Attempt.map, hresult, Outcome.map]
      cases (collectEach rest (t.emission s).state).1 <;> rfl

theorem emission_merge (h : ∀ t ∈ inputs, t.Supplies (fun _ => True) fun u => u.columns = cs)
    (s : RunState) : (merge cs inputs).emission s = inTurn inputs s := by
  have hall := Supplies.inTurn h s
  rw [← emission_concat] at hall ⊢
  exact emission_changeEach_align hall

theorem emission_intersect (h : ∀ t ∈ inputs, t.Supplies (fun _ => True) fun u => u.columns = cs)
    (s : RunState) : (intersect cs inputs).emission s = common inputs s := by
  cases inputs with
  | nil => rfl
  | cons first others =>
    obtain ⟨hfirst, hothers⟩ := List.forall_mem_cons.1 h
    obtain ⟨hresult, hstate⟩ := rowsOf_eq hothers s
    rw [emission_eq, intersect, afterOthers, unbounded, UInt64.size, pull_retrying]
    simp only [Attempt.after, Attempt.map, hresult, hstate, common]
    obtain ⟨f | found, s'⟩ := collectEach others s
    · cases f <;> rfl
    · simp only [Except.map]
      rw [← emission_eq, emission_within, emission_changeEach_align (hfirst.emission first s')]
      simp [Function.comp_def, List.any_eq]

end

end TupleStream

open TupleStream in
/-- Unions, merges and intersections of streams that have their columns. Plain unions and merges emit
what their inputs emit one after another, distinct unions the first tuples of each row of values
thereof, and intersections the first tuples of the first input with the rows of values that occur in
every input. -/
theorem Lowering.setOperators_emit {cs : List Column} {inputs : List TupleStream}
    (h : ∀ t ∈ inputs, t.Supplies (fun _ => True) fun u => u.columns = cs) (limits : RunLimits)
    (groups : List GroupId) (s₀ s : RunState) :
    let emitted (op : Operator) : Except Failure Run :=
      (stream limits s₀ op cs groups inputs).map (·.emission s)
    emitted .merge = .ok (inTurn inputs s) ∧
      emitted (.union false) = .ok (inTurn inputs s) ∧
      emitted (.union true) = .ok ((inTurn inputs s).mapRows firstOfEach) ∧
      emitted .intersect = .ok (common inputs s) := by
  have hmerge := emission_merge h s
  refine ⟨congrArg Except.ok hmerge, congrArg Except.ok hmerge, ?_, ?_⟩
  · have hdistinct := emission_distinct (merge cs inputs) s
    rw [hmerge] at hdistinct
    exact congrArg Except.ok hdistinct
  · exact congrArg Except.ok (emission_intersect h s)

namespace Repeated

def key : Column := ⟨"t.k", .double, true⟩

def nan : Value := .double .invalid

def tuple (id : RowId) (v : Value) : Tuple := ⟨id, [key], [v]⟩

/-- Two inputs that have a row of values in common, which either repeats. -/
def inputs : List TupleStream :=
  [.ofList [tuple 0 .null, tuple 1 nan, tuple 2 nan], .ofList [tuple 3 nan, tuple 4 (.double .zero)]]

def start : RunState := ⟨.empty, .empty, .empty, 0⟩

theorem supplies : ∀ t ∈ inputs, t.Supplies (fun _ => True) fun u => u.columns = [key] := by
  simp [inputs, TupleStream.ofList, TupleStream.Supplies, Reply.Supplies, tuple]

end Repeated

open Repeated in
theorem Lowering.setOperators_emit_repeated :
    let emitted (op : Operator) : Except Failure Run :=
      (stream ⟨0, 1, false⟩ start op [key] [0, 1] inputs).map (·.emission start)
    (∀ t ∈ inputs, t.Supplies (fun _ => True) fun u => u.columns = [key]) ∧
      emitted (.union true) =
        .ok ⟨[tuple 0 .null, tuple 1 nan, tuple 4 (.double .zero)], .finished, start⟩ ∧
      emitted .intersect = .ok ⟨[tuple 1 nan], .finished, start⟩ := by
  obtain ⟨-, -, hunion, hintersect⟩ :=
    setOperators_emit supplies ⟨0, 1, false⟩ [0, 1] start start
  exact ⟨supplies, hunion.trans (congrArg Except.ok (by decide)),
    hintersect.trans (congrArg Except.ok (by decide))⟩

end QueryEngine
