import QueryEngine.Proofs.Results
import QueryEngine.Proofs.Run

/-!
# Simulations of streams

Two streams simulate each other when, pulled in related states, they answer alike and leave related
states and streams that simulate each other. What is left after the end, after an error or after a
crash does not count: no operator pulls it before the run has ended.

The first stream may run on workers, where a crash shows as the loss of a worker, and it may break
off with certain errors. Every combinator keeps simulations.
-/

set_option autoImplicit false

namespace QueryEngine

/-- How two runs are compared. -/
structure Bond where
  /-- The states in which the runs meet. -/
  state : RunState → RunState → Prop
  /-- The errors with which the first run may break off. -/
  excuses : ExecutionError → Prop
  /-- Whether the first run may have workers. -/
  workers : Prop

namespace Bond

/-- How a failure shows; a crash on a worker shows as its loss. -/
inductive Shows (B : Bond) : Failure → Failure → Prop
  | same (f : Failure) : Shows B f f
  | lost (g : GroupId) (c : Crash) : B.workers → Shows B (.error (.workerLost g)) (.crashed c)

variable {α β γ δ : Type}

/-- Outcomes that agree up to a relation of their results. -/
inductive Agree (B : Bond) (ρ : α → β → Prop) : Outcome α → Outcome β → Prop
  | ok {a b s s'} : ρ a b → B.state s s' → Agree B ρ (.ok a, s) (.ok b, s')
  | failed {f f' s s'} : B.Shows f f' → B.state s s' → Agree B ρ (.error f, s) (.error f', s')
  | excused {e s o} : B.excuses e → Agree B ρ (.error (.error e), s) o

/-- Verdicts on a tuple that agree; what is emitted has the property `Q`. -/
inductive Judge {σ : Type} (B : Bond) (Q : Tuple → Prop) :
    Verdict σ × RunState → Verdict σ × RunState → Prop
  | emit {u a s s'} : Q u → B.state s s' → Judge B Q (.emit u a, s) (.emit u a, s')
  | drop {a s s'} : B.state s s' → Judge B Q (.drop a, s) (.drop a, s')
  | fail {f s s'} : B.state s s' → Judge B Q (.fail f, s) (.fail f, s')

/-- Replies that agree, where the rests after a tuple are related by `ρ`. -/
inductive Answer (B : Bond) (P : Tuple → Prop) (ρ : TupleStream → TupleStream → Prop) :
    Reply → Reply → Prop
  | row {u s s' rest rest'} :
    P u → B.state s s' → ρ rest rest' → Answer B P ρ (.row u s rest) (.row u s' rest')
  | finished {s s' rest rest'} :
    B.state s s' → Answer B P ρ (.finished s rest) (.finished s' rest')
  | failed {e s s'} : B.state s s' → Answer B P ρ (.failed e s) (.failed e s')
  | crashed {c s s' rest rest'} :
    B.state s s' → Answer B P ρ (.crashed c s rest) (.crashed c s' rest')
  | lost {g c s s' rest'} :
    B.workers → B.state s s' → Answer B P ρ (.failed (.workerLost g) s) (.crashed c s' rest')
  | excused {e s r} : B.excuses e → Answer B P ρ (.failed e s) r

variable {B : Bond}

theorem Answer.ofFailure {P : Tuple → Prop} {ρ : TupleStream → TupleStream → Prop}
    {f f' : Failure} {s s' : RunState} {rest rest' : TupleStream} (hf : B.Shows f f')
    (hs : B.state s s') : B.Answer P ρ (.ofFailure f s rest) (.ofFailure f' s' rest') := by
  cases hf with
  | lost g c hw => exact .lost hw hs
  | same f =>
    cases f with
    | error e => exact .failed hs
    | crashed c => exact .crashed hs

namespace Agree

variable {ρ : α → β → Prop}

theorem map {ρ' : γ → δ → Prop} {f : α → γ} {g : β → δ} {o : Outcome α} {o' : Outcome β}
    (hf : ∀ a b, ρ a b → ρ' (f a) (g b)) (h : B.Agree ρ o o') :
    B.Agree ρ' (Outcome.map f o) (Outcome.map g o') := by
  cases h with
  | ok ha hs => exact .ok (hf _ _ ha) hs
  | failed hf hs => exact .failed hf hs
  | excused he => exact .excused he

end Agree

end Bond

/-! ## Simulations -/

mutual

/-- Whether a stream is simulated by another one; the tuples have the property `P`. -/
def TupleStream.Sim (B : Bond) (P : Tuple → Prop) : TupleStream → TupleStream → Prop
  | .ended, t' => ∀ s s', B.state s s' →
    B.Answer P (fun _ _ => True) (.finished s .ended) (t'.pull s')
  | .of pull, t' => ∀ s s', B.state s s' → Reply.Sim B P (pull s) (t'.pull s')

def Reply.Sim (B : Bond) (P : Tuple → Prop) : Reply → Reply → Prop
  | .row u s rest, r => B.Answer P (fun _ rest' => TupleStream.Sim B P rest rest') (.row u s rest) r
  | .finished s rest, r => B.Answer P (fun _ _ => True) (.finished s rest) r
  | .failed e s, r => B.Answer P (fun _ _ => True) (.failed e s) r
  | .crashed c s rest, r => B.Answer P (fun _ _ => True) (.crashed c s rest) r

end

variable {B : Bond} {P Q : Tuple → Prop}

theorem Reply.sim_iff {r r' : Reply} : Reply.Sim B P r r' ↔ B.Answer P (TupleStream.Sim B P) r r' := by
  constructor
  · intro h
    cases r with
    | row u s rest =>
      rw [Reply.Sim] at h
      cases h with
      | row hu hs ht => exact .row hu hs ht
    | finished s rest =>
      rw [Reply.Sim] at h
      cases h with
      | finished hs => exact .finished hs
    | failed e s =>
      rw [Reply.Sim] at h
      cases h with
      | failed hs => exact .failed hs
      | lost hw hs => exact .lost hw hs
      | excused he => exact .excused he
    | crashed c s rest =>
      rw [Reply.Sim] at h
      cases h with
      | crashed hs => exact .crashed hs
  · intro h
    cases h with
    | row hu hs ht => exact .row hu hs ht
    | finished hs => exact .finished hs
    | failed hs => exact .failed hs
    | crashed hs => exact .crashed hs
    | lost hw hs => exact .lost hw hs
    | excused he => exact .excused he

namespace TupleStream

theorem sim_iff {t t' : TupleStream} :
    t.Sim B P t' ↔ ∀ s s', B.state s s' → B.Answer P (Sim B P) (t.pull s) (t'.pull s') := by
  cases t with
  | ended => exact forall₃_congr fun s s' _ => Reply.sim_iff (r := .finished s .ended)
  | of pull => exact forall₃_congr fun s s' _ => Reply.sim_iff

namespace Sim

theorem answer {t t' : TupleStream} (h : t.Sim B P t') {s s' : RunState} (hs : B.state s s') :
    B.Answer P (Sim B P) (t.pull s) (t'.pull s') :=
  sim_iff.1 h s s' hs

theorem mono (hPQ : ∀ u, P u → Q u) (t : TupleStream) : ∀ {t'}, t.Sim B P t' → t.Sim B Q t' := by
  induction t using TupleStream.induct with
  | step t ih =>
    intro t' h
    refine sim_iff.2 fun s s' hs => ?_
    have ha := h.answer hs
    have rests := ih s
    generalize t.pull s = r at ha rests
    generalize t'.pull s' = r' at ha
    cases ha with
    | row hu hs₁ ht => exact .row (hPQ _ hu) hs₁ (rests _ _ _ rfl ht)
    | finished hs₁ => exact .finished hs₁
    | failed hs₁ => exact .failed hs₁
    | crashed hs₁ => exact .crashed hs₁
    | lost hw hs₁ => exact .lost hw hs₁
    | excused he => exact .excused he

theorem ended : TupleStream.ended.Sim B P .ended :=
  sim_iff.2 fun _ _ hs => .finished hs

theorem ofList {us : List Tuple} (h : ∀ u ∈ us, P u) :
    (TupleStream.ofList us).Sim B P (TupleStream.ofList us) := by
  induction us with
  | nil => exact ended
  | cons u us ih =>
    exact sim_iff.2 fun s s' hs => .row (h u List.mem_cons_self) hs
      (ih fun v hv => h v (List.mem_cons_of_mem _ hv))

theorem deferred {start start' : RunState → Outcome TupleStream}
    (h : ∀ s s', B.state s s' → B.Agree (Sim B P) (start s) (start' s')) :
    (TupleStream.deferred start).Sim B P (TupleStream.deferred start') := by
  refine sim_iff.2 fun s s' hs => ?_
  have ho := h s s' hs
  simp only [TupleStream.deferred, pull_of]
  generalize start s = o at ho
  generalize start' s' = o' at ho
  cases ho with
  | ok ht hs₁ => exact ht.answer hs₁
  | failed hf hs₁ => exact .ofFailure hf hs₁
  | excused he => exact .excused he

/-- A transducer keeps simulations if its steps agree on related states. -/
theorem transduce {σ : Type} {m : Transducer σ} (ready : σ → Bool)
    (hready : ∀ a, m.isReady a = .ok (ready a))
    (hstep : ∀ a u s s', P u → B.state s s' → B.Judge Q (m.step a u s) (m.step a u s'))
    (t : TupleStream) :
    ∀ {t'}, t.Sim B P t' → ∀ a, (t.transduce m a).Sim B Q (t'.transduce m a) := by
  induction t using TupleStream.induct with
  | step t ih =>
    intro t' h a
    refine sim_iff.2 fun s s' hs => ?_
    rw [pull_transduce (hready a), pull_transduce (hready a)]
    cases ready a with
    | false => exact .finished hs
    | true =>
      simp only [if_true]
      have ha := h.answer hs
      have rests := ih s
      generalize t.pull s = r at ha rests
      generalize t'.pull s' = r' at ha
      cases ha with
      | finished hs₁ => exact .finished hs₁
      | failed hs₁ => exact .failed hs₁
      | crashed hs₁ => exact .crashed hs₁
      | lost hw hs₁ => exact .lost hw hs₁
      | excused he => exact .excused he
      | @row u s₁ s₁' rest rest' hu hs₁ ht =>
        have hj := hstep a u s₁ s₁' hu hs₁
        simp only [Reply.transduce]
        generalize m.step a u s₁ = v at hj
        generalize m.step a u s₁' = v' at hj
        cases hj with
        | emit hq hs₂ => exact .row hq hs₂ (rests u s₁ rest rfl ht _)
        | drop hs₂ => exact (rests u s₁ rest rfl ht _).answer hs₂
        | fail hs₂ => exact .ofFailure (.same _) hs₂

/-- A steady transducer is always ready. -/
theorem steady {σ : Type} {step : σ → Tuple → RunState → Verdict σ × RunState} {t t' : TupleStream}
    (h : t.Sim B P t')
    (hstep : ∀ a u s s', P u → B.state s s' → B.Judge Q (step a u s) (step a u s')) (a : σ) :
    (t.transduce (.steady step) a).Sim B Q (t'.transduce (.steady step) a) :=
  Sim.transduce (m := .steady step) (fun _ => true) (fun _ => rfl) hstep t h a

/-- Reading streams to their ends with steps that agree. -/
theorem consume {α β : Type} {ρ : α → β → Prop} {step : α → Tuple → RunState → Outcome α}
    {step' : β → Tuple → RunState → Outcome β}
    (hstep : ∀ a b u s s', ρ a b → P u → B.state s s' → B.Agree ρ (step a u s) (step' b u s'))
    (t : TupleStream) :
    ∀ {t'}, t.Sim B P t' → ∀ {a b s s'}, ρ a b → B.state s s' →
      B.Agree ρ (t.consume step a s) (t'.consume step' b s') := by
  induction t using TupleStream.induct with
  | step t ih =>
    intro t' h a b s s' hab hs
    simp only [TupleStream.consume, drain_eq _ t, drain_eq _ t']
    have ha := h.answer hs
    have rests := ih s
    generalize t.pull s = r at ha rests
    generalize t'.pull s' = r' at ha
    cases ha with
    | finished hs₁ => exact .ok hab hs₁
    | failed hs₁ => exact .failed (.same _) hs₁
    | crashed hs₁ => exact .failed (.same _) hs₁
    | lost hw hs₁ => exact .failed (.lost _ _ hw) hs₁
    | excused he => exact .excused he
    | @row u s₁ s₁' rest rest' hu hs₁ ht =>
      have hj := hstep a b u s₁ s₁' hab hu hs₁
      simp only [Reply.drain]
      generalize step a u s₁ = o at hj
      generalize step' b u s₁' = o' at hj
      cases hj with
      | ok hab₂ hs₂ => exact rests u s₁ rest rfl ht hab₂ hs₂
      | failed hf hs₂ => exact .failed hf hs₂
      | excused he => exact .excused he

theorem append (t : TupleStream) :
    ∀ {t' next next'}, t.Sim B P t' → next.Sim B P next' →
      (t.append next).Sim B P (t'.append next') := by
  induction t using TupleStream.induct with
  | step t ih =>
    intro t' next next' h hnext
    refine sim_iff.2 fun s s' hs => ?_
    rw [pull_append, pull_append]
    have ha := h.answer hs
    have rests := ih s
    generalize t.pull s = r at ha rests
    generalize t'.pull s' = r' at ha
    cases ha with
    | row hu hs₁ ht => exact .row hu hs₁ (rests _ _ _ rfl ht hnext)
    | finished hs₁ => exact hnext.answer hs₁
    | failed hs₁ => exact .failed hs₁
    | crashed hs₁ => exact .crashed hs₁
    | lost hw hs₁ => exact .lost hw hs₁
    | excused he => exact .excused he

theorem concat {ts ts' : List TupleStream} (h : List.Forall₂ (Sim B P) ts ts') :
    (TupleStream.concat ts).Sim B P (TupleStream.concat ts') := by
  induction h with
  | nil => exact ended
  | cons ht _ ih => exact append _ ht ih

/-- A worker is not noticed, but that its crashes show as its loss. -/
theorem onWorker (hw : B.workers) (group : GroupId) (t : TupleStream) :
    ∀ {t'}, t.Sim B P t' → (t.onWorker group).Sim B P t' := by
  induction t using TupleStream.induct with
  | step t ih =>
    intro t' h
    refine sim_iff.2 fun s s' hs => ?_
    rw [pull_onWorker]
    have ha := h.answer hs
    have rests := ih s
    generalize t.pull s = r at ha rests
    generalize t'.pull s' = r' at ha
    cases ha with
    | row hu hs₁ ht => exact .row hu hs₁ (rests _ _ _ rfl ht)
    | finished hs₁ => exact .finished hs₁
    | failed hs₁ => exact .failed hs₁
    | crashed hs₁ => exact .lost hw hs₁
    | lost _ hs₁ => exact .lost hw hs₁
    | excused he => exact .excused he

end Sim

end TupleStream

/-! ## Runs -/

/-- How an ending shows; a crash on a worker shows as its loss. -/
inductive Ending.Shows : Ending → Ending → Prop
  | same (x : Ending) : Shows x x
  | lost (g : GroupId) (c : Crash) : Shows (.failed (.workerLost g)) (.crashed c)

/-- Runs that give the same tuples and end alike, unless the first one breaks off. -/
inductive Bond.Like (B : Bond) : Run → Run → Prop
  | alike {r r'} : r.rows = r'.rows → r.ending.Shows r'.ending →
    (B.workers ∨ r.ending = r'.ending) → B.state r.state r'.state → Like B r r'
  | excused {r r' e} : r.ending = .failed e → B.excuses e → r.rows <+: r'.rows → Like B r r'

theorem Bond.Like.after {r r' : Run} (u : Tuple) (h : B.Like r r') :
    B.Like (r.after u) (r'.after u) := by
  cases h with
  | alike hr he hw hs => exact .alike (congrArg (u :: ·) hr) he hw hs
  | excused he hx hp => exact .excused he hx ((List.prefix_cons_inj u).2 hp)

/-- Counting the answers of two runs leaves them related; the loss of a worker is counted, the crash
that it shows is not. -/
structure Bond.Counted (B : Bond) : Prop where
  both : ∀ {s s'}, B.state s s' → B.state (s.count .pull) (s'.count .pull)
  lost : B.workers → ∀ {s s'}, B.state s s' → B.state (s.count .pull) s'

/-- Streams that simulate each other have runs alike. -/
theorem TupleStream.Sim.run (hB : B.Counted) (t : TupleStream) :
    ∀ {t'}, t.Sim B P t' → ∀ {s s'}, B.state s s' → B.Like (t.run s) (t'.run s') := by
  induction t using TupleStream.induct with
  | step t ih =>
    intro t' h s s' hs
    rw [t.run_eq, t'.run_eq]
    have ha := h.answer hs
    have rests := ih s
    generalize t.pull s = r at ha rests
    generalize t'.pull s' = r' at ha
    cases ha with
    | row hu hs₁ ht => exact (rests _ _ _ rfl ht (hB.both hs₁)).after _
    | finished hs₁ => exact .alike rfl (.same _) (.inr rfl) (hB.both hs₁)
    | failed hs₁ => exact .alike rfl (.same _) (.inr rfl) (hB.both hs₁)
    | crashed hs₁ => exact .alike rfl (.same _) (.inr rfl) hs₁
    | lost hw hs₁ => exact .alike rfl (.lost _ _) (.inl hw) (hB.lost hw hs₁)
    | excused he => exact .excused rfl he List.nil_prefix

/-- Replies that agree have runs alike. -/
theorem Bond.Answer.run (hB : B.Counted) {s s' : RunState} (hs : B.state s s') {r r' : Reply}
    (h : B.Answer P (TupleStream.Sim B P) r r') : B.Like r.run r'.run := by
  have hsim : (TupleStream.of fun _ => r).Sim B P (.of fun _ => r') :=
    TupleStream.sim_iff.2 fun _ _ _ => h
  exact hsim.run hB _ hs

/-! ## Preparations -/

/-- What an attempt came to. -/
def Attempt.outcome {α : Type} (a : Attempt α) : Outcome α := (a.result, a.state)

theorem Attempt.outcome_map {α β : Type} (f : α → β) (a : Attempt α) :
    (a.map f).outcome = Outcome.map f a.outcome := rfl

namespace TupleStream.Sim

/-- Only the first attempt counts, since no stream is pulled after a crash. -/
theorem retrying {prepare prepare' : List TupleStream → RunState → Attempt TupleStream}
    {n : Nat} {inputs inputs' : List TupleStream}
    (h : ∀ s s', B.state s s' →
      B.Agree (Sim B P) (prepare inputs s).outcome (prepare' inputs' s').outcome) :
    (TupleStream.retrying prepare (n + 1) inputs).Sim B P
      (TupleStream.retrying prepare' (n + 1) inputs') := by
  refine sim_iff.2 fun s s' hs => ?_
  have ho := h s s' hs
  rw [pull_retrying, pull_retrying]
  simp only [Attempt.outcome] at ho
  generalize (prepare inputs s).result = o, (prepare inputs s).state = s₁ at ho
  generalize (prepare' inputs' s').result = o', (prepare' inputs' s').state = s₁' at ho
  cases ho with
  | ok ht hs₁ => exact ht.answer hs₁
  | failed hf hs₁ => exact .ofFailure hf hs₁
  | excused he => exact .excused he

theorem afterOthers_nil {α β : Type} (prepare : List TupleStream → RunState → Attempt α)
    (go : α → TupleStream → TupleStream) (prepare' : List TupleStream → RunState → Attempt β)
    (go' : β → TupleStream → TupleStream) :
    (TupleStream.afterOthers prepare go []).Sim B P (TupleStream.afterOthers prepare' go' []) :=
  retrying (n := UInt64.size - 1) fun _ _ hs => .ok ended hs

theorem afterOthers {α β : Type} {ρ : α → β → Prop}
    {prepare : List TupleStream → RunState → Attempt α} {go : α → TupleStream → TupleStream}
    {prepare' : List TupleStream → RunState → Attempt β} {go' : β → TupleStream → TupleStream}
    {first first' : TupleStream} {others others' : List TupleStream}
    (h : ∀ s s', B.state s s' →
      B.Agree ρ (prepare others s).outcome (prepare' others' s').outcome)
    (hgo : ∀ a b, ρ a b → (go a first).Sim B P (go' b first')) :
    (TupleStream.afterOthers prepare go (first :: others)).Sim B P
      (TupleStream.afterOthers prepare' go' (first' :: others')) := by
  refine retrying (n := UInt64.size - 1) fun s s' hs => ?_
  exact (h s s' hs).map hgo

end TupleStream.Sim

end QueryEngine
