import QueryEngine.Proofs.Sorting

/-!
# Gathering

What a way of sorting comes to depends on the tuples that its input gives until it ends or fails, and
on nothing else. Whatever is gathered of them tuple by tuple, a stream that is read this way fails
where reading the bare tuples fails. What is held on the way is told by all that has been gathered
before each pull.
-/

set_option autoImplicit false

namespace QueryEngine

namespace Bond

/-- Runs that cannot be told apart. -/
def same : Bond := ⟨Eq, fun _ => False, False⟩

/-- Runs that differ in their counters only. -/
def uncounted : Bond := ⟨RunState.Recounted, fun _ => False, False⟩

theorem same_counted : same.Counted := ⟨congrArg (RunState.count · .pull), False.elim⟩

theorem uncounted_counted : uncounted.Counted :=
  ⟨fun h => (RunState.Recounted.count _ _).symm.trans (h.trans (.count _ _)), False.elim⟩

/-- Runs that cannot be told apart are one run. -/
theorem Like.eq {r r' : Run} (h : same.Like r r') : r = r' := by
  cases h with
  | alike hrows _ hends hstate =>
    have hend := hends.resolve_left id
    cases r
    cases r'
    cases hrows
    cases hend
    cases hstate
    rfl
  | excused _ he _ => exact he.elim

end Bond

namespace TupleStream

/-- Adds a tuple to those that were found before. -/
def keepAll (found : List Tuple) (u : Tuple) (s : RunState) : Outcome (List Tuple) :=
  (.ok (found ++ [u]), s)

/-- The tuples that a stream gives until it ends or fails. -/
def tuples (t : TupleStream) (s : RunState) : List Tuple := t.taken keepAll [] s

theorem taken_keepAll (t : TupleStream) (found : List Tuple) (s : RunState) :
    t.taken keepAll found s = t.tuples s := by
  unfold tuples
  generalize ([] : List Tuple) = none
  induction t using TupleStream.induct generalizing found none s with
  | step t ih =>
    rw [taken_eq, taken_eq _ t none]
    have rests := ih s
    generalize t.pull s = r at rests
    cases r with
    | row u s₁ rest => exact congrArg (u :: ·) (rests u s₁ rest rfl (found ++ [u]) s₁ (none ++ [u]))
    | finished s₁ rest => rfl
    | failed e s₁ => rfl
    | crashed c s₁ rest => rfl

theorem tuples_of_row {t rest : TupleStream} {u : Tuple} {s s' : RunState}
    (h : t.pull s = .row u s' rest) : t.tuples s = u :: rest.tuples s' := by
  rw [tuples, taken_eq, h]
  exact congrArg (u :: ·) (taken_keepAll rest _ s')

/-! ## What is held -/

end TupleStream

mutual

/-- What has been gathered before each pull when a stream is read. -/
def TupleStream.gatherings {σ : Type} (step : σ → Tuple → RunState → Outcome σ) :
    TupleStream → σ → RunState → List σ
  | .ended, a, _ => [a]
  | .of pull, a, s => a :: (pull s).gatherings step a

def Reply.gatherings {σ : Type} (step : σ → Tuple → RunState → Outcome σ) : Reply → σ → List σ
  | .row u s rest, a =>
    match step a u s with
    | (.ok next, s) => rest.gatherings step next s
    | (.error _, _) => []
  | .finished _ _, _ => []
  | .failed _ _, _ => []
  | .crashed _ _ _, _ => []

end

namespace TupleStream

section

variable {σ : Type} {step : σ → Tuple → RunState → Outcome σ}

theorem gatherings_eq (t : TupleStream) (a : σ) (s : RunState) :
    t.gatherings step a s = a :: (t.pull s).gatherings step a := by
  cases t with
  | ended => rfl
  | of pull => rfl

/-- What every step keeps holds of all that is held. -/
theorem forall_gatherings {holds : σ → Prop}
    (hstep : ∀ a u s next s', holds a → step a u s = (.ok next, s') → holds next)
    (t : TupleStream) : ∀ {a : σ} {s : RunState}, holds a → ∀ b ∈ t.gatherings step a s, holds b := by
  induction t using TupleStream.induct with
  | step t ih =>
    intro a s ha
    rw [gatherings_eq]
    refine List.forall_mem_cons.2 ⟨ha, ?_⟩
    have rests := ih s
    generalize t.pull s = r at rests
    cases r with
    | finished s₁ rest => exact List.forall_mem_nil _
    | failed e s₁ => exact List.forall_mem_nil _
    | crashed c s₁ rest => exact List.forall_mem_nil _
    | row u s₁ rest =>
      simp only [Reply.gatherings]
      rcases hs : step a u s₁ with ⟨f | next, s₂⟩
      · exact List.forall_mem_nil _
      · exact rests u s₁ rest rfl (hstep a u s₁ next s₂ ha hs)

/-- What is held at last is what the reading comes to. -/
theorem getLast?_gatherings (t : TupleStream) : ∀ {a b : σ} {s s' : RunState},
    t.consume step a s = (.ok b, s') → (t.gatherings step a s).getLast? = some b := by
  induction t using TupleStream.induct with
  | step t ih =>
    intro a b s s' h
    rw [consume, drain_eq] at h
    rw [gatherings_eq]
    have rests := ih s
    generalize t.pull s = r at h rests
    cases r with
    | finished s₁ rest =>
      cases h
      rfl
    | failed e s₁ => cases h
    | crashed c s₁ rest => cases h
    | row u s₁ rest =>
      simp only [Reply.drain] at h
      simp only [Reply.gatherings]
      rcases hs : step a u s₁ with ⟨f | next, s₂⟩
      · rw [hs] at h
        cases h
      · rw [hs] at h
        rw [List.getLast?_cons, rests u s₁ rest rfl h]
        rfl

end

/-! ## Reading the tuples -/

namespace Sim

/-- Nothing tells a stream from itself. -/
theorem same (t : TupleStream) : t.Sim Bond.same (fun _ => True) t := by
  induction t using TupleStream.induct with
  | step t ih =>
    refine sim_iff.2 fun s s' hs => ?_
    obtain rfl : s = s' := hs
    have rests := ih s
    generalize t.pull s = r at rests
    cases r with
    | row u s₁ rest => exact .row trivial rfl (rests u s₁ rest rfl)
    | finished s₁ rest => exact .finished rfl
    | failed e s₁ => exact .failed rfl
    | crashed c s₁ rest => exact .crashed rfl

section

variable {B : Bond} {P : Tuple → Prop} {α : Type} {add : α → Tuple → RunState → Outcome α}
  {holds : List Tuple → α → Prop}

theorem gathers_from (t : TupleStream) :
    ∀ {t'}, t.Sim B P t' → ∀ {us : List Tuple} {a : α} {s s' : RunState}, B.state s s' →
      holds us a →
      (∀ vs u b s₁ s₁', vs ++ [u] <+: us ++ t'.tuples s' → B.state s₁ s₁' → holds vs b →
        ∃ b' s₂, add b u s₁ = (.ok b', s₂) ∧ B.state s₂ s₁' ∧ holds (vs ++ [u]) b') →
      B.Agree (fun b found => found = us ++ t'.tuples s' ∧ holds found b)
        (t.consume add a s) (t'.consume keepAll us s') := by
  induction t using TupleStream.induct with
  | step t ih =>
    intro t' h us a s s' hs ha hadd
    simp only [TupleStream.consume, drain_eq _ t, drain_eq _ t']
    have hanswer := h.answer hs
    have rests := ih s
    have htuples : t'.tuples s' = (t'.pull s').taken keepAll us := by
      rw [← taken_keepAll t' us, taken_eq]
    rw [htuples] at hadd ⊢
    generalize t.pull s = r at hanswer rests
    generalize t'.pull s' = r' at hanswer hadd ⊢
    cases hanswer with
    | finished hs₁ => exact .ok ⟨(List.append_nil us).symm, ha⟩ hs₁
    | failed hs₁ => exact .failed (.same _) hs₁
    | crashed hs₁ => exact .failed (.same _) hs₁
    | lost hw hs₁ => exact .failed (.lost _ _ hw) hs₁
    | excused he => exact .excused he
    | @row u s₁ s₁' rest rest' hu hs₁ ht =>
      have hall : us ++ (Reply.row u s₁' rest').taken keepAll us = us ++ [u] ++ rest'.tuples s₁' := by
        simp only [Reply.taken, keepAll, List.append_assoc, List.singleton_append]
        rw [← taken_keepAll rest' (us ++ [u])]
      rw [hall] at hadd ⊢
      obtain ⟨b, s₂, hb, hs₂, hholds⟩ := hadd us u a s₁ s₁' (List.prefix_append _ _) hs₁ ha
      simp only [Reply.drain, hb, keepAll]
      exact rests u s₁ rest rfl ht hs₂ hholds hadd

/-- A step that gathers the tuples of a stream fails where reading the bare tuples fails. -/
theorem gathers {t t' : TupleStream} (h : t.Sim B P t') {a : α} {s s' : RunState}
    (hs : B.state s s') (ha : holds [] a)
    (hadd : ∀ vs u b s₁ s₁', vs ++ [u] <+: t'.tuples s' → B.state s₁ s₁' → holds vs b →
      ∃ b' s₂, add b u s₁ = (.ok b', s₂) ∧ B.state s₂ s₁' ∧ holds (vs ++ [u]) b') :
    B.Agree (fun b found => found = t'.tuples s' ∧ holds found b)
      (t.consume add a s) (t'.consume keepAll [] s') :=
  gathers_from t h hs ha hadd

end

end Sim

/-- Ways of gathering that agree answer alike if they go on alike. -/
theorem answer_gathered {B : Bond} {P : Tuple → Prop} {α β : Type} {ρ : α → β → Prop}
    {add : α → Tuple → RunState → Outcome α} {finish : α → RunState → Outcome TupleStream} {a : α}
    {add' : β → Tuple → RunState → Outcome β} {finish' : β → RunState → Outcome TupleStream} {b : β}
    {t t' : TupleStream} {s s' : RunState}
    (hread : B.Agree ρ (t.consume add a s) (t'.consume add' b s'))
    (hfinish : ∀ x y s₁ s₁', ρ x y → B.state s₁ s₁' →
      B.Agree (Sim B P) (finish x s₁) (finish' y s₁')) :
    B.Answer P (Sim B P) ((t.gathered add finish a).pull s) ((t'.gathered add' finish' b).pull s') := by
  simp only [gathered, deferred, pull_of]
  generalize t.consume add a s = o at hread
  generalize t'.consume add' b s' = o' at hread
  cases hread with
  | failed hf hs => exact .ofFailure hf hs
  | excused he => exact .excused he
  | @ok x y s₁ s₁' hxy hs =>
    have hgo := hfinish x y s₁ s₁' hxy hs
    simp only
    generalize finish x s₁ = o at hgo
    generalize finish' y s₁' = o' at hgo
    cases hgo with
    | ok ht hs₂ => exact ht.answer hs₂
    | failed hf hs₂ => exact .ofFailure hf hs₂
    | excused he => exact .excused he

end TupleStream

end QueryEngine
