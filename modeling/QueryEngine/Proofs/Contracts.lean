import QueryEngine.Proofs.Lowering

/-!
# Contracts

A contract says what pulls on a stream may do: to which states a run may come, how a pull may fail
and which tuples it gives. It binds every pull, in whatever state the stream is pulled, on all that
is left after a tuple, at an end and, if it is lasting, after a crash. Each way of building streams
from others keeps a contract, so that the streams of a plan meet one whenever the expressions that
its operators evaluate do.
-/

set_option autoImplicit false

namespace QueryEngine

structure Contract where
  /-- To which states a run may come from a state. -/
  leads : RunState → RunState → Prop
  /-- How a pull in a state may fail. -/
  allows : RunState → ExecutionError → Prop
  /-- Whether what is left after a crash is bound as well. -/
  lasting : Prop
  trans : ∀ {s s' s''}, leads s s' → leads s' s'' → leads s s''
  of_bindings : ∀ {s s' : RunState}, s'.bindings = s.bindings → leads s s'
  earlier : ∀ {s s' e}, leads s s' → allows s' e → allows s e
  others : ∀ {s e}, (∀ cause, e ≠ .binding cause) → allows s e

namespace Contract

variable (C : Contract) {s s' : RunState}

theorem refl (s : RunState) : C.leads s s := C.of_bindings rfl

/-- Whether a failure is allowed; every crash is. -/
def Permits (s : RunState) : Failure → Prop
  | .error e => C.allows s e
  | .crashed _ => True

/-- Whether the results of the sub-query of a group may be bound. -/
def Binds (g : GroupId) : Prop :=
  ∀ (s : RunState) vs, C.leads s { s with bindings := s.bindings.setSubquery g vs }

variable {C}

theorem Permits.before {f : Failure} (hs : C.leads s s') (h : C.Permits s' f) : C.Permits s f := by
  cases f with
  | error e => exact C.earlier hs h
  | crashed c => trivial

theorem permits_storage (s : RunState) (cause : StorageError) :
    C.Permits s (.error (.storage cause)) :=
  C.others fun _ h => nomatch h

theorem permits_lifted {α : Type} {r : Except Crash α} {f : Failure} (h : Crash.lifted r = .error f)
    (s : RunState) : C.Permits s f := by
  cases r with
  | ok a => cases h
  | error c =>
    cases h
    trivial

end Contract

mutual

/-- Whether a stream meets a contract and gives tuples with the property `P`. -/
def TupleStream.Meets (C : Contract) (P : Tuple → Prop) : TupleStream → Prop
  | .ended => True
  | .of pull => ∀ s, Reply.Meets C P (pull s) s

/-- The same of a reply to a pull in a state. -/
def Reply.Meets (C : Contract) (P : Tuple → Prop) : Reply → RunState → Prop
  | .row u s' rest, s => P u ∧ C.leads s s' ∧ TupleStream.Meets C P rest
  | .finished s' rest, s => C.leads s s' ∧ TupleStream.Meets C P rest
  | .failed e s', s => C.allows s e ∧ C.leads s s'
  | .crashed _ s' rest, s => C.leads s s' ∧ (C.lasting → TupleStream.Meets C P rest)

end

/-- Whether a computation meets a contract and comes to a result with the property `Q`. -/
structure Outcome.Meets {α : Type} (C : Contract) (Q : α → Prop) (o : Outcome α) (s : RunState) :
    Prop where
  leads : C.leads s o.2
  ok : ∀ a, o.1 = .ok a → Q a
  error : ∀ f, o.1 = .error f → C.Permits s f

/-- The same of what reading several streams came to, with the property `I` of what was left of
them. -/
structure Attempt.Meets {α : Type} (C : Contract) (Q : α → List TupleStream → Prop)
    (I : List TupleStream → Prop) (a : Attempt α) (s : RunState) : Prop where
  leads : C.leads s a.state
  ok : ∀ x, a.result = .ok x → Q x a.inputs
  error : ∀ f, a.result = .error f → C.Permits s f
  left : C.lasting → I a.inputs

/-- A verdict on a tuple that a transducer may come to. -/
def Verdict.Meets {σ : Type} (C : Contract) (Q : Tuple → Prop) (v : Verdict σ) (s : RunState) :
    Prop :=
  match v with
  | .emit u _ => Q u
  | .drop _ => True
  | .fail f => C.Permits s f

/-- A transducer that makes tuples with the property `Q` from tuples with the property `P`. -/
structure Transducer.Meets {σ : Type} (C : Contract) (P Q : Tuple → Prop) (m : Transducer σ) :
    Prop where
  ready : ∀ a e, m.isReady a = .error e → ∀ s, C.allows s e
  leads : ∀ a u s, P u → C.leads s (m.step a u s).2
  verdict : ∀ a u s, P u → (m.step a u s).1.Meets C Q s

section Parts

variable {C : Contract} {P Q : Tuple → Prop} {s s' : RunState}

namespace Outcome.Meets

variable {α β : Type} {p : α → Prop} {q : β → Prop}

theorem of_ok {a : α} (ha : p a) (hs : C.leads s s') : Outcome.Meets C p (.ok a, s') s :=
  ⟨hs, fun _ he => Except.ok.inj he ▸ ha, (fun _ he => nomatch he)⟩

theorem of_error {f : Failure} (hf : C.Permits s f) (hs : C.leads s s') :
    Outcome.Meets C p ((.error f, s') : Outcome α) s :=
  ⟨hs, (fun _ he => nomatch he), fun _ he => Except.error.inj he ▸ hf⟩

theorem map {f : α → β} {o : Outcome α} (h : Outcome.Meets C p o s) (hf : ∀ a, p a → q (f a)) :
    Outcome.Meets C q (Outcome.map f o) s := by
  obtain ⟨r, s'⟩ := o
  cases r with
  | ok a => exact of_ok (hf a (h.ok a rfl)) h.leads
  | error e => exact of_error (h.error e rfl) h.leads

theorem before {o : Outcome α} (hs : C.leads s s') (h : Outcome.Meets C p o s') :
    Outcome.Meets C p o s :=
  ⟨C.trans hs h.leads, h.ok, fun f hf => (h.error f hf).before hs⟩

end Outcome.Meets

namespace Attempt.Meets

variable {α β : Type} {p : α → List TupleStream → Prop} {q : β → List TupleStream → Prop}
  {I : List TupleStream → Prop}

theorem of_ok {x : α} {ts : List TupleStream} (hx : p x ts) (hs : C.leads s s')
    (hts : C.lasting → I ts) : Attempt.Meets C p I ⟨.ok x, ts, s'⟩ s :=
  ⟨hs, fun _ he => Except.ok.inj he ▸ hx, (fun _ he => nomatch he), hts⟩

theorem of_error {f : Failure} {ts : List TupleStream} (hf : C.Permits s f) (hs : C.leads s s')
    (hts : C.lasting → I ts) :
    Attempt.Meets C p I (⟨.error f, ts, s'⟩ : Attempt α) s :=
  ⟨hs, (fun _ he => nomatch he), fun _ he => Except.error.inj he ▸ hf, hts⟩

theorem map {f : α → β} {a : Attempt α} (h : a.Meets C p I s)
    (hf : ∀ x ts, p x ts → q (f x) ts) : (a.map f).Meets C q I s := by
  obtain ⟨r, left, s'⟩ := a
  cases r with
  | ok x => exact of_ok (hf x left (h.ok x rfl)) h.leads h.left
  | error e => exact of_error (h.error e rfl) h.leads h.left

theorem before {a : Attempt α} (hs : C.leads s s') (h : a.Meets C p I s') : a.Meets C p I s :=
  ⟨C.trans hs h.leads, h.ok, fun f hf => (h.error f hf).before hs, h.left⟩

/-- One more stream was read before the others. -/
theorem after {J : List TupleStream → Prop} {p' : α → List TupleStream → Prop} {a : Attempt α}
    (h : a.Meets C p I s) {left : TupleStream} (hp : ∀ x ts, p x ts → p' x (left :: ts))
    (hJ : C.lasting → ∀ ts, I ts → J (left :: ts)) : (a.after left).Meets C p' J s :=
  ⟨h.leads, fun x hx => hp x a.inputs (h.ok x hx), h.error, fun hl => hJ hl _ (h.left hl)⟩

end Attempt.Meets

namespace Verdict.Meets

variable {σ α : Type}

theorem ofResult {r : Except Failure α} {judge : α → Verdict σ}
    (hok : ∀ a, r = .ok a → (judge a).Meets C Q s) (herror : ∀ f, r = .error f → C.Permits s f) :
    (Verdict.ofResult r judge).Meets C Q s := by
  cases r with
  | ok a => exact hok a rfl
  | error f => exact herror f rfl

/-- A step that may crash fails in no other way. -/
theorem ofLifted {r : Except Crash α} {judge : α → Verdict σ}
    (hok : ∀ a, r = .ok a → (judge a).Meets C Q s) :
    (Verdict.ofResult (Crash.lifted r) judge).Meets C Q s :=
  ofResult (fun a ha => hok a (Crash.lifted_eq_ok.1 ha)) fun _ hf => Contract.permits_lifted hf s

end Verdict.Meets

theorem Transducer.Meets.steady {σ : Type} {step : σ → Tuple → RunState → Verdict σ × RunState}
    (h : ∀ a u s, P u → C.leads s (step a u s).2 ∧ (step a u s).1.Meets C Q s) :
    (Transducer.steady step).Meets C P Q :=
  ⟨(fun _ _ he => nomatch he), fun a u s hu => (h a u s hu).1, fun a u s hu => (h a u s hu).2⟩

theorem Reply.Meets.before {r : Reply} (hs : C.leads s s') (h : r.Meets C P s') :
    r.Meets C P s := by
  cases r with
  | row u s₁ rest => exact ⟨h.1, C.trans hs h.2.1, h.2.2⟩
  | finished s₁ rest => exact ⟨C.trans hs h.1, h.2⟩
  | failed e s₁ => exact ⟨C.earlier hs h.1, C.trans hs h.2⟩
  | crashed c s₁ rest => exact ⟨C.trans hs h.1, h.2⟩

theorem Reply.Meets.ofFailure {f : Failure} (hf : C.Permits s f) (hs : C.leads s s')
    {rest : TupleStream} (hrest : C.lasting → rest.Meets C P) :
    (Reply.ofFailure f s' rest).Meets C P s := by
  cases f with
  | error e => exact ⟨hf, hs⟩
  | crashed c => exact ⟨hs, hrest⟩

end Parts

/-! ## Combinators -/

namespace TupleStream.Meets

variable {C : Contract} {P Q : Tuple → Prop} {s s' : RunState} {t : TupleStream}

theorem ended : TupleStream.ended.Meets C P := trivial

theorem pull (h : t.Meets C P) (s : RunState) : (t.pull s).Meets C P s := by
  cases t with
  | ended => exact ⟨C.refl s, trivial⟩
  | of pull => exact h s

theorem of_pull (h : ∀ s, (t.pull s).Meets C P s) : t.Meets C P := by
  cases t with
  | ended => exact ended
  | of pull => exact h

theorem mono (hPQ : ∀ u, P u → Q u) (t : TupleStream) : t.Meets C P → t.Meets C Q := by
  induction t using inductRests with
  | ended => exact id
  | of pull ih =>
    intro h s
    have hs := h s
    have rests := ih s
    generalize pull s = r at hs rests
    cases r with
    | row u s' rest => exact ⟨hPQ u hs.1, hs.2.1, rests rest rfl hs.2.2⟩
    | finished s' rest => exact ⟨hs.1, rests rest rfl hs.2⟩
    | failed e s' => exact hs
    | crashed c s' rest => exact ⟨hs.1, fun hl => rests rest rfl (hs.2 hl)⟩

theorem ofList {us : List Tuple} (h : ∀ u ∈ us, P u) : (TupleStream.ofList us).Meets C P := by
  induction us with
  | nil => exact ended
  | cons u us ih =>
    intro s
    exact ⟨h u List.mem_cons_self, C.refl s, ih fun v hv => h v (List.mem_cons_of_mem _ hv)⟩

theorem deferred {start : RunState → Outcome TupleStream}
    (h : ∀ s, (start s).Meets C (TupleStream.Meets C P) s) :
    (TupleStream.deferred start).Meets C P := by
  apply of_pull
  intro s
  obtain ⟨hs, ht, hf⟩ := h s
  simp only [TupleStream.deferred, pull_of]
  generalize start s = o at hs ht hf
  obtain ⟨f | t, s'⟩ := o
  · exact .ofFailure (hf f rfl) hs fun _ => ended
  · exact ((ht t rfl).pull s').before hs

theorem transduce {σ : Type} {m : Transducer σ} (hm : m.Meets C P Q) (t : TupleStream) :
    t.Meets C P → ∀ a, (t.transduce m a).Meets C Q := by
  induction t using inductRests with
  | ended => exact fun _ _ => ended
  | of pull ih =>
    intro h a
    apply of_pull
    intro s
    simp only [TupleStream.transduce, pull_of]
    split
    · rename_i e he
      exact ⟨hm.ready a e he s, C.refl s⟩
    · exact ⟨C.refl s, ended⟩
    · have hs := h s
      have rests := ih s
      generalize pull s = r at hs rests
      cases r with
      | finished s' rest => exact ⟨hs.1, rests rest rfl hs.2 _⟩
      | failed e s' => exact hs
      | crashed c s' rest => exact ⟨hs.1, fun hl => rests rest rfl (hs.2 hl) a⟩
      | row u s' rest =>
        obtain ⟨hu, hs', hrest⟩ := hs
        have hafter := C.trans hs' (hm.leads a u s' hu)
        have hverdict := hm.verdict a u s' hu
        simp only [Reply.transduce]
        generalize m.step a u s' = judged at hverdict hafter
        obtain ⟨verdict, s''⟩ := judged
        cases verdict with
        | emit v next => exact ⟨hverdict, hafter, rests rest rfl hrest next⟩
        | drop next => exact ((rests rest rfl hrest next).pull s'').before hafter
        | fail f => exact .ofFailure (.before hs' hverdict) hafter fun _ => rests rest rfl hrest a

theorem steady {σ : Type} {step : σ → Tuple → RunState → Verdict σ × RunState} (h : t.Meets C P)
    (hstep : ∀ a u s, P u → C.leads s (step a u s).2 ∧ (step a u s).1.Meets C Q s) (a : σ) :
    (t.transduce (.steady step) a).Meets C Q :=
  transduce (.steady hstep) t h a

theorem drain {σ : Type} {step : σ → Tuple → RunState → Outcome σ} {holds : σ → Prop}
    (hstep : ∀ a u s, holds a → P u → (step a u s).Meets C holds s) (t : TupleStream) :
    t.Meets C P → ∀ {a}, holds a → ∀ s,
      Outcome.Meets C holds ((t.drain step a s).result, (t.drain step a s).state) s ∧
        (C.lasting → (t.drain step a s).rest.Meets C P) := by
  induction t using inductRests with
  | ended => exact fun _ _ ha s => ⟨.of_ok ha (C.refl s), fun _ => ended⟩
  | of pull ih =>
    intro h a ha s
    have hs := h s
    have rests := ih s
    simp only [TupleStream.drain]
    generalize pull s = r at hs rests
    cases r with
    | finished s' rest => exact ⟨.of_ok ha hs.1, fun _ => hs.2⟩
    | failed e s' => exact ⟨.of_error hs.1 hs.2, fun _ => ended⟩
    | crashed c s' rest => exact ⟨.of_error trivial hs.1, hs.2⟩
    | row u s' rest =>
      obtain ⟨hu, hs', hrest⟩ := hs
      have hnext := hstep a u s' ha hu
      simp only [Reply.drain]
      generalize step a u s' = o at hnext
      obtain ⟨f | next, s''⟩ := o
      · exact ⟨.of_error (.before hs' (hnext.error f rfl)) (C.trans hs' hnext.leads),
          fun _ => hrest⟩
      · obtain ⟨hlast, hleft⟩ := rests rest rfl hrest (hnext.ok next rfl) s''
        exact ⟨.before (C.trans hs' hnext.leads) hlast, hleft⟩

theorem consume {σ : Type} {step : σ → Tuple → RunState → Outcome σ} {holds : σ → Prop}
    (h : t.Meets C P) (hstep : ∀ a u s, holds a → P u → (step a u s).Meets C holds s)
    {a : σ} (ha : holds a) (s : RunState) : (t.consume step a s).Meets C holds s :=
  (drain hstep t h ha s).1

theorem reduce {σ : Type} {step : σ → Tuple → Except Failure σ} {holds : σ → Prop}
    (h : t.Meets C P) (hok : ∀ a u b, holds a → P u → step a u = .ok b → holds b)
    (herror : ∀ a u f s, step a u = .error f → C.Permits s f) {a : σ} (ha : holds a)
    (s : RunState) : (t.reduce step a s).Meets C holds s := by
  refine h.consume (fun a u s ha hu => ⟨C.refl s, fun b hb => ?_, fun f hf => ?_⟩) ha s
  · exact hok a u b ha hu hb
  · exact herror a u f s hf

/-- Reading a stream by a step that fails in no way but by a crash. -/
theorem reduceLifted {σ : Type} {step : σ → Tuple → Except Crash σ} {holds : σ → Prop}
    (h : t.Meets C P) (hok : ∀ a u b, holds a → P u → step a u = .ok b → holds b) {a : σ}
    (ha : holds a) (s : RunState) :
    (t.reduce (fun a u => Crash.lifted (step a u)) a s).Meets C holds s :=
  h.reduce (fun a u b ha hu hb => hok a u b ha hu (Crash.lifted_eq_ok.1 hb))
    (fun _ _ _ s hf => Contract.permits_lifted hf s) ha s

theorem append (t : TupleStream) : t.Meets C P → ∀ {next : TupleStream}, next.Meets C P →
    (t.append next).Meets C P := by
  induction t using inductRests with
  | ended => exact fun _ _ hnext => hnext
  | of pull ih =>
    intro h next hnext s
    have hs := h s
    have rests := ih s
    show Reply.Meets C P ((pull s).append next) s
    generalize pull s = r at hs rests
    cases r with
    | row u s' rest => exact ⟨hs.1, hs.2.1, rests rest rfl hs.2.2 hnext⟩
    | finished s' rest => exact (hnext.pull s').before hs.1
    | failed e s' => exact hs
    | crashed c s' rest => exact ⟨hs.1, fun hl => rests rest rfl (hs.2 hl) hnext⟩

theorem concat {ts : List TupleStream} (h : ∀ t ∈ ts, t.Meets C P) :
    (TupleStream.concat ts).Meets C P := by
  induction ts with
  | nil => exact ended
  | cons t ts ih =>
    exact append t (h t List.mem_cons_self) (ih fun u hu => h u (List.mem_cons_of_mem _ hu))

theorem onWorker (group : GroupId) (t : TupleStream) :
    t.Meets C P → (t.onWorker group).Meets C P := by
  induction t using inductRests with
  | ended => exact id
  | of pull ih =>
    intro h s
    have hs := h s
    have rests := ih s
    show Reply.Meets C P ((pull s).onWorker group) s
    generalize pull s = r at hs rests
    cases r with
    | row u s' rest => exact ⟨hs.1, hs.2.1, rests rest rfl hs.2.2⟩
    | finished s' rest => exact ⟨hs.1, ended⟩
    | failed e s' => exact hs
    | crashed c s' rest => exact ⟨C.others (fun _ he => nomatch he), hs.1⟩

/-- Preparations that are repeated on what earlier ones have left. -/
theorem retrying {prepare : List TupleStream → RunState → Attempt TupleStream}
    {I : List TupleStream → Prop}
    (h : ∀ inputs, I inputs → ∀ s, (prepare inputs s).Meets C (fun t _ => t.Meets C P) I s)
    (times : Nat) {inputs : List TupleStream} (hI : I inputs) :
    (TupleStream.retrying prepare times inputs).Meets C P := by
  induction times generalizing inputs with
  | zero => exact ended
  | succ times ih =>
    apply of_pull
    intro s
    have hs := h inputs hI s
    rw [pull_retrying]
    split
    · rename_i t hr
      exact ((hs.ok t hr).pull _).before hs.leads
    · rename_i f hr
      exact .ofFailure (hs.error f hr) hs.leads fun hl => ih (hs.left hl)

/-- Whether the first of several streams meets a contract, and the others are as told. -/
def First (C : Contract) (P : Tuple → Prop) (I : List TupleStream → Prop) :
    List TupleStream → Prop
  | [] => True
  | first :: others => first.Meets C P ∧ I others

theorem afterOthers {α : Type} {prepare : List TupleStream → RunState → Attempt α}
    {go : α → TupleStream → TupleStream} {holds : α → Prop} {I : List TupleStream → Prop}
    (h : ∀ others, I others → ∀ s, (prepare others s).Meets C (fun a _ => holds a) I s)
    (hgo : ∀ a first, holds a → first.Meets C P → (go a first).Meets C Q)
    {inputs : List TupleStream} (hinputs : First C P I inputs) :
    (TupleStream.afterOthers prepare go inputs).Meets C Q := by
  refine retrying (I := First C P I) (fun inputs hI s => ?_) _ hinputs
  cases inputs with
  | nil => exact .of_ok ended (C.refl s) fun _ => trivial
  | cons first others =>
    obtain ⟨hfirst, hothers⟩ := hI
    have hmap := (h others hothers s).map (q := fun t _ => t.Meets C Q) (f := fun a => go a first)
      fun a _ ha => hgo a first ha hfirst
    exact hmap.after (fun _ _ ht => ht) fun _ _ hts => ⟨hfirst, hts⟩

/-! ## Ordered merges -/

open StreamBundle

theorem merged {order : SortOrder} (b : StreamBundle) :
    ∀ {places : List (Option TupleStream)} {heads : Heads}, b = ofPlaces places →
      (∀ t, some t ∈ places → t.Meets C P) → (∀ x ∈ heads, P x.2) →
      (b.merged order heads).Meets C P := by
  induction b using StreamBundle.inductRests with
  | step b ih =>
    intro places heads hb hplaces hheads
    apply of_pull
    intro s
    cases heads with
    | nil =>
      rw [pull_merged_nil]
      exact ⟨C.refl s, ended⟩
    | cons head heads =>
      obtain ⟨i, t⟩ := head
      have ht : P t := hheads _ List.mem_cons_self
      have hheads' : ∀ x ∈ heads, P x.2 := fun x hx => hheads x (List.mem_cons_of_mem _ hx)
      have hset {left : Option TupleStream} (hleft : ∀ u, left = some u → u.Meets C P) :
          ∀ u, some u ∈ places.set i left → u.Meets C P := by
        intro u hu
        rcases List.mem_or_eq_of_mem_set hu with hu | hu
        · exact hplaces u hu
        · exact hleft u hu.symm
      have hsome {rest : TupleStream} (hrest : rest.Meets C P) :
          ∀ u, some u ∈ places.set i (some rest) → u.Meets C P :=
        hset fun u hu => Option.some.inj hu ▸ hrest
      have rests := ih i s
      rw [pull_merged_cons]
      have hpull : b.pull i s = _ := hb ▸ pull_ofPlaces places i s
      rw [hpull] at rests ⊢
      cases hplace : places[i]? with
      | none => exact ⟨C.refl s, ended⟩
      | some place =>
        cases place with
        | none => exact ⟨C.refl s, ended⟩
        | some u =>
          have hu := (hplaces u (List.mem_of_getElem? hplace)).pull s
          simp only [hplace] at rests ⊢
          generalize u.pull s = r at hu rests
          cases r with
          | failed e s' => exact hu
          | crashed c s' rest =>
            exact ⟨hu.1, fun hl => rests _ rfl rfl (hsome (hu.2 hl)) hheads'⟩
          | finished s' rest =>
            refine ⟨ht, hu.1, rests _ rfl rfl (hset fun v hv => ?_) hheads'⟩
            cases u with
            | ended => cases hv
            | of pull =>
              cases hv
              exact hu.2
          | row v s' rest =>
            obtain ⟨hv, hs', hrest⟩ := hu
            simp only [answer, BundleReply.mergedAfter]
            cases hadd : addHead order i v heads with
            | error c =>
              -- The tuple that was pulled is kept behind the others.
              refine ⟨hs', fun _ => rests _ rfl rfl (hsome hrest) fun x hx => ?_⟩
              rcases List.mem_append.1 hx with hx | hx
              · exact hheads' x hx
              · exact List.mem_singleton.1 hx ▸ hv
            | ok found =>
              refine ⟨ht, hs', rests _ rfl rfl (hsome hrest) fun x hx => ?_⟩
              rcases List.mem_cons.1 ((addHead_perm hadd).mem_iff.1 hx) with rfl | hx
              · exact hv
              · exact hheads' x hx

/-- Whether all of several streams meet a contract. -/
def All (C : Contract) (P : Tuple → Prop) (ts : List TupleStream) : Prop := ∀ t ∈ ts, t.Meets C P

theorem All.cons {ts : List TupleStream} (ht : t.Meets C P) (hts : All C P ts) :
    All C P (t :: ts) :=
  List.forall_mem_cons.2 ⟨ht, hts⟩

theorem firstTuples {order : SortOrder} {inputs : List TupleStream} :
    All C P inputs → ∀ {i : Nat} {heads : Heads}, (∀ x ∈ heads, P x.2) →
      ∀ s, (TupleStream.firstTuples order i inputs heads s).Meets C
        (fun found left => (∀ x ∈ found, P x.2) ∧ All C P left) (All C P) s := by
  induction inputs with
  | nil =>
    intro h i heads hheads s
    exact .of_ok ⟨hheads, h⟩ (C.refl s) fun _ => h
  | cons t rest ih =>
    intro h i heads hheads s
    obtain ⟨hinput, hrest⟩ := List.forall_mem_cons.1 h
    have ht := hinput.pull s
    have hafter {left : TupleStream} (hleft : left.Meets C P) {heads : Heads}
        (hheads : ∀ x ∈ heads, P x.2) {s' : RunState} (hs' : C.leads s s') :
        ((TupleStream.firstTuples order (i + 1) rest heads s').after left).Meets C
          (fun found left => (∀ x ∈ found, P x.2) ∧ All C P left) (All C P) s :=
      ((ih hrest hheads s').before hs').after (fun _ _ hx => ⟨hx.1, .cons hleft hx.2⟩)
        fun _ _ hts => .cons hleft hts
    simp only [TupleStream.firstTuples]
    generalize t.pull s = r at ht
    cases r with
    | failed e s' => exact .of_error ht.1 ht.2 fun _ => h
    | crashed c s' left => exact .of_error trivial ht.1 fun hl => .cons (ht.2 hl) hrest
    | finished s' left => exact hafter ht.2 hheads ht.1
    | row u s' left =>
      obtain ⟨hu, hs', hleft⟩ := ht
      simp only
      cases hadd : addHead order i u heads with
      | error c => exact .of_error trivial hs' fun _ => .cons hleft hrest
      | ok found =>
        refine hafter hleft (fun x hx => ?_) hs'
        rcases List.mem_cons.1 ((addHead_perm hadd).mem_iff.1 hx) with rfl | hx
        · exact hu
        · exact hheads x hx

theorem startMerge {order : SortOrder} {inputs : List TupleStream} (h : All C P inputs)
    (s : RunState) : (TupleStream.startMerge order inputs s).Meets C (fun t _ => t.Meets C P)
      (All C P) s := by
  have hnone : ∀ x ∈ ([] : Heads), P x.2 := fun x hx => nomatch hx
  have hfound : (TupleStream.firstTuples order 0 inputs [] s).Meets C
      (fun found left => (∀ x ∈ found, P x.2) ∧ All C P left) (All C P) s :=
    firstTuples h hnone s
  have hmerged {heads : Heads} {left : List TupleStream} (hheads : ∀ x ∈ heads, P x.2)
      (hleft : All C P left) : ((StreamBundle.ofList left).merged order heads).Meets C P := by
    rw [ofList_eq_ofPlaces]
    refine merged _ rfl (fun t ht => ?_) hheads
    obtain ⟨u, hu, he⟩ := List.mem_map.1 ht
    exact Option.some.inj he ▸ hleft u hu
  simp only [TupleStream.startMerge]
  generalize TupleStream.firstTuples order 0 inputs [] s = found at hfound
  obtain ⟨f | heads, left, s'⟩ := found
  · exact .of_error (hfound.error f rfl) hfound.leads hfound.left
  · obtain ⟨hheads, hleft⟩ := hfound.ok heads rfl
    exact .of_ok (hmerged hheads hleft) hfound.leads hfound.left

theorem mergeSorted {order : SortOrder} {inputs : List TupleStream} (h : All C P inputs) :
    (TupleStream.mergeSorted order inputs).Meets C P :=
  retrying (fun _ hI s => startMerge hI s) _ h

end TupleStream.Meets

end QueryEngine
