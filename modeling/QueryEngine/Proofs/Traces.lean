import QueryEngine.Proofs.Emission
import QueryEngine.Proofs.Merges
import QueryEngine.Proofs.Views

/-!
# Streams up to the order of their tuples

A stream of a plan that only reads gives tuples, each in a view. Tuples that are given in one view
may come in any order, and may be told apart by their row numbers or not. A stream that fails on the
way need not give what it would have given.
-/

set_option autoImplicit false

namespace QueryEngine

/-! ## Traces -/

/-- The tuples of a stream, each with the view in which it is given. -/
abbrev Trace := List (View × Tuple)

/-- Traces that differ in the order of neighbours that are given in one view. -/
inductive Shuffle : Trace → Trace → Prop
  | nil : Shuffle [] []
  | cons (x : View × Tuple) {L L' : Trace} : Shuffle L L' → Shuffle (x :: L) (x :: L')
  | swap (e : View) (u v : Tuple) (L : Trace) :
    Shuffle ((e, u) :: (e, v) :: L) ((e, v) :: (e, u) :: L)
  | trans {L L' L'' : Trace} : Shuffle L L' → Shuffle L' L'' → Shuffle L L''

namespace Trace

/-- Tuples that are given in one view. -/
def inView (e : View) (us : List Tuple) : Trace := us.map (e, ·)

/-- What becomes of a trace whose tuples are changed or left out, each by itself. -/
def choose (g : View → Tuple → Option Tuple) (L : Trace) : Trace :=
  L.filterMap fun x => (g x.1 x.2).map (x.1, ·)

open scoped Classical in
/-- The first tuple of each row of values that is wanted. -/
noncomputable def firsts (wanted : List Value → Prop) : List (List Value) → Trace → Trace
  | _, [] => []
  | seen, x :: L =>
    if wanted x.2.values ∧ x.2.values ∉ seen then x :: firsts wanted (x.2.values :: seen) L
    else firsts wanted seen L

variable {wanted : List Value → Prop} {seen seen' : List (List Value)} {L : Trace}

theorem choose_cons (g : View → Tuple → Option Tuple) (e : View) (u : Tuple) (L : Trace) :
    choose g ((e, u) :: L) =
      match g e u with
      | some v => (e, v) :: choose g L
      | none => choose g L := by
  rw [choose, List.filterMap_cons]
  cases g e u <;> rfl

theorem mem_choose {g : View → Tuple → Option Tuple} {y : View × Tuple} :
    y ∈ choose g L ↔ ∃ u, (y.1, u) ∈ L ∧ g y.1 u = some y.2 := by
  obtain ⟨e, v⟩ := y
  simp only [choose, List.mem_filterMap, Option.map_eq_some_iff, Prod.exists, Prod.mk.injEq]
  constructor
  · rintro ⟨e', u, hmem, w, hw, rfl, rfl⟩
    exact ⟨u, hmem, hw⟩
  · rintro ⟨u, hmem, hw⟩
    exact ⟨e, u, hmem, v, hw, rfl, rfl⟩

theorem forall_mem_inView {P : Tuple → Prop} {e : View} {us : List Tuple} :
    (∀ y ∈ inView e us, P y.2) ↔ ∀ u ∈ us, P u := List.forall_mem_map

theorem choose_inView (g : View → Tuple → Option Tuple) (e : View) (us : List Tuple) :
    choose g (inView e us) = inView e (us.filterMap (g e)) := by
  induction us with
  | nil => rfl
  | cons u us ih =>
    rw [inView, List.map_cons, ← inView, choose_cons, ih, List.filterMap_cons]
    cases g e u <;> rfl

theorem firsts_cons_pos {x : View × Tuple} (h : wanted x.2.values ∧ x.2.values ∉ seen) :
    firsts wanted seen (x :: L) = x :: firsts wanted (x.2.values :: seen) L :=
  if_pos h

theorem firsts_cons_neg {x : View × Tuple} (h : ¬ (wanted x.2.values ∧ x.2.values ∉ seen)) :
    firsts wanted seen (x :: L) = firsts wanted seen L :=
  if_neg h

theorem firsts_subset : ∀ y ∈ firsts wanted seen L, y ∈ L := by
  induction L generalizing seen with
  | nil => exact fun y hy => hy
  | cons x L ih =>
    intro y hy
    by_cases hx : wanted x.2.values ∧ x.2.values ∉ seen
    · rw [firsts_cons_pos hx] at hy
      rcases List.mem_cons.1 hy with rfl | hy
      · exact List.mem_cons_self
      · exact List.mem_cons_of_mem _ (ih y hy)
    · rw [firsts_cons_neg hx] at hy
      exact List.mem_cons_of_mem _ (ih y hy)

theorem firsts_congr (h : ∀ r, r ∈ seen ↔ r ∈ seen') :
    firsts wanted seen L = firsts wanted seen' L := by
  induction L generalizing seen seen' with
  | nil => rfl
  | cons x L ih =>
    have hmore : ∀ r, r ∈ x.2.values :: seen ↔ r ∈ x.2.values :: seen' := by
      intro r
      rw [List.mem_cons, List.mem_cons, h r]
    by_cases hx : wanted x.2.values ∧ x.2.values ∉ seen
    · have hx' : wanted x.2.values ∧ x.2.values ∉ seen' := ⟨hx.1, fun hm => hx.2 ((h _).2 hm)⟩
      rw [firsts_cons_pos hx, firsts_cons_pos hx', ih hmore]
    · have hx' : ¬ (wanted x.2.values ∧ x.2.values ∉ seen') :=
        fun hx' => hx ⟨hx'.1, fun hm => hx'.2 ((h _).1 hm)⟩
      rw [firsts_cons_neg hx, firsts_cons_neg hx', ih h]

end Trace

namespace Shuffle

open Trace

variable {L L' M M' : Trace}

theorem refl : ∀ L : Trace, Shuffle L L
  | [] => .nil
  | x :: L => .cons x (refl L)

theorem perm (h : Shuffle L L') : L.Perm L' := by
  induction h with
  | nil => exact .nil
  | cons x _ ih => exact ih.cons x
  | swap e u v L => exact .swap (e, v) (e, u) L
  | trans _ _ ih ih' => exact ih.trans ih'

theorem views_eq (h : Shuffle L L') : L.map Prod.fst = L'.map Prod.fst := by
  induction h with
  | nil => rfl
  | cons x _ ih => rw [List.map_cons, List.map_cons, ih]
  | swap e u v L => rfl
  | trans _ _ ih ih' => exact ih.trans ih'

theorem nil_eq (h : Shuffle [] L) : L = [] := h.perm.nil_eq.symm

theorem append_right (h : Shuffle L L') (M : Trace) : Shuffle (L ++ M) (L' ++ M) := by
  induction h with
  | nil => exact .refl M
  | cons x _ ih => exact ih.cons x
  | swap e u v L => exact .swap e u v (L ++ M)
  | trans _ _ ih ih' => exact ih.trans ih'

theorem choose (g : View → Tuple → Option Tuple) (h : Shuffle L L') :
    Shuffle (choose g L) (choose g L') := by
  induction h with
  | nil => exact .nil
  | cons x _ ih =>
    obtain ⟨e, u⟩ := x
    rw [choose_cons, choose_cons]
    cases g e u with
    | none => exact ih
    | some u' => exact ih.cons _
  | swap e u v L =>
    simp only [choose_cons]
    cases g e u <;> cases g e v
    · exact .refl _
    · exact .refl _
    · exact .refl _
    · exact .swap e _ _ _
  | trans _ _ ih ih' => exact ih.trans ih'

/-- The first tuples of each row of values, where tuples of one row of values are equal. -/
theorem firsts {wanted : List Value → Prop} {P : Tuple → Prop}
    (hP : ∀ u v, P u → P v → u.values = v.values → u = v) (h : Shuffle L L') :
    ∀ {seen}, (∀ y ∈ L, P y.2) → Shuffle (firsts wanted seen L) (firsts wanted seen L') := by
  induction h with
  | nil => exact fun _ => .nil
  | cons x _ ih =>
    intro seen hL
    have hrest := fun y hy => hL y (List.mem_cons_of_mem _ hy)
    by_cases hx : wanted x.2.values ∧ x.2.values ∉ seen
    · rw [firsts_cons_pos hx, firsts_cons_pos hx]
      exact (ih hrest).cons x
    · rw [firsts_cons_neg hx, firsts_cons_neg hx]
      exact ih hrest
  | swap e u v L =>
    intro seen hL
    by_cases huv : u.values = v.values
    · rw [hP u v (hL (e, u) (by simp)) (hL (e, v) (by simp)) huv]
      exact .refl _
    · have hvu : v.values ≠ u.values := Ne.symm huv
      have hboth : Trace.firsts wanted (u.values :: v.values :: seen) L =
          Trace.firsts wanted (v.values :: u.values :: seen) L := by
        apply firsts_congr
        intro r
        rw [List.mem_cons, List.mem_cons, List.mem_cons, List.mem_cons]
        exact or_left_comm
      have hu' : wanted u.values ∧ u.values ∉ v.values :: seen ↔
          wanted u.values ∧ u.values ∉ seen := by simp [huv]
      have hv' : wanted v.values ∧ v.values ∉ u.values :: seen ↔
          wanted v.values ∧ v.values ∉ seen := by simp [hvu]
      by_cases hu : wanted u.values ∧ u.values ∉ seen
      · by_cases hv : wanted v.values ∧ v.values ∉ seen
        · rw [firsts_cons_pos hu, firsts_cons_pos (hv'.2 hv), firsts_cons_pos hv,
            firsts_cons_pos (hu'.2 hu), hboth]
          exact .swap e u v _
        · rw [firsts_cons_pos hu, firsts_cons_neg (mt hv'.1 hv), firsts_cons_neg hv,
            firsts_cons_pos hu]
          exact .refl _
      · by_cases hv : wanted v.values ∧ v.values ∉ seen
        · rw [firsts_cons_neg hu, firsts_cons_pos hv, firsts_cons_pos hv,
            firsts_cons_neg (mt hu'.1 hu)]
          exact .refl _
        · rw [firsts_cons_neg hu, firsts_cons_neg hv, firsts_cons_neg hv, firsts_cons_neg hu]
          exact .refl _
  | trans h _ ih ih' =>
    intro seen hL
    exact (ih hL).trans (ih' fun y hy => hL y (h.perm.mem_iff.2 hy))

theorem inView (e : View) {us vs : List Tuple} (h : us.Perm vs) :
    Shuffle (inView e us) (inView e vs) := by
  induction h with
  | nil => exact .nil
  | cons u _ ih => exact ih.cons _
  | swap u v us => exact .swap e v u _
  | trans _ _ ih ih' => exact ih.trans ih'

end Shuffle

/-! ## What streams draw -/

/-- A tuple as it is told apart from others: with its row number or without. -/
def Tuple.seen (numbered : Bool) (u : Tuple) : Tuple := if numbered then u else u.unnumbered

namespace Tuple

variable (n : Bool) (u : Tuple)

theorem values_seen : (u.seen n).values = u.values := by
  cases n <;> rfl

theorem columns_seen : (u.seen n).columns = u.columns := by
  cases n <;> rfl

theorem unnumbered_seen : (u.seen n).unnumbered = u.unnumbered := by
  cases n <;> rfl

variable {n} in
theorem seen_seen {m : Bool} (h : m = true → n = true) : (u.seen n).seen m = u.seen m := by
  cases n
  · cases m
    · rfl
    · exact absurd (h rfl) Bool.false_ne_true
  · rfl

end Tuple

mutual

/-- Whether a stream that is pulled from a view on gives a trace, up to the order of what it gives in
one view, and comes to its end in a further view, unless it fails before. -/
def TupleStream.Draws (c : Frame) (n : Bool) : TupleStream → View → Trace → View → Prop
  | .ended, e, L, e' => ∀ s : RunState, s.Shows c e → L = [] ∧ s.Shows c e'
  | .of pull, e, L, e' => ∀ s, s.Shows c e → (pull s).Draws c n L e'

def Reply.Draws (c : Frame) (n : Bool) : Reply → Trace → View → Prop
  | .row u s rest, L, e' => ∃ e L₁, s.Shows c e ∧ Shuffle ((e, u.seen n) :: L₁) L ∧
      rest.Draws c n e L₁ e'
  | .finished s _, L, e' => L = [] ∧ s.Shows c e'
  | .failed _ _, _, _ => True
  | .crashed _ _ _, _, _ => True

end

/-- Whether the verdict on a tuple is as a trace is changed there. -/
inductive Verdict.Follows {σ : Type} (c : Frame) (n : Bool) (F : σ → Trace → Trace) (a : σ)
    (e : View) (u : Tuple) : Verdict σ × RunState → Prop
  | emit {v next s} : s.Shows c e → (∀ L, F a ((e, u.seen n) :: L) = (e, v.seen n) :: F next L) →
    Follows c n F a e u (.emit v next, s)
  | drop {next s} : s.Shows c e → (∀ L, F a ((e, u.seen n) :: L) = F next L) →
    Follows c n F a e u (.drop next, s)
  | fail {f s} : Follows c n F a e u (.fail f, s)

section

variable {c : Frame} {n : Bool} {e e₁ e' : View} {L L' M : Trace} {s : RunState}

namespace Reply.Draws

theorem shuffle {r : Reply} (h : r.Draws c n L e') (hL : Shuffle L L') : r.Draws c n L' e' := by
  cases r with
  | row u s rest =>
    obtain ⟨e, L₁, hs, hL₁, hrest⟩ := h
    exact ⟨e, L₁, hs, hL₁.trans hL, hrest⟩
  | finished s rest =>
    obtain ⟨rfl, hs⟩ := h
    exact ⟨hL.nil_eq, hs⟩
  | failed f s => trivial
  | crashed f s rest => trivial

theorem ofFailure (f : Failure) (s : RunState) (rest : TupleStream) :
    (Reply.ofFailure f s rest).Draws c n L e' := by
  cases f <;> trivial

end Reply.Draws

namespace TupleStream

theorem draws_iff {t : TupleStream} :
    t.Draws c n e L e' ↔ ∀ s, s.Shows c e → (t.pull s).Draws c n L e' := by
  cases t <;> rfl

namespace Draws

variable {t : TupleStream}

theorem pull (h : t.Draws c n e L e') (hs : s.Shows c e) : (t.pull s).Draws c n L e' :=
  draws_iff.1 h s hs

theorem shuffle (h : t.Draws c n e L e') (hL : Shuffle L L') : t.Draws c n e L' e' :=
  draws_iff.2 fun _ hs => (h.pull hs).shuffle hL

theorem lists {us : List Tuple} (h : t.Lists us) (e : View) :
    t.Draws c n e (Trace.inView e (us.map (·.seen n))) e := by
  induction us generalizing t with
  | nil =>
    refine draws_iff.2 fun s hs => ?_
    obtain ⟨rest, hr⟩ := h s
    rw [hr]
    exact ⟨rfl, hs⟩
  | cons u us ih =>
    refine draws_iff.2 fun s hs => ?_
    obtain ⟨rest, hr, hrest⟩ := h s
    rw [hr]
    exact ⟨e, _, hs, .refl _, ih hrest⟩

/-- What is emitted while sub-queries are bound is given in the view of the first pull. -/
theorem ofEmits {us : List Tuple}
    (h : t.Emits (fun _ => True) (fun _ => False) true us s) (hs : s.Shows c e) :
    t.Draws c n e (Trace.inView e (us.map (·.seen n))) e := by
  have hsame {s s' : RunState} (hs : s.Shows c e) (h : s'.SameBut (fun _ => False) s) :
      s'.Shows c e := by
    refine ⟨h.store.trans hs.store, h.slots.trans hs.slots, fun g => ?_⟩
    rw [← hs.results g, Bindings.resultSet, Bindings.resultSet, h.subqueries g id]
  induction us generalizing t s with
  | nil =>
    refine draws_iff.2 fun s₁ hs₁ => ?_
    have hsame₁ : s₁.SameBut (fun _ => True) s :=
      ⟨hs₁.store.trans hs.store.symm, hs₁.slots.trans hs.slots.symm, fun _ hg => (hg trivial).elim⟩
    obtain ⟨s', rest, hr, hs'⟩ := h s₁ hsame₁
    rw [hr]
    exact ⟨rfl, hsame hs₁ hs'⟩
  | cons u us ih =>
    refine draws_iff.2 fun s₁ hs₁ => ?_
    have hsame₁ : s₁.SameBut (fun _ => True) s :=
      ⟨hs₁.store.trans hs.store.symm, hs₁.slots.trans hs.slots.symm, fun _ hg => (hg trivial).elim⟩
    obtain ⟨s', rest, hr, hs', hrest⟩ := h s₁ hsame₁
    rw [hr]
    exact ⟨e, _, hsame hs₁ hs', .refl _, ih hrest (hsame hs₁ hs')⟩

theorem deferred {start : RunState → Outcome TupleStream}
    (h : ∀ s, s.Shows c e → ∀ t s', start s = (.ok t, s') →
      ∃ e₁, s'.Shows c e₁ ∧ t.Draws c n e₁ L e') :
    (TupleStream.deferred start).Draws c n e L e' := by
  refine draws_iff.2 fun s hs => ?_
  have hstart := h s hs
  simp only [TupleStream.deferred, pull_of]
  generalize start s = o at hstart
  obtain ⟨f | t, s'⟩ := o
  · exact .ofFailure f s' _
  · obtain ⟨e₁, hs', ht⟩ := hstart t s' rfl
    exact ht.pull hs'

theorem afterOthers {α : Type} {prepare : List TupleStream → RunState → Attempt α}
    {go : α → TupleStream → TupleStream} {first : TupleStream} {others : List TupleStream}
    (h : ∀ s, s.Shows c e → ∀ a, (prepare others s).result = .ok a →
      ∃ e₁, (prepare others s).state.Shows c e₁ ∧ (go a first).Draws c n e₁ L e') :
    (TupleStream.afterOthers prepare go (first :: others)).Draws c n e L e' := by
  have hpulls : unbounded = (unbounded - 1) + 1 := rfl
  rw [TupleStream.afterOthers, hpulls]
  refine draws_iff.2 fun s hs => ?_
  rw [pull_retrying]
  have hprepared := h s hs
  simp only [Attempt.map, Attempt.after]
  generalize prepare others s = found at hprepared
  obtain ⟨f | a, left, s'⟩ := found
  · exact .ofFailure f s' _
  · obtain ⟨e₁, hs', ht⟩ := hprepared a rfl
    exact ht.pull hs'

/-- A transducer changes traces as its verdicts do tuple by tuple. -/
theorem transduce {σ : Type} {m : Transducer σ} {P : Tuple → Prop} {F : σ → Trace → Trace}
    (hready : ∀ a, m.isReady a ≠ .ok false) (hnil : ∀ a, F a [] = [])
    (hshuffle : ∀ {L L'}, (∀ y ∈ L, P y.2) → Shuffle L L' → ∀ a, Shuffle (F a L) (F a L'))
    (hstep : ∀ {s e u}, s.Shows c e → P (u.seen n) → ∀ a,
      Verdict.Follows c n F a e u (m.step a u s))
    (t : TupleStream) : ∀ {e L}, t.Draws c n e L e' → (∀ y ∈ L, P y.2) →
      ∀ a, (t.transduce m a).Draws c n e (F a L) e' := by
  induction t using TupleStream.induct with
  | step t ih =>
    intro e L h hP a
    refine draws_iff.2 fun s hs => ?_
    have hr := h.pull hs
    have rests := ih s
    cases ha : m.isReady a with
    | error f =>
      cases t with
      | ended =>
        obtain ⟨rfl, hs'⟩ := hr
        rw [hnil]
        exact ⟨rfl, hs'⟩
      | of pull =>
        simp only [TupleStream.transduce, pull_of, ha]
        trivial
    | ok ready =>
      cases ready with
      | false => exact absurd ha (hready a)
      | true =>
        rw [pull_transduce ha, if_pos rfl]
        generalize t.pull s = r at hr rests
        cases r with
        | failed f s' => trivial
        | crashed f s' rest => trivial
        | finished s' rest =>
          obtain ⟨rfl, hs'⟩ := hr
          rw [hnil]
          exact ⟨rfl, hs'⟩
        | row u s' rest =>
          obtain ⟨e₁, L₁, hs', hL₁, hrest⟩ := hr
          have hP₁ : ∀ y ∈ (e₁, u.seen n) :: L₁, P y.2 := fun y hy => hP y (hL₁.perm.mem_iff.1 hy)
          have hverdict := hstep hs' (hP₁ _ List.mem_cons_self) a
          have hF := hshuffle hP₁ hL₁ a
          have hrest' := rests _ _ _ rfl hrest fun y hy => hP₁ y (List.mem_cons_of_mem _ hy)
          simp only [Reply.transduce]
          generalize m.step a u s' = verdict at hverdict
          cases hverdict with
          | @emit v next s'' hs'' he => exact ⟨e₁, _, hs'', he L₁ ▸ hF, hrest' next⟩
          | @drop next s'' hs'' he => exact ((hrest' next).pull hs'').shuffle (he L₁ ▸ hF)
          | @fail f s'' => exact .ofFailure f s'' _

/-- Reading a stream to its end takes the tuples of its trace and comes to its last view. -/
theorem drain {σ : Type} {step : σ → Tuple → RunState → Outcome σ}
    (hstep : ∀ {s e u s' a b}, s.Shows c e → step a u s = (.ok b, s') → s'.Shows c e)
    (t : TupleStream) : ∀ {e L s a b}, t.Draws c n e L e' → s.Shows c e →
      (t.drain step a s).result = .ok b → (t.drain step a s).state.Shows c e' ∧
        ((t.taken step a s).map (·.seen n)).Perm (L.map Prod.snd) := by
  induction t using TupleStream.induct with
  | step t ih =>
    intro e L s a b h hs
    rw [drain_eq, taken_eq]
    have hr := h.pull hs
    have rests := ih s
    generalize t.pull s = r at hr rests
    cases r with
    | failed f s' =>
      intro hok
      cases hok
    | crashed f s' rest =>
      intro hok
      cases hok
    | finished s' rest =>
      obtain ⟨rfl, hs'⟩ := hr
      exact fun _ => ⟨hs', .refl _⟩
    | row u s' rest =>
      obtain ⟨e₁, L₁, hs', hL₁, hrest⟩ := hr
      simp only [Reply.drain, Reply.taken]
      cases ho : step a u s' with
      | mk r s'' =>
        cases r with
        | error f =>
          intro hok
          cases hok
        | ok next =>
          intro hok
          obtain ⟨hend, htaken⟩ := rests u s' rest rfl hrest (hstep hs' ho) hok
          refine ⟨hend, ?_⟩
          have hmap := hL₁.perm.map Prod.snd
          exact (htaken.cons (u.seen n)).trans hmap

theorem append (t : TupleStream) : ∀ {e L}, t.Draws c n e L e₁ → ∀ {next : TupleStream},
    next.Draws c n e₁ M e' → (t.append next).Draws c n e (L ++ M) e' := by
  induction t using TupleStream.induct with
  | step t ih =>
    intro e L h next hnext
    refine draws_iff.2 fun s hs => ?_
    rw [pull_append]
    have hr := h.pull hs
    have rests := ih s
    generalize t.pull s = r at hr rests
    cases r with
    | failed f s' => trivial
    | crashed f s' rest => trivial
    | finished s' rest =>
      obtain ⟨rfl, hs'⟩ := hr
      exact hnext.pull hs'
    | row u s' rest =>
      obtain ⟨e₂, L₁, hs', hL₁, hrest⟩ := hr
      exact ⟨e₂, L₁ ++ M, hs', hL₁.append_right M, rests u s' rest rfl hrest hnext⟩

/-- What is told apart by row numbers can be told apart without. -/
theorem forget {m : Bool} (hm : m = true → n = true) (t : TupleStream) : ∀ {e L},
    t.Draws c n e L e' → t.Draws c m e (Trace.choose (fun _ u => some (u.seen m)) L) e' := by
  induction t using TupleStream.induct with
  | step t ih =>
    intro e L h
    refine draws_iff.2 fun s hs => ?_
    have hr := h.pull hs
    have rests := ih s
    generalize t.pull s = r at hr rests
    cases r with
    | failed f s' => trivial
    | crashed f s' rest => trivial
    | finished s' rest =>
      obtain ⟨rfl, hs'⟩ := hr
      exact ⟨rfl, hs'⟩
    | row u s' rest =>
      obtain ⟨e₁, L₁, hs', hL₁, hrest⟩ := hr
      refine ⟨e₁, _, hs', ?_, rests u s' rest rfl hrest⟩
      have hchosen := hL₁.choose fun _ u => some (u.seen m)
      rwa [Trace.choose_cons, u.seen_seen hm] at hchosen

/-- A run that comes to its end has the tuples of the trace. -/
theorem run (t : TupleStream) : ∀ {e L s}, t.Draws c n e L e' → s.Shows c e →
    (t.run s).ending = .finished → ((t.run s).rows.map (·.seen n)).Perm (L.map Prod.snd) := by
  induction t using TupleStream.induct with
  | step t ih =>
    intro e L s h hs
    rw [run_eq]
    have hr := h.pull hs
    have rests := ih s
    generalize t.pull s = r at hr rests
    cases r with
    | failed f s' => exact fun hend => nomatch hend
    | crashed f s' rest => exact fun hend => nomatch hend
    | finished s' rest =>
      obtain ⟨rfl, _⟩ := hr
      exact fun _ => .refl _
    | row u s' rest =>
      obtain ⟨e₁, L₁, hs', hL₁, hrest⟩ := hr
      intro hend
      have hrows := rests u s' rest rfl hrest (hs'.count .pull) hend
      exact (hrows.cons (u.seen n)).trans (hL₁.perm.map Prod.snd)

end Draws

end TupleStream

end

end QueryEngine
