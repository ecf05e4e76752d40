import QueryEngine.Execution.Sorting
import QueryEngine.Proofs.Simulation

/-!
# Bundles as lists of streams

A bundle made from a list of streams behaves like the list: a pull on the stream of a number
changes that place and no other. A place is empty once its stream has ended for good.
-/

set_option autoImplicit false

namespace QueryEngine

/-- What is left of a bundle after a reply. -/
def BundleReply.rest? : BundleReply → Option StreamBundle
  | .row _ _ rest => some rest
  | .finished _ rest => some rest
  | .failed _ _ => none
  | .crashed _ _ rest => some rest
  | .absent _ => none

namespace StreamBundle

def pull : StreamBundle → Nat → RunState → BundleReply
  | of pull => pull

/-- The bundle of a list of places. -/
def ofPlaces : List (Option TupleStream) → StreamBundle
  | [] => empty
  | place :: rest =>
    match place with
    | some t => t.bundle (ofPlaces rest)
    | none => (ofPlaces rest).shift fun s _ => .absent s

theorem ofList_eq_ofPlaces (streams : List TupleStream) :
    ofList streams = ofPlaces (streams.map some) := by
  induction streams with
  | nil => rfl
  | cons t rest ih => exact congrArg t.bundle ih

/-- What is left of the place of a stream at its end. -/
def placeAtEnd : TupleStream → TupleStream → Option TupleStream
  | .ended, _ => none
  | .of _, rest => some rest

/-- The answer of a bundle to a pull on one of its places. -/
def answer (places : List (Option TupleStream)) (i : Nat) (t : TupleStream) : Reply → BundleReply
  | .row u s rest => .row u s (ofPlaces (places.set i (some rest)))
  | .finished s rest => .finished s (ofPlaces (places.set i (placeAtEnd t rest)))
  | .failed e s => .failed e s
  | .crashed c s rest => .crashed c s (ofPlaces (places.set i (some rest)))

theorem pull_shift_zero (first : RunState → StreamBundle → BundleReply) (b : StreamBundle)
    (s : RunState) : (b.shift first).pull 0 s = first s b := by
  cases b with
  | of pull => rfl

theorem pull_shift_succ (first : RunState → StreamBundle → BundleReply) (b : StreamBundle)
    (i : Nat) (s : RunState) : (b.shift first).pull (i + 1) s = (b.pull i s).shift first := by
  cases b with
  | of pull => rfl

theorem pull_ofPlaces (places : List (Option TupleStream)) (i : Nat) (s : RunState) :
    (ofPlaces places).pull i s =
      match places[i]? with
      | some (some t) => answer places i t (t.pull s)
      | _ => .absent s := by
  induction places generalizing i with
  | nil => rfl
  | cons place rest ih =>
    cases i with
    | zero =>
      cases place with
      | none => exact pull_shift_zero _ _ s
      | some t =>
        cases t with
        | ended => exact pull_shift_zero _ _ s
        | of pull =>
          refine (pull_shift_zero _ _ s).trans ?_
          simp only [List.getElem?_cons_zero, TupleStream.pull_of]
          cases pull s <;> rfl
    | succ i =>
      have hshift : ∀ place : Option TupleStream, ∃ first,
          ∀ rest, ofPlaces (place :: rest) = (ofPlaces rest).shift first := by
        intro place
        cases place with
        | none => exact ⟨_, fun _ => rfl⟩
        | some t =>
          cases t with
          | ended => exact ⟨_, fun _ => rfl⟩
          | of pull => exact ⟨_, fun _ => rfl⟩
      obtain ⟨first, hfirst⟩ := hshift place
      rw [hfirst, pull_shift_succ, ih, List.getElem?_cons_succ]
      cases rest[i]? with
      | none => rfl
      | some left =>
        cases left with
        | none => rfl
        | some t =>
          simp only
          cases t.pull s with
          | row u s rest => exact congrArg (BundleReply.row u s) (hfirst _).symm
          | finished s rest => exact congrArg (BundleReply.finished s) (hfirst _).symm
          | failed e s => rfl
          | crashed c s rest => exact congrArg (BundleReply.crashed c s) (hfirst _).symm

/-- What holds of a bundle whenever it holds of all that can be left of it holds of every bundle. -/
theorem inductRests {motive : StreamBundle → Prop}
    (step : ∀ b, (∀ i s rest, (b.pull i s).rest? = some rest → motive rest) → motive b)
    (b : StreamBundle) : motive b :=
  onBundle b
where
  onBundle : ∀ b, motive b
    | .of pull => step (.of pull) fun i s => onReply (pull i s)
  onReply : ∀ (r : BundleReply) rest, r.rest? = some rest → motive rest
    | .row _ _ left, _, h => Option.some.inj h ▸ onBundle left
    | .finished _ left, _, h => Option.some.inj h ▸ onBundle left
    | .crashed _ _ left, _, h => Option.some.inj h ▸ onBundle left
    | .failed _ _, _, h => nomatch h
    | .absent _, _, h => nomatch h

/-- The same where it is enough to know all that is left after a tuple or at an end. -/
theorem induct {motive : StreamBundle → Prop}
    (step : ∀ b, (∀ i s u s' rest, b.pull i s = .row u s' rest → motive rest) →
      (∀ i s s' rest, b.pull i s = .finished s' rest → motive rest) → motive b)
    (b : StreamBundle) : motive b := by
  induction b using inductRests with
  | step b ih =>
    refine step b (fun i s u s' rest h => ih i s rest ?_) fun i s s' rest h => ih i s rest ?_
    · exact congrArg BundleReply.rest? h
    · exact congrArg BundleReply.rest? h

theorem pull_merged_nil (order : SortOrder) (b : StreamBundle) (s : RunState) :
    (b.merged order []).pull s = .finished s .ended := by
  cases b with
  | of pull => rfl

theorem pull_merged_cons (order : SortOrder) (b : StreamBundle) (i : Nat) (t : Tuple)
    (heads : Heads) (s : RunState) :
    (b.merged order ((i, t) :: heads)).pull s = (b.pull i s).mergedAfter order i t heads := by
  cases b with
  | of pull => rfl

theorem addHead_perm {order : SortOrder} {i : Nat} {t : Tuple} {heads found : Heads}
    (h : addHead order i t heads = .ok found) : found.Perm ((i, t) :: heads) := by
  induction heads generalizing found with
  | nil =>
    cases h
    exact .refl _
  | cons head rest ih =>
    obtain ⟨j, u⟩ := head
    unfold addHead at h
    cases hc : order.compareTuples t u with
    | error c => simp [hc, bind, Except.bind] at h
    | ok o =>
      cases hr : addHead order i t rest with
      | error c =>
        cases o <;> simp only [hc, hr, bind, Except.bind, pure, Except.pure] at h
        · cases h
          exact .refl _
        · split at h <;> cases h
          exact .refl _
        · cases h
      | ok later =>
        have hswap : ((j, u) :: later).Perm ((i, t) :: (j, u) :: rest) :=
          ((ih hr).cons (j, u)).trans (.swap _ _ _)
        cases o <;> simp only [hc, hr, bind, Except.bind, pure, Except.pure] at h
        · cases h
          exact .refl _
        · split at h <;> cases h
          · exact .refl _
          · exact hswap
        · cases h
          exact hswap

/-- Only the stream of the first tuple is left differently. -/
theorem getElem?_set_heads {places : List (Option TupleStream)} {heads : Heads} {i : Nat}
    {u : Tuple} (h : (((i, u) :: heads).map (·.1)).Nodup) {x : Nat × Tuple} (hx : x ∈ heads)
    {place : Option TupleStream} : (places.set i place)[x.1]? = places[x.1]? := by
  apply List.getElem?_set_ne
  intro he
  apply (List.nodup_cons.1 h).1
  exact List.mem_map.2 ⟨x, hx, he.symm⟩

/-- A further stream is none of those of the next tuples. -/
theorem length_not_mem_heads {done : List TupleStream} {heads : Heads}
    (h : ∀ x ∈ heads, ∃ t, (done.map some)[x.1]? = some (some t)) :
    done.length ∉ heads.map (·.1) := by
  intro hmem
  obtain ⟨x, hx, he⟩ := List.mem_map.1 hmem
  obtain ⟨t, hplace⟩ := h x hx
  have hlt := (List.getElem?_eq_some_iff.1 hplace).1
  rw [List.length_map] at hlt
  omega

end StreamBundle

/-! ## Simulations of merges -/

section Simulations

open StreamBundle

variable {B : Bond} {P : Tuple → Prop}

/-- The next tuples stand for places of two lists whose streams simulate each other. -/
structure StreamBundle.Paired (B : Bond) (P : Tuple → Prop) (places places' : List (Option TupleStream))
    (heads : Heads) : Prop where
  nodup : (heads.map (·.1)).Nodup
  pair : ∀ h ∈ heads, P h.2 ∧ ∃ t t', places[h.1]? = some (some t) ∧ places'[h.1]? = some (some t') ∧
    t.Sim B P t'

namespace StreamBundle.Paired

variable {places places' : List (Option TupleStream)} {heads found : Heads}

theorem perm (h : Paired B P places places' heads) (hp : found.Perm heads) :
    Paired B P places places' found :=
  ⟨(hp.map _).nodup_iff.2 h.nodup, fun x hx => h.pair x (hp.mem_iff.1 hx)⟩

theorem tail {i : Nat} {t : Tuple} (h : Paired B P places places' ((i, t) :: heads))
    (place place' : Option TupleStream) :
    Paired B P (places.set i place) (places'.set i place') heads := by
  refine ⟨(List.nodup_cons.1 h.nodup).2, fun x hx => ?_⟩
  rw [getElem?_set_heads h.nodup hx, getElem?_set_heads h.nodup hx]
  exact h.pair x (List.mem_cons_of_mem _ hx)

theorem next {i : Nat} {t u : Tuple} {left left' : TupleStream}
    (h : Paired B P places places' ((i, t) :: heads)) (hu : P u) (hl : left.Sim B P left') :
    Paired B P (places.set i (some left)) (places'.set i (some left')) ((i, u) :: heads) := by
  obtain ⟨_, t₀, t₀', hp, hp', _⟩ := h.pair (i, t) List.mem_cons_self
  have hi := (List.getElem?_eq_some_iff.1 hp).1
  have hi' := (List.getElem?_eq_some_iff.1 hp').1
  refine ⟨h.nodup, fun x hx => ?_⟩
  rcases List.mem_cons.1 hx with rfl | hx
  · exact ⟨hu, left, left', List.getElem?_set_self hi, List.getElem?_set_self hi', hl⟩
  · exact (h.tail _ _).pair x hx

end StreamBundle.Paired

theorem TupleStream.Sim.merged {order : SortOrder} (b : StreamBundle) :
    ∀ {places places' : List (Option TupleStream)} {heads : Heads}, b = ofPlaces places →
      Paired B P places places' heads →
      (b.merged order heads).Sim B P ((ofPlaces places').merged order heads) := by
  induction b using StreamBundle.induct with
  | step b ihRow ihEnd =>
    intro places places' heads hb hpair
    refine sim_iff.2 fun s s' hs => ?_
    cases heads with
    | nil =>
      rw [pull_merged_nil, pull_merged_nil]
      exact .finished hs
    | cons head heads =>
      obtain ⟨i, t⟩ := head
      obtain ⟨ht, u, u', hp, hp', hsim⟩ := hpair.pair (i, t) List.mem_cons_self
      rw [pull_merged_cons, pull_merged_cons]
      have rests := ihRow i s
      have ends := ihEnd i s
      have hpull : b.pull i s = StreamBundle.answer places i u (u.pull s) := by
        rw [hb, pull_ofPlaces]
        simp only [hp]
      have hpull' : (ofPlaces places').pull i s' = StreamBundle.answer places' i u' (u'.pull s') := by
        rw [pull_ofPlaces]
        simp only [hp']
      rw [hpull] at rests ends ⊢
      rw [hpull']
      have ha := hsim.answer hs
      generalize u.pull s = r at ha rests ends
      generalize u'.pull s' = r' at ha
      cases ha with
      | @row v s₁ s₁' left left' hv hs₁ hl =>
        simp only [StreamBundle.answer, BundleReply.mergedAfter]
        have hnext := hpair.next hv hl
        cases hadd : addHead order i v heads with
        | error c => exact .crashed hs₁
        | ok found =>
          exact .row ht hs₁ (rests v s₁ _ rfl rfl (hnext.perm (addHead_perm hadd)))
      | finished hs₁ => exact .row ht hs₁ (ends _ _ rfl rfl (hpair.tail _ _))
      | failed hs₁ => exact .failed hs₁
      | crashed hs₁ => exact .crashed hs₁
      | lost hw hs₁ => exact .lost hw hs₁
      | excused he => exact .excused he

/-- The tuples found in streams that are numbered from `i` on, with what is left of the streams. -/
structure StreamBundle.Opened (B : Bond) (P : Tuple → Prop) (i : Nat)
    (left left' : List TupleStream) (new : Heads) : Prop where
  nodup : (new.map (·.1)).Nodup
  pair : ∀ h ∈ new, P h.2 ∧ i ≤ h.1 ∧ ∃ t t', left[h.1 - i]? = some t ∧ left'[h.1 - i]? = some t' ∧
    t.Sim B P t'

namespace StreamBundle.Opened

variable {i : Nat} {t t' : TupleStream} {left left' : List TupleStream} {new : Heads}

theorem nil : Opened B P i left left' [] := ⟨List.nodup_nil, fun _ h => nomatch h⟩

theorem skip (h : Opened B P (i + 1) left left' new) : Opened B P i (t :: left) (t' :: left') new := by
  refine ⟨h.nodup, fun x hx => ?_⟩
  obtain ⟨hu, hi, u, u', hp, hp', hsim⟩ := h.pair x hx
  have he : x.1 - i = x.1 - (i + 1) + 1 := by omega
  refine ⟨hu, by omega, u, u', ?_, ?_, hsim⟩
  · rw [he, List.getElem?_cons_succ, hp]
  · rw [he, List.getElem?_cons_succ, hp']

theorem cons {u : Tuple} (hu : P u) (ht : t.Sim B P t') (h : Opened B P (i + 1) left left' new) :
    Opened B P i (t :: left) (t' :: left') ((i, u) :: new) := by
  constructor
  · refine List.nodup_cons.2 ⟨fun hmem => ?_, h.nodup⟩
    obtain ⟨x, hx, he⟩ := List.mem_map.1 hmem
    obtain ⟨_, hi, _⟩ := h.pair x hx
    have hlt : x.1 = i := he
    omega
  · intro x hx
    rcases List.mem_cons.1 hx with rfl | hx
    · exact ⟨hu, Nat.le_refl _, t, t', by simp, by simp, ht⟩
    · exact h.skip.pair x hx

theorem paired (h : Opened B P 0 left left' new) :
    Paired B P (left.map some) (left'.map some) new := by
  refine ⟨h.nodup, fun x hx => ?_⟩
  obtain ⟨hu, _, u, u', hp, hp', hsim⟩ := h.pair x hx
  rw [Nat.sub_zero] at hp hp'
  exact ⟨hu, u, u', by simp [hp], by simp [hp'], hsim⟩

end StreamBundle.Opened

/-- The outcome of an attempt with what was left of the inputs. -/
def Attempt.leaving {α : Type} (a : Attempt α) : Outcome (α × List TupleStream) :=
  (a.result.map fun x => (x, a.inputs), a.state)

theorem Attempt.leaving_after {α : Type} (left : TupleStream) (a : Attempt α) :
    (a.after left).leaving = Outcome.map (fun x => (x.1, left :: x.2)) a.leaving := by
  obtain ⟨result, inputs, state⟩ := a
  cases result <;> rfl

theorem TupleStream.Sim.firstTuples {order : SortOrder} {inputs inputs' : List TupleStream}
    (h : List.Forall₂ (Sim B P) inputs inputs') :
    ∀ {i : Nat} {heads : Heads} {s s' : RunState}, B.state s s' →
      B.Agree (fun x x' => x.1 = x'.1 ∧ ∃ new, x.1.Perm (new ++ heads) ∧ Opened B P i x.2 x'.2 new)
        (TupleStream.firstTuples order i inputs heads s).leaving
        (TupleStream.firstTuples order i inputs' heads s').leaving := by
  induction h with
  | nil => exact fun hs => .ok ⟨rfl, [], .refl _, .nil⟩ hs
  | @cons t t' rest rest' ht _ ih =>
    intro i heads s s' hs
    have ha := ht.answer hs
    simp only [TupleStream.firstTuples]
    generalize t.pull s = r at ha
    generalize t'.pull s' = r' at ha
    cases ha with
    | @row u s₁ s₁' left left' hu hs₁ hl =>
      simp only
      cases hadd : addHead order i u heads with
      | error c => exact .failed (.same _) hs₁
      | ok found =>
        simp only [Attempt.leaving_after]
        refine (ih hs₁).map ?_
        rintro x x' ⟨he, new, hp, ho⟩
        refine ⟨he, (i, u) :: new, ?_, ho.cons hu hl⟩
        exact (hp.trans ((addHead_perm hadd).append_left new)).trans List.perm_middle
    | finished hs₁ =>
      simp only [Attempt.leaving_after]
      refine (ih hs₁).map ?_
      rintro x x' ⟨he, new, hp, ho⟩
      exact ⟨he, new, hp, ho.skip⟩
    | failed hs₁ => exact .failed (.same _) hs₁
    | crashed hs₁ => exact .failed (.same _) hs₁
    | lost hw hs₁ => exact .failed (.lost _ _ hw) hs₁
    | excused he => exact .excused he

/-- A merge starts from the tuples found first, over what is left of the streams. -/
theorem TupleStream.outcome_startMerge (order : SortOrder) (inputs : List TupleStream)
    (s : RunState) : (TupleStream.startMerge order inputs s).outcome =
      Outcome.map (fun x => (StreamBundle.ofPlaces (x.2.map some)).merged order x.1)
        (TupleStream.firstTuples order 0 inputs [] s).leaving := by
  simp only [TupleStream.startMerge, Attempt.outcome_map, ofList_eq_ofPlaces]
  generalize TupleStream.firstTuples order 0 inputs [] s = found
  obtain ⟨result, left, state⟩ := found
  cases result <;> rfl

theorem TupleStream.Sim.startMerge {order : SortOrder} {inputs inputs' : List TupleStream}
    (h : List.Forall₂ (Sim B P) inputs inputs') {s s' : RunState} (hs : B.state s s') :
    B.Agree (Sim B P) (TupleStream.startMerge order inputs s).outcome
      (TupleStream.startMerge order inputs' s').outcome := by
  rw [outcome_startMerge, outcome_startMerge]
  refine (firstTuples (i := 0) h hs).map ?_
  rintro ⟨found, left⟩ ⟨found', left'⟩ ⟨he, new, hp, ho⟩
  simp only at he hp ho ⊢
  subst he
  rw [List.append_nil] at hp
  exact merged _ rfl (ho.paired.perm hp)

theorem TupleStream.Sim.mergeSorted {order : SortOrder} {inputs inputs' : List TupleStream}
    (h : List.Forall₂ (Sim B P) inputs inputs') :
    (TupleStream.mergeSorted order inputs).Sim B P (TupleStream.mergeSorted order inputs') :=
  retrying (n := UInt64.size - 1) fun _ _ hs => startMerge h hs

end Simulations

end QueryEngine
