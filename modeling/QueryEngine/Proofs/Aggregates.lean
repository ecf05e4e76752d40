import Mathlib.Data.List.Induction
import QueryEngine.Proofs.Fitting
import QueryEngine.Proofs.FunctionColumns
import QueryEngine.Proofs.SetOperators

/-!
# Aggregates

An aggregate reads its input at the first pull, gives one tuple and stays at its end. The least and
the greatest value of a column are told by which of its values beat which others. Among values of one
kind "does not beat" is transitive, and this is all that is used of their order: a fold that keeps the
better value finds the first one that is not beaten, and it does not matter how the values are
grouped.
-/

set_option autoImplicit false

namespace QueryEngine

namespace Value

open Std

/-- Whether all values are of one kind or null. -/
def OneKind (vs : List Value) : Prop := ∀ v ∈ vs, ∀ w ∈ vs, v.SameKind w

instance (vs : List Value) : Decidable (OneKind vs) :=
  inferInstanceAs (Decidable (∀ v ∈ vs, _))

/-- Whether no value beats this one. Nulls do not count. -/
def Unbeaten (wanted : Ordering) (vs : List Value) (v : Value) : Prop :=
  ∀ w ∈ vs, w.isNull = false → w.sortCompare v ≠ wanted

instance (wanted : Ordering) (vs : List Value) (v : Value) : Decidable (Unbeaten wanted vs v) :=
  inferInstanceAs (Decidable (∀ w ∈ vs, _))

/-- The first value that is not null and is not beaten, or null if there are only nulls. -/
inductive IsBest (wanted : Ordering) (vs : List Value) : Value → Prop
  | onlyNulls (hnull : ∀ v ∈ vs, v.isNull = true) : IsBest wanted vs .null
  | first {front back : List Value} {v : Value} (hvs : vs = front ++ v :: back)
      (hv : v.isNull = false) (hbest : Unbeaten wanted vs v)
      (hfront : ∀ u ∈ front, u.isNull = false → ¬ Unbeaten wanted vs u) : IsBest wanted vs v

/-! ## Values that beat others -/

section

variable {wanted : Ordering} {a b c v : Value} {vs : List Value}

theorem SameKind.symm (h : a.SameKind b) : b.SameKind a := by
  rcases h with ha | hb | hk
  · exact .inr (.inl ha)
  · exact .inl hb
  · exact .inr (.inr hk.symm)

theorem not_beats_self (hwanted : wanted ≠ .eq) (v : Value) : v.sortCompare v ≠ wanted := by
  have hself : v.comparePlaces v = .eq := ReflCmp.compare_self
  rw [sortCompare_eq (.inr (.inr rfl)), hself]
  exact hwanted.symm

theorem not_beats_of_beats (hwanted : wanted ≠ .eq) (h : a.sortCompare b = wanted) :
    b.sortCompare a ≠ wanted := by
  rw [sortCompare_swap a b, h]
  cases wanted <;> simp_all

theorem not_beats_trans (hwanted : wanted ≠ .eq) (hab : a.SameKind b) (hbc : b.SameKind c)
    (hac : a.SameKind c) (h : a.sortCompare b ≠ wanted) (h' : b.sortCompare c ≠ wanted) :
    a.sortCompare c ≠ wanted := by
  rw [sortCompare_eq hab] at h
  rw [sortCompare_eq hbc] at h'
  rw [sortCompare_eq hac]
  cases wanted with
  | eq => exact absurd rfl hwanted
  | lt =>
    have hba := OrientedCmp.isLE_of_isGE (Ordering.isGE_iff_ne_lt.2 h)
    have hcb := OrientedCmp.isLE_of_isGE (Ordering.isGE_iff_ne_lt.2 h')
    exact Ordering.isGE_iff_ne_lt.1 (OrientedCmp.isGE_of_isLE (TransCmp.isLE_trans hcb hba))
  | gt =>
    have hab := Ordering.isLE_iff_ne_gt.2 h
    have hbc := Ordering.isLE_iff_ne_gt.2 h'
    exact Ordering.isLE_iff_ne_gt.1 (TransCmp.isLE_trans hab hbc)

/-- What beats a value beats all that does not. -/
theorem beats_of_not_beats (hwanted : wanted ≠ .eq) (hab : a.SameKind b) (hcb : c.SameKind b)
    (hac : a.SameKind c) (h : a.sortCompare b = wanted) (h' : c.sortCompare b ≠ wanted) :
    a.sortCompare c = wanted := by
  by_contra hnot
  exact not_beats_trans hwanted hac hcb hab hnot h' h

theorem OneKind.mono {ws : List Value} (h : OneKind vs) (hsub : ∀ v ∈ ws, v ∈ vs) : OneKind ws :=
  fun v hv w hw => h v (hsub v hv) w (hsub w hw)

theorem Unbeaten.mono {ws : List Value} (h : Unbeaten wanted vs v) (hsub : ∀ w ∈ ws, w ∈ vs) :
    Unbeaten wanted ws v :=
  fun w hw => h w (hsub w hw)

/-! ## Values that are picked -/

theorem pick_of_isNull (best : Value) (hv : v.isNull = true) : pick wanted best v = best := if_pos hv

theorem null_pick (wanted : Ordering) (v : Value) : pick wanted null v = v := by
  cases v <;> rfl

theorem pick_of_not_isNull (hb : b.isNull = false) (hv : v.isNull = false) :
    pick wanted b v = if v.sortCompare b = wanted then v else b := by
  simp [pick, TupleStream.better, hb, hv]

theorem eq_null_of_isNull (h : v.isNull = true) : v = null := by
  cases v with
  | null => rfl
  | _ => cases h

theorem IsBest.mem (h : IsBest wanted vs v) : v = null ∨ v ∈ vs := by
  cases h with
  | onlyNulls => exact .inl rfl
  | first hvs => exact .inr (by simp [hvs])

/-- The best of a further value and those before. -/
theorem IsBest.concat (hwanted : wanted ≠ .eq) (hkind : OneKind (vs ++ [v]))
    (h : IsBest wanted vs b) : IsBest wanted (vs ++ [v]) (pick wanted b v) := by
  have hsub : ∀ w ∈ vs, w ∈ vs ++ [v] := fun w hw => List.mem_append_left _ hw
  have hlast : v ∈ vs ++ [v] := by simp
  cases hv : v.isNull with
  | true =>
    rw [pick_of_isNull b hv]
    cases h with
    | onlyNulls hnull =>
      apply IsBest.onlyNulls
      intro w hw
      rcases List.mem_append.1 hw with hw | hw
      · exact hnull w hw
      · rwa [List.mem_singleton.1 hw]
    | first hvs hb hbest hfront =>
      refine .first (by rw [hvs, List.append_assoc, List.cons_append]) hb ?_ ?_
      · intro w hw hwn
        rcases List.mem_append.1 hw with hw | hw
        · exact hbest w hw hwn
        · rw [List.mem_singleton.1 hw, hv] at hwn
          cases hwn
      · intro u hu hun hunbeaten
        exact hfront u hu hun (hunbeaten.mono hsub)
  | false =>
    cases h with
    | onlyNulls hnull =>
      rw [null_pick]
      refine .first rfl hv ?_ ?_
      · intro w hw hwn
        rcases List.mem_append.1 hw with hw | hw
        · rw [hnull w hw] at hwn
          cases hwn
        · rw [List.mem_singleton.1 hw]
          exact not_beats_self hwanted v
      · intro u hu hun
        rw [hnull u hu] at hun
        cases hun
    | @first front back b hvs hb hbest hfront =>
      have hmem : b ∈ vs := by simp [hvs]
      rw [pick_of_not_isNull hb hv]
      by_cases hbeats : v.sortCompare b = wanted
      · rw [if_pos hbeats]
        have hbv := not_beats_of_beats hwanted hbeats
        refine .first rfl hv ?_ ?_
        · intro w hw hwn hwv
          rcases List.mem_append.1 hw with hw | hw
          · -- What beats the new value would have beaten the old one.
            have hwb := beats_of_not_beats hwanted (hkind w (hsub w hw) v hlast)
              (hkind b (hsub b hmem) v hlast) (hkind w (hsub w hw) b (hsub b hmem)) hwv hbv
            exact hbest w hw hwn hwb
          · rw [List.mem_singleton.1 hw] at hwv
            exact not_beats_self hwanted v hwv
        · intro u hu hun hunbeaten
          by_cases hub : u.sortCompare b = wanted
          · exact hbest u hu hun hub
          · have hvu := beats_of_not_beats hwanted (hkind v hlast b (hsub b hmem))
              (hkind u (hsub u hu) b (hsub b hmem)) (hkind v hlast u (hsub u hu)) hbeats hub
            exact hunbeaten v hlast hv hvu
      · rw [if_neg hbeats]
        refine .first (by rw [hvs, List.append_assoc, List.cons_append]) hb ?_ ?_
        · intro w hw hwn
          rcases List.mem_append.1 hw with hw | hw
          · exact hbest w hw hwn
          · rwa [List.mem_singleton.1 hw]
        · intro u hu hun hunbeaten
          exact hfront u hu hun (hunbeaten.mono hsub)

/-- There is only one best value. -/
theorem IsBest.unique (hb : IsBest wanted vs b) (hc : IsBest wanted vs c) : b = c := by
  cases hb with
  | onlyNulls hnull =>
    cases hc with
    | onlyNulls => rfl
    | first hvs hc =>
      rw [hnull c (by simp [hvs])] at hc
      cases hc
  | first hvs hb hbest hfront =>
    cases hc with
    | onlyNulls hnull =>
      rw [hnull b (by simp [hvs])] at hb
      cases hb
    | first hvs' hc hbest' hfront' =>
      rw [hvs] at hvs'
      rcases List.append_eq_append_iff.1 hvs' with ⟨between, hf, hb'⟩ | ⟨between, hf, hb'⟩
      · cases between with
        | nil => exact (List.cons.inj hb').1
        | cons w between =>
          obtain rfl := (List.cons.inj hb').1
          exact absurd hbest (hfront' b (by simp [hf]) hb)
      · cases between with
        | nil => exact (List.cons.inj hb').1.symm
        | cons w between =>
          obtain rfl := (List.cons.inj hb').1
          exact absurd hbest' (hfront c (by simp [hf]) hc)

/-- Picking the better value one after another comes to the best one. -/
theorem isBest_foldl_pick (hwanted : wanted ≠ .eq) (hkind : OneKind vs) :
    IsBest wanted vs (vs.foldl (pick wanted) null) := by
  induction vs using List.reverseRecOn with
  | nil => exact .onlyNulls (List.forall_mem_nil _)
  | append_singleton vs v ih =>
    rw [List.foldl_concat]
    exact (ih (hkind.mono fun w hw => List.mem_append_left _ hw)).concat hwanted hkind

theorem pick_assoc (hwanted : wanted ≠ .eq) (hab : a.SameKind b) (hbc : b.SameKind c)
    (hac : a.SameKind c) :
    pick wanted (pick wanted a b) c = pick wanted a (pick wanted b c) := by
  cases hc : c.isNull with
  | true => rw [pick_of_isNull _ hc, pick_of_isNull _ hc]
  | false =>
    cases hb : b.isNull with
    | true => rw [pick_of_isNull _ hb, eq_null_of_isNull hb, null_pick]
    | false =>
      cases ha : a.isNull with
      | true => rw [eq_null_of_isNull ha, null_pick, null_pick]
      | false =>
        rw [pick_of_not_isNull ha hb, pick_of_not_isNull hb hc]
        by_cases hba : b.sortCompare a = wanted
        · rw [if_pos hba, pick_of_not_isNull hb hc]
          by_cases hcb : c.sortCompare b = wanted
          · have hca : c.sortCompare a = wanted := by
              apply beats_of_not_beats hwanted hbc.symm hab hac.symm hcb
              exact not_beats_of_beats hwanted hba
            rw [if_pos hcb, pick_of_not_isNull ha hc, if_pos hca]
          · rw [if_neg hcb, pick_of_not_isNull ha hb, if_pos hba]
        · rw [if_neg hba, pick_of_not_isNull ha hc]
          by_cases hcb : c.sortCompare b = wanted
          · rw [if_pos hcb, pick_of_not_isNull ha hc]
          · have hca := not_beats_trans hwanted hbc.symm hab.symm hac.symm hcb hba
            rw [if_neg hcb, if_neg hca, pick_of_not_isNull ha hb, if_neg hba]

theorem foldl_pick (hwanted : wanted ≠ .eq) (hkind : OneKind (a :: vs)) :
    vs.foldl (pick wanted) a = pick wanted a (vs.foldl (pick wanted) null) := by
  induction vs using List.reverseRecOn with
  | nil => exact (pick_of_isNull a rfl).symm
  | append_singleton vs v ih =>
    have hrest : OneKind (a :: vs) := by
      apply hkind.mono
      intro w hw
      simp only [List.mem_cons, List.mem_append] at hw ⊢
      tauto
    have hbest := isBest_foldl_pick hwanted (hrest.mono fun w hw => List.mem_cons_of_mem a hw)
    rw [List.foldl_concat, List.foldl_concat, ih hrest]
    generalize vs.foldl (pick wanted) null = best at hbest
    have hav : a.SameKind v := hkind a (by simp) v (by simp)
    rcases hbest.mem with rfl | hmem
    · exact pick_assoc hwanted (.inr (.inl rfl)) (.inl rfl) hav
    · exact pick_assoc hwanted (hkind a (by simp) best (by simp [hmem]))
        (hkind best (by simp [hmem]) v (by simp)) hav

/-- It does not matter whether the values are picked from one list or from the best of several. -/
theorem foldl_pick_flatten (hwanted : wanted ≠ .eq) {vss : List (List Value)}
    (hkind : OneKind vss.flatten) :
    vss.flatten.foldl (pick wanted) null =
      (vss.map fun vs => vs.foldl (pick wanted) null).foldl (pick wanted) null := by
  induction vss using List.reverseRecOn with
  | nil => rfl
  | append_singleton vss vs ih =>
    rw [List.flatten_concat] at hkind
    have hfront : OneKind vss.flatten := hkind.mono fun w hw => List.mem_append_left _ hw
    have hbest := isBest_foldl_pick hwanted hfront
    rw [List.flatten_concat, List.foldl_append, List.map_append, List.map_singleton,
      List.foldl_concat, ← ih hfront]
    apply foldl_pick hwanted
    generalize vss.flatten.foldl (pick wanted) null = best at hbest
    intro v hv w hw
    rcases hbest.mem with rfl | hmem
    · rcases List.mem_cons.1 hv with rfl | hv
      · exact .inl rfl
      · rcases List.mem_cons.1 hw with rfl | hw
        · exact .inr (.inl rfl)
        · exact hkind v (List.mem_append_right _ hv) w (List.mem_append_right _ hw)
    · have hsub : ∀ w ∈ best :: vs, w ∈ vss.flatten ++ vs := by
        intro w hw
        rcases List.mem_cons.1 hw with rfl | hw
        · exact List.mem_append_left _ hmem
        · exact List.mem_append_right _ hw
      exact hkind v (hsub v hv) w (hsub w hw)

theorem OneKind.foldl_pick (hwanted : wanted ≠ .eq) {vss : List (List Value)}
    (hkind : OneKind vss.flatten) :
    OneKind (vss.map fun vs => vs.foldl (pick wanted) null) := by
  have hmem : ∀ v ∈ vss.map fun vs => vs.foldl (pick wanted) null, v = null ∨ v ∈ vss.flatten := by
    intro v hv
    obtain ⟨vs, hvs, rfl⟩ := List.mem_map.1 hv
    have hsub : ∀ w ∈ vs, w ∈ vss.flatten := fun w hw => List.mem_flatten_of_mem hvs hw
    exact (isBest_foldl_pick hwanted (hkind.mono hsub)).mem.imp_right (hsub _)
  intro v hv w hw
  rcases hmem v hv with rfl | hv
  · exact .inl rfl
  · rcases hmem w hw with rfl | hw
    · exact .inr (.inl rfl)
    · exact hkind v hv w hw

end

end Value

/-! ## Columns that are read -/

namespace Tuple

variable {u : Tuple} {c : Column}

theorem Laid.present?_eq {cs : List Column} (h : u.Laid cs) (c : Column) :
    TupleStream.present? c u =
      .ok (if (u.valueOf c).isNull then none else some (u.valueOf c)) := by
  obtain ⟨found, hfound, hvalue⟩ := Except.map_eq_ok.1 (h.getOrNull_eq c)
  rw [TupleStream.present?, hfound, ← hvalue]
  cases found with
  | none => rfl
  | some v => cases hv : v.isNull <;> simp [Except.map, Option.filter, hv]

/-- Whether the tuple has a value in the column that is neither null nor a number. -/
def Unsummable (c : Column) (u : Tuple) : Prop :=
  (u.valueOf c).isNull = false ∧ (u.valueOf c).number? = none

instance (c : Column) (u : Tuple) : Decidable (u.Unsummable c) :=
  inferInstanceAs (Decidable (_ ∧ _))

theorem Laid.addNumber_eq {cs : List Column} (h : u.Laid cs) (c : Column)
    (total : Binary64 × Nat) :
    TupleStream.addNumber c total u =
      if (u.valueOf c).isNull then .ok total
      else match (u.valueOf c).number? with
        | some x => .ok (total.1 + x, total.2 + 1)
        | none => .error (.error (.typeMismatch "sum" "number" (u.valueOf c).kindName)) := by
  rw [TupleStream.addNumber, h.present?_eq c]
  cases (u.valueOf c).isNull with
  | true => rfl
  | false =>
    change (match (u.valueOf c).number? with | some x => _ | none => _) = _
    cases (u.valueOf c).number? <;> rfl

theorem Laid.addNumber_ok {cs : List Column} (h : u.Laid cs) (hu : ¬ u.Unsummable c)
    (total : Binary64 × Nat) :
    TupleStream.addNumber c total u =
      .ok (((u.valueOf c).number?.map fun x => (total.1 + x, total.2 + 1)).getD total) := by
  rw [h.addNumber_eq]
  rw [Unsummable] at hu
  generalize u.valueOf c = v at hu
  cases v <;> first | rfl | exact absurd ⟨rfl, rfl⟩ hu

theorem Laid.addNumber_error {cs : List Column} (h : u.Laid cs) (hu : u.Unsummable c)
    (total : Binary64 × Nat) :
    TupleStream.addNumber c total u =
      .error (.error (.typeMismatch "sum" "number" (u.valueOf c).kindName)) := by
  obtain ⟨hpresent, hnumber⟩ := hu
  rw [h.addNumber_eq, hpresent, hnumber]
  rfl

end Tuple

/-! ## Streams that are read -/

/-- The state after an answer. -/
def Reply.state : Reply → RunState
  | .row _ s _ => s
  | .finished s _ => s
  | .failed _ s => s
  | .crashed _ s _ => s

namespace TupleStream

variable {σ : Type} {P : Tuple → Prop} {t : TupleStream} {s : RunState} {c : Column}
  {cs : List Column} {p : Projection}

theorem reduce_eq_foldl {step : σ → Tuple → Except Failure σ} (next : σ → Tuple → σ)
    (hstep : ∀ a u, P u → step a u = .ok (next a u)) (a : σ)
    (hrows : ∀ u ∈ (t.emission s).rows, P u) (hends : (t.emission s).ending = .finished) :
    t.reduce step a s = (.ok ((t.emission s).rows.foldl next a), (t.emission s).state) := by
  obtain ⟨hresult, hstate⟩ := drain_eq_foldl (fun a u s => (step a u, s)) next
    (fun a u s hu => by rw [hstep a u hu]) t (a := a) hrows
  rw [hends] at hresult
  exact Prod.ext hresult hstate

/-- Reading fails where some tuple does, if all that fail do so in one way. -/
theorem reduce_eq_error {step : σ → Tuple → Except Failure σ} (bad : Tuple → Prop) {f : Failure}
    (t : TupleStream) : ∀ {a s}, (∀ a, ∀ u ∈ (t.emission s).rows,
        (bad u → step a u = .error f) ∧ (¬ bad u → ∃ b, step a u = .ok b)) →
      (∃ u ∈ (t.emission s).rows, bad u) → (t.reduce step a s).1 = .error f := by
  induction t using TupleStream.induct with
  | step t ih =>
    intro a s
    rw [reduce, consume, drain_eq, emission_eq]
    have rests := ih s
    generalize t.pull s = r at rests
    cases r with
    | finished s' rest => exact fun _ hbad => absurd hbad (by simp [Reply.emission])
    | failed e s' => exact fun _ hbad => absurd hbad (by simp [Reply.emission])
    | crashed e s' rest => exact fun _ hbad => absurd hbad (by simp [Reply.emission])
    | row u s' rest =>
      intro hstep hbad
      have hrest := fun b v hv => hstep b v (List.mem_cons_of_mem u hv)
      obtain ⟨hfails, hgoes⟩ := hstep a u List.mem_cons_self
      by_cases hu : bad u
      · simp only [Reply.drain, hfails hu]
      · obtain ⟨b, hb⟩ := hgoes hu
        simp only [Reply.drain, hb]
        apply rests u s' rest rfl hrest
        obtain ⟨v, hv, hvbad⟩ := hbad
        rcases List.mem_cons.1 hv with rfl | hv
        · exact absurd hvbad hu
        · exact ⟨v, hv, hvbad⟩

/-! ## What aggregates come to -/

/-- Whether a stream gives one tuple, with one value, and then stays at its end in whatever states it
is pulled. -/
def AnswersOnce (t : TupleStream) (cs : List Column) (s : RunState) (v : Value) (s' : RunState) :
    Prop :=
  ∀ later : List RunState, t.replies (s :: later) =
    .row ⟨syntheticRow, cs, [v]⟩ s' .ended :: later.map fun s => .finished s .ended

/-- The values of an aggregate over several streams, one after another. -/
def aggregateEach (p : Projection) : List TupleStream → RunState → Outcome (List Value)
  | [], s => (.ok [], s)
  | t :: rest, s =>
    match t.aggregate p s with
    | (.ok v, s) => (aggregateEach p rest s).map (v :: ·)
    | (.error f, s) => (.error f, s)

theorem replies_ended (history : List RunState) :
    ended.replies history = history.map fun s => .finished s .ended := by
  induction history with
  | nil => rfl
  | cons s later ih => exact congrArg (Reply.finished s .ended :: ·) ih

theorem pull_project (hp : p.isAggregate = true) (t : TupleStream) (s : RunState) :
    (t.project p cs).pull s =
      match t.aggregate p s with
      | (.ok v, s) => .row ⟨syntheticRow, cs, [v]⟩ s .ended
      | (.error f, s) => .ofFailure f s .ended := by
  rw [project, if_pos hp, deferred, pull_of]
  obtain ⟨f | v, s'⟩ := t.aggregate p s <;> rfl

theorem answersOnce_project (hp : p.isAggregate = true) {v : Value} {s' : RunState}
    (h : t.aggregate p s = (.ok v, s')) : (t.project p cs).AnswersOnce cs s v s' := by
  intro later
  rw [replies, pull_project hp, h]
  exact congrArg (_ :: ·) (replies_ended later)

section

variable (hends : (t.emission s).ending = .finished)
  (hlaid : ∀ u ∈ (t.emission s).rows, u.Laid u.columns)

include hends

theorem aggregate_count :
    t.aggregate .count s =
      (.ok (.long (Int64.ofNat (t.emission s).rows.length)), (t.emission s).state) := by
  have hread : t.reduce (fun n _ => .ok (n + 1)) 0 s =
      (.ok ((t.emission s).rows.foldl (fun n _ => n + 1) 0), (t.emission s).state) :=
    reduce_eq_foldl (P := fun _ => True) _ (fun _ _ _ => rfl) 0 (fun _ _ => trivial) hends
  have hlength (us : List Tuple) (n : Nat) : us.foldl (fun n _ => n + 1) n = n + us.length := by
    induction us generalizing n with
    | nil => rfl
    | cons u us ih =>
      rw [List.foldl_cons, ih, List.length_cons]
      omega
  rw [hlength, Nat.zero_add] at hread
  rw [aggregate, hread]
  rfl

theorem aggregate_nonempty :
    t.aggregate .nonempty s = (.ok (.bool (!(t.emission s).rows.isEmpty)), (t.pull s).state) := by
  rw [aggregate, hasTuple]
  rw [emission_eq] at hends ⊢
  cases hr : t.pull s with
  | row u s' rest => rfl
  | finished s' rest => rfl
  | failed e s' =>
    rw [hr] at hends
    cases hends
  | crashed e s' rest =>
    rw [hr] at hends
    cases hends

include hlaid

theorem best_eq (wanted : Ordering) :
    t.best wanted c s =
      (.ok (((t.emission s).rows.map (·.valueOf c)).foldl (Value.pick wanted) .null),
        (t.emission s).state) := by
  rw [List.foldl_map]
  refine reduce_eq_foldl (P := fun u => u.Laid u.columns) _ ?_ Value.null hlaid hends
  intro best u hu
  rw [hu.present?_eq c]
  cases hv : (u.valueOf c).isNull with
  | true => rw [Value.pick_of_isNull best hv]; rfl
  | false =>
    simp only [Value.pick, hv]
    rfl

theorem aggregate_sums (hp : p = .sum c ∨ p = .mean c)
    (hsum : ∀ u ∈ (t.emission s).rows, ¬ u.Unsummable c) :
    ∃ v, t.aggregate p s = (.ok v, (t.emission s).state) := by
  have hread := reduce_eq_foldl (P := fun u => u.Laid u.columns ∧ ¬ u.Unsummable c) _
    (fun total u hu => hu.1.addNumber_ok hu.2 total) (.zero, 0)
    (fun u hu => ⟨hlaid u hu, hsum u hu⟩) hends
  rcases hp with rfl | rfl
  all_goals
    rw [aggregate, total, hread]
    exact ⟨_, rfl⟩

end

theorem aggregate_sums_error (hlaid : ∀ u ∈ (t.emission s).rows, u.Laid u.columns)
    (hkind : Value.OneKind ((t.emission s).rows.map (·.valueOf c))) (hp : p = .sum c ∨ p = .mean c)
    {u : Tuple} (hu : u ∈ (t.emission s).rows) (hbad : u.Unsummable c) :
    ∃ s', t.aggregate p s =
      (.error (.error (.typeMismatch "sum" "number" (u.valueOf c).kindName)), s') := by
  have hread : (t.total c s).1 =
      .error (.error (.typeMismatch "sum" "number" (u.valueOf c).kindName)) := by
    refine reduce_eq_error (·.Unsummable c) t ?_ ⟨u, hu, hbad⟩
    intro total v hv
    refine ⟨fun hvbad => ?_, fun hvgood => ⟨_, (hlaid v hv).addNumber_ok hvgood total⟩⟩
    rw [(hlaid v hv).addNumber_error hvbad]
    rcases hkind _ (List.mem_map_of_mem hv) _ (List.mem_map_of_mem hu) with hn | hn | hk
    · rw [hvbad.1] at hn
      cases hn
    · rw [hbad.1] at hn
      cases hn
    · rw [hk]
  rcases hp with rfl | rfl
  all_goals
    rw [aggregate, Outcome.map, hread]
    exact ⟨_, rfl⟩

/-! ## Streams one after another -/

/-- Of streams that all come to their ends, each has values of its own. -/
theorem aggregateEach_best {wanted : Ordering} (hp : ∀ t s, aggregate p t s = t.best wanted c s)
    {parts : List TupleStream} : ∀ {s}, (inTurn parts s).ending = .finished →
      (∀ u ∈ (inTurn parts s).rows, u.Laid u.columns) →
      ∃ vss : List (List Value), vss.flatten = (inTurn parts s).rows.map (·.valueOf c) ∧
        aggregateEach p parts s =
          (.ok (vss.map fun vs => vs.foldl (Value.pick wanted) .null), (inTurn parts s).state) := by
  induction parts with
  | nil => exact fun _ _ => ⟨[], rfl, rfl⟩
  | cons t rest ih =>
    intro s hends hlaid
    rw [inTurn] at hends hlaid ⊢
    cases hending : (t.emission s).ending with
    | failed e =>
      simp only [Run.andThen, hending] at hends
      cases hends
    | crashed e =>
      simp only [Run.andThen, hending] at hends
      cases hends
    | finished =>
      simp only [Run.andThen, hending] at hends hlaid ⊢
      obtain ⟨vss, hvss, heach⟩ := ih hends fun u hu => hlaid u (List.mem_append_right _ hu)
      have hfirst := best_eq hending (fun u hu => hlaid u (List.mem_append_left _ hu)) (c := c) wanted
      refine ⟨(t.emission s).rows.map (·.valueOf c) :: vss, ?_, ?_⟩
      · rw [List.flatten_cons, hvss, List.map_append]
      · rw [aggregateEach, hp, hfirst]
        simp only [heach]
        rfl

/-- The best value of a column, also from the best values of the parts. -/
theorem answersOnce_best {wanted : Ordering} (hwanted : wanted ≠ .eq) (hagg : p.isAggregate = true)
    (hp : ∀ t s, aggregate p t s = t.best wanted c s) (hends : (t.emission s).ending = .finished)
    (hlaid : ∀ u ∈ (t.emission s).rows, u.Laid u.columns)
    (hkind : Value.OneKind ((t.emission s).rows.map (·.valueOf c))) :
    ∃ v, Value.IsBest wanted ((t.emission s).rows.map (·.valueOf c)) v ∧
      (t.project p cs).AnswersOnce cs s v (t.emission s).state ∧
      ∀ parts, t = concat parts → ∃ vs, aggregateEach p parts s = (.ok vs, (t.emission s).state) ∧
        Value.IsBest wanted vs v := by
  have hvalue := (hp t s).trans (best_eq hends hlaid wanted)
  refine ⟨_, Value.isBest_foldl_pick hwanted hkind, answersOnce_project hagg hvalue, ?_⟩
  rintro parts rfl
  rw [emission_concat] at hends hlaid hkind ⊢
  obtain ⟨vss, hvss, heach⟩ := aggregateEach_best hp hends hlaid
  rw [← hvss] at hkind ⊢
  refine ⟨_, heach, ?_⟩
  rw [Value.foldl_pick_flatten hwanted hkind]
  exact Value.isBest_foldl_pick hwanted (hkind.foldl_pick hwanted)

/-- Aggregates over a stream that comes to its end, and over a column with values of one kind. Each
gives one tuple and then stays at its end: a count the number of tuples; an existence test whether
there is one, after a single pull of the input; a least or greatest value the first of the best ones,
which is also the best of those of the parts if the input is a concatenation. Sums and means do so if
all values are numbers or null, and fail otherwise. -/
theorem aggregates_answer_once (hends : (t.emission s).ending = .finished)
    (hlaid : ∀ u ∈ (t.emission s).rows, u.Laid u.columns)
    (hkind : Value.OneKind ((t.emission s).rows.map (·.valueOf c))) (cs : List Column) :
    let us := (t.emission s).rows
    let after := (t.emission s).state
    let answersBest (p : Projection) (wanted : Ordering) : Prop :=
      ∃ v, Value.IsBest wanted (us.map (·.valueOf c)) v ∧
        (t.project p cs).AnswersOnce cs s v after ∧
        ∀ parts, t = concat parts →
          ∃ vs, aggregateEach p parts s = (.ok vs, after) ∧ Value.IsBest wanted vs v
    (t.project .count cs).AnswersOnce cs s (.long (Int64.ofNat us.length)) after ∧
      (t.project .nonempty cs).AnswersOnce cs s (.bool (!us.isEmpty)) (t.pull s).state ∧
      answersBest (.min c) .lt ∧ answersBest (.max c) .gt ∧
      ∀ p, p = .sum c ∨ p = .mean c →
        ((∀ u ∈ us, ¬ u.Unsummable c) → ∃ v, (t.project p cs).AnswersOnce cs s v after) ∧
        ∀ u ∈ us, u.Unsummable c → ∃ s', (t.project p cs).pull s =
          .failed (.typeMismatch "sum" "number" (u.valueOf c).kindName) s' := by
  refine ⟨answersOnce_project rfl (aggregate_count hends),
    answersOnce_project rfl (aggregate_nonempty hends), ?_, ?_, ?_⟩
  · exact answersOnce_best (by decide) rfl (fun _ _ => rfl) hends hlaid hkind
  · exact answersOnce_best (by decide) rfl (fun _ _ => rfl) hends hlaid hkind
  · intro p hp
    have hagg : p.isAggregate = true := by rcases hp with rfl | rfl <;> rfl
    refine ⟨fun hsum => ?_, fun u hu hbad => ?_⟩
    · obtain ⟨v, hv⟩ := aggregate_sums hends hlaid hp hsum
      exact ⟨v, answersOnce_project hagg hv⟩
    · obtain ⟨s', hfails⟩ := aggregate_sums_error hlaid hkind hp hu hbad
      refine ⟨s', ?_⟩
      rw [pull_project hagg, hfails]
      rfl

end TupleStream

namespace Readings

def depth : Column := ⟨"t.depth", .double, true⟩

def name : Column := ⟨"t.name", .text, false⟩

def reading (id : RowId) (v : Value) : Tuple := ⟨id, [depth], [v]⟩

def deep : Value := .double (.ofNat 3)

def parts : List TupleStream :=
  [.ofList [reading 0 .null, reading 1 (.double .zero)], .ofList [], .ofList [reading 2 deep]]

def named : TupleStream := .ofList [⟨0, [name], [.text "north"]⟩]

def start : RunState := ⟨.empty, .empty, .empty, 0⟩

end Readings

open Readings in
theorem TupleStream.aggregates_answer_once_readings :
    (concat parts).emission start =
        ⟨[reading 0 .null, reading 1 (.double .zero), reading 2 deep], .finished, start⟩ ∧
      ((concat parts).project .count [depth]).AnswersOnce [depth] start (.long 3) start ∧
      ((concat parts).project (.max depth) [depth]).AnswersOnce [depth] start deep start ∧
      ∃ vs, aggregateEach (.max depth) parts start = (.ok vs, start) ∧ Value.IsBest .gt vs deep := by
  have hemission : (concat parts).emission start =
      ⟨[reading 0 .null, reading 1 (.double .zero), reading 2 deep], .finished, start⟩ := rfl
  have hbest : Value.IsBest .gt ([.null, .double .zero] ++ deep :: []) deep :=
    .first rfl rfl (by decide) (by decide)
  obtain ⟨hcount, -, -, ⟨v, hv, hmax, hparts⟩, -⟩ :=
    aggregates_answer_once (t := concat parts) (s := start) (c := depth) rfl (by decide) (by decide)
      [depth]
  obtain rfl : v = deep := hv.unique hbest
  exact ⟨hemission, hcount, hmax, hparts parts rfl⟩

open Readings in
/-- The sum of a column of text is an error. -/
theorem TupleStream.sum_of_text_gives_nothing :
    (named.emission start).ending = .finished ∧
      (∀ u ∈ (named.emission start).rows, u.Laid u.columns) ∧
      Value.OneKind ((named.emission start).rows.map (·.valueOf name)) ∧
      ∀ cs v s', ¬ (named.project (.sum name) cs).AnswersOnce cs start v s' := by
  refine ⟨rfl, by decide, by decide, fun cs v s' h => ?_⟩
  have hfails : (named.project (.sum name) cs).replies [start] =
      [.failed (.typeMismatch "sum" "number" "string") start] := rfl
  rw [h []] at hfails
  cases hfails

end QueryEngine
