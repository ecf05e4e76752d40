import QueryEngine.Proofs.Fitting
import QueryEngine.Proofs.Subqueries

/-!
# Streams that draw the same traces

Two streams are twins if from every view there is a trace that both of them draw. Operators that do
not care about the order of their inputs make twins of twins.
-/

set_option autoImplicit false

namespace QueryEngine

namespace TupleStream

/-- Whether two streams draw a common trace from every view, of tuples with a property. -/
def Twin (c : Frame) (n : Bool) (P : Tuple → Prop) (t t' : TupleStream) : Prop :=
  ∀ e, ∃ L e', (∀ y ∈ L, P y.2) ∧ t.Draws c n e L e' ∧ t'.Draws c n e L e'

/-- Whether a stream is made of another one by changing each tuple by itself or leaving it out. -/
def Chooses (c : Frame) (n : Bool) (f : TupleStream → TupleStream)
    (g : View → Tuple → Option Tuple) : Prop :=
  ∀ t e L e', t.Draws c n e L e' → (f t).Draws c n e (Trace.choose g L) e'

end TupleStream

/-- Whether a verdict on a tuple is the choice that is made in a view. -/
inductive Verdict.Chooses (c : Frame) (n : Bool) (g : View → Tuple → Option Tuple) (e : View)
    (u : Tuple) : Verdict Unit × RunState → Prop
  | emit {v s} : s.Shows c e → g e (u.seen n) = some (v.seen n) → Chooses c n g e u (.emit v (), s)
  | drop {s} : s.Shows c e → g e (u.seen n) = none → Chooses c n g e u (.drop (), s)
  | fail {f s} : Chooses c n g e u (.fail f, s)

theorem Transducer.steady_isReady {σ : Type} (step : σ → Tuple → RunState → Verdict σ × RunState)
    (a : σ) : (Transducer.steady step).isReady a ≠ .ok false := by
  simp [Transducer.steady]

theorem Outcome.map_eq_ok {α β : Type} {f : α → β} {o : Outcome α} {b : β} {s : RunState} :
    Outcome.map f o = (.ok b, s) ↔ ∃ a, o = (.ok a, s) ∧ f a = b := by
  obtain ⟨r, s'⟩ := o
  cases r <;> simp [Outcome.map, Except.map, and_comm]

section

variable {c : Frame} {n : Bool} {P Q : Tuple → Prop} {t t' : TupleStream} {e e' : View} {L : Trace}
  {s s' : RunState}

namespace TupleStream

/-- What is made of one trace is made of both streams. -/
theorem Twin.through {f : TupleStream → TupleStream} (h : t.Twin c n P t')
    (hf : ∀ e L e', (∀ y ∈ L, P y.2) → ∃ M e₁, (∀ y ∈ M, Q y.2) ∧
      ∀ t : TupleStream, t.Draws c n e L e' → (f t).Draws c n e M e₁) :
    (f t).Twin c n Q (f t') := by
  intro e
  obtain ⟨L, e', hP, ht, ht'⟩ := h e
  obtain ⟨M, e₁, hM, hf⟩ := hf e L e' hP
  exact ⟨M, e₁, hM, hf t ht, hf t' ht'⟩

theorem Twin.choose {f : TupleStream → TupleStream} {g : View → Tuple → Option Tuple}
    (hf : Chooses c n f g) (hQ : ∀ e u v, P u → g e u = some v → Q v) (h : t.Twin c n P t') :
    (f t).Twin c n Q (f t') := by
  refine h.through fun e L e' hP => ⟨Trace.choose g L, e', fun y hy => ?_, fun t ht => hf t e L e' ht⟩
  obtain ⟨u, hu, hy⟩ := Trace.mem_choose.1 hy
  exact hQ y.1 u y.2 (hP (y.1, u) hu) hy

theorem Twin.mono (hPQ : ∀ u, P u → Q u) (h : t.Twin c n P t') : t.Twin c n Q t' := by
  intro e
  obtain ⟨L, e', hL, hdraws⟩ := h e
  exact ⟨L, e', fun y hy => hPQ y.2 (hL y hy), hdraws⟩

theorem Twin.forget {m : Bool} (hn : n = true → m = true) (hP : ∀ u : Tuple, P u → P (u.seen n))
    (h : t.Twin c m P t') : t.Twin c n P t' := by
  intro e
  obtain ⟨L, e', hL, ht, ht'⟩ := h e
  refine ⟨_, e', fun y hy => ?_, .forget hn t ht, .forget hn t' ht'⟩
  obtain ⟨u, hu, hy⟩ := Trace.mem_choose.1 hy
  rw [← Option.some.inj hy]
  exact hP u (hL (y.1, u) hu)

/-! ## Tuple by tuple -/

theorem chooses_stateless {step : Tuple → RunState → Verdict Unit × RunState}
    {g : View → Tuple → Option Tuple}
    (hstep : ∀ {s e} u, s.Shows c e → Verdict.Chooses c n g e u (step u s)) :
    Chooses c n (fun t => t.transduce (.stateless step) ()) g := by
  intro t e L e' h
  refine Draws.transduce (P := fun _ => True) (F := fun _ L => Trace.choose g L)
    (Transducer.steady_isReady _) (fun _ => rfl) (fun _ hL _ => hL.choose g) ?_ t h
    (fun _ _ => trivial) ()
  intro s e u hs _ a
  have hverdict := hstep u hs
  change Verdict.Follows c n _ a e u (step u s)
  generalize step u s = verdict at hverdict
  cases hverdict with
  | emit hs' hg => exact .emit hs' fun L => by rw [Trace.choose_cons, hg]
  | drop hs' hg => exact .drop hs' fun L => by rw [Trace.choose_cons, hg]
  | fail => exact .fail

open scoped Classical in
/-- The tuples for which a predicate holds in a view. -/
noncomputable def filtered (c : Frame) (p : Predicate) (e : View) (u : Tuple) : Option Tuple :=
  if c.Holds e p u then some u else none

theorem filter_chooses {p : Predicate} (hp : p.atoms.all (fun atom => atom.1.isListing) = true)
    (hread : ∀ g ∈ p.bindings.filterMap Binding.group?, g ∉ c.hidden) :
    Chooses c n (filter p) (filtered c p) := by
  refine chooses_stateless fun {s e} u hs => ?_
  cases hholds : p.holds s.bindings u with
  | error f => exact .fail
  | ok keep =>
    have hiff := hs.holds_iff hp hread (u.unnumbered_seen n).symm hholds
    cases keep with
    | true => exact .emit (hs.count .filter) (if_pos (hiff.2 rfl))
    | false => exact .drop (hs.count .filter) (if_neg fun h => Bool.false_ne_true (hiff.1 h))

theorem changeEach_chooses {change : Tuple → Except Crash Tuple}
    (hchange : ∀ u : Tuple, change (u.seen n) = (change u).map (·.seen n)) :
    Chooses c n (changeEach change) fun _ u => (change u).toOption := by
  refine chooses_stateless fun {s e} u hs => ?_
  have hseen := hchange u
  cases hu : change u with
  | error f => exact .fail
  | ok v =>
    rw [hu] at hseen
    exact .emit hs (by rw [hseen]; rfl)

theorem project_seen (cs : List Column) (u : Tuple) :
    (u.seen n).project cs = (u.project cs).map (·.seen n) := by
  have hvalues : (u.seen n).getOrNull = u.getOrNull := by
    cases n <;> rfl
  rw [Tuple.project, Tuple.project, hvalues]
  cases cs.mapM u.getOrNull with
  | error f => rfl
  | ok values => cases n <;> rfl

theorem align_seen (cs : List Column) (u : Tuple) :
    align cs (u.seen n) = (align cs u).map (·.seen n) := by
  unfold align
  rw [u.columns_seen]
  split
  · rfl
  · exact project_seen cs u

/-- A tuple with the result of a function on arguments that read no sub-query. -/
def applied (c : Frame) (f : Function) (arguments : List Binding) (cs : List Column) (u : Tuple) :
    Option Tuple :=
  (((⟨c.slots, []⟩ : Bindings).resolveEach (some u) arguments).bind f.invoke).toOption.map
    (u.extend cs)

theorem apply_chooses {f : Function} {arguments : List Binding} {cs : List Column}
    (harguments : Binding.arePlain arguments = true) :
    Chooses c n (apply f arguments cs) fun _ => applied c f arguments cs := by
  refine chooses_stateless fun {s e} u hs => ?_
  have hsame : (⟨c.slots, []⟩ : Bindings).resolveEach (some (u.seen n)) arguments =
      s.bindings.resolveEach (some u) arguments :=
    Bindings.resolveEach_congr hs.slots.symm (u.unnumbered_seen n) arguments harguments
  have happlied : applied c f arguments cs (u.seen n) =
      ((s.bindings.resolveEach (some u) arguments).bind f.invoke).toOption.map
        ((u.seen n).extend cs) := by
    rw [applied, hsame]
  cases hv : (s.bindings.resolveEach (some u) arguments).bind f.invoke with
  | error f => exact .fail
  | ok v =>
    rw [hv] at happlied
    refine .emit hs (happlied.trans ?_)
    cases n <;> rfl

/-- A tuple with the columns of its row. -/
def fetched (c : Frame) (h : TableHandle) (wanted cs : List Column) (u : Tuple) : Option Tuple :=
  match (wanted.filterM fun c => return (← u.get? c).isNone : Except Crash (List Column)) with
  | .error _ => none
  | .ok [] => (u.project cs).toOption
  | .ok missing =>
    match (h.table c.store).read u.row missing with
    | .ok (some found, _) => (complete cs u found).toOption
    | _ => none

theorem fetch_chooses (h : TableHandle) (wanted cs : List Column) :
    Chooses c true (fetch h wanted cs) fun _ => fetched c h wanted cs := by
  refine chooses_stateless fun {s e} u hs => ?_
  have htable : (s.table h).unread = (h.table c.store).unread := by
    have hsame : (s.table h).unread = h.table c.store := by
      rw [← hs.store]
      exact (Store.table_unread s.store h.number).symm
    rw [← hsame]
    rfl
  have hemit {r : Except Crash Tuple} {s' : RunState} (hs' : s'.Shows c e)
      (hr : fetched c h wanted cs u = r.toOption) :
      Verdict.Chooses c true (fun _ => fetched c h wanted cs) e u
        (.ofResult (Crash.lifted r) (.emit · ()), s') := by
    cases r with
    | error f => exact .fail
    | ok v => exact .emit hs' hr
  cases hm : (wanted.filterM fun c => return (← u.get? c).isNone : Except Crash (List Column)) with
  | error f => exact .fail
  | ok missing =>
    cases missing with
    | nil => exact hemit hs (by rw [fetched, hm])
    | cons column rest =>
      simp only
      rcases Table.read_of_unread htable u.row (column :: rest) with
        ⟨f, hr, hr'⟩ | ⟨found, x, x', hr, hr', hx, _⟩
      · rw [hr]
        exact .fail
      · have hfetched : fetched c h wanted cs u =
            match found with
            | some found => (complete cs u found).toOption
            | none => none := by
          rw [fetched, hm]
          simp only [hr']
          cases found <;> rfl
        rw [hr]
        cases found with
        | none => exact .drop (hs.setTable hx) hfetched
        | some found => exact hemit (hs.setTable hx) hfetched

/-! ### What is chosen fits -/

section

variable {strict : Bool} {input cs : List Column} {u v : Tuple}

theorem filtered_eq_some {p : Predicate} (h : filtered c p e u = some v) : u = v := by
  unfold filtered at h
  split at h
  · exact Option.some.inj h
  · cases h

theorem fits_applied {f : Function} {arguments : List Binding} {out : Column}
    (hreturns : strict = true → ∀ x,
      ((⟨c.slots, []⟩ : Bindings).resolveEach (some u) arguments).bind f.invoke = .ok x →
        out.type.accepts x = true)
    (hu : u.Fits strict input) (h : applied c f arguments (input ++ [out]) u = some v) :
    v.Fits strict (input ++ [out]) := by
  obtain ⟨x, hx, rfl⟩ := Option.map_eq_some_iff.1 h
  exact hu.extend fun hstrict => hreturns hstrict x (Except.toOption_eq_some.1 hx)

theorem fits_fetched {h : TableHandle} {wanted : List Column} (hsound : (h.table c.store).Sound)
    (hu : u.Fits strict input) (hv : fetched c h wanted cs u = some v) : v.Fits strict cs := by
  unfold fetched at hv
  split at hv
  · cases hv
  · exact hu.project (Except.toOption_eq_some.1 hv)
  · split at hv
    · rename_i hread
      exact hu.complete (hsound.fits_read hread strict) (Except.toOption_eq_some.1 hv)
    · cases hv

end

/-! ## Reading to the end -/

/-- What reading a stream to its end comes to, by an invariant on what has been read. -/
theorem Draws.read {σ : Type} {step : σ → Tuple → RunState → Outcome σ}
    {holds : List Tuple → σ → Prop} (h : t.Draws c n e L e') (hs : s.Shows c e) {a b : σ}
    (hb : (t.drain step a s).result = .ok b) (ha : holds [] a)
    (hshows : ∀ {s e u s' a b}, s.Shows c e → step a u s = (.ok b, s') → s'.Shows c e)
    (hholds : ∀ us a u s b s', holds us a → step a u s = (.ok b, s') → holds (us ++ [u]) b) :
    (t.drain step a s).state.Shows c e' ∧
      ∃ us, holds us b ∧ (us.map (·.seen n)).Perm (L.map Prod.snd) := by
  obtain ⟨hend, htaken⟩ := Draws.drain hshows t h hs hb
  have hlast := drain_invariant hholds t ha hb
  rw [List.nil_append] at hlast
  exact ⟨hend, _, hlast, htaken⟩

theorem Draws.consume {σ : Type} {step : σ → Tuple → RunState → Outcome σ}
    {holds : List Tuple → σ → Prop}
    (hshows : ∀ {s e u s' a b}, s.Shows c e → step a u s = (.ok b, s') → s'.Shows c e)
    (hholds : ∀ us a u s b s', holds us a → step a u s = (.ok b, s') → holds (us ++ [u]) b)
    (h : t.Draws c n e L e') (hs : s.Shows c e) {a b : σ} (ha : holds [] a)
    (hb : t.consume step a s = (.ok b, s')) :
    s'.Shows c e' ∧ ∃ us, holds us b ∧ (us.map (·.seen n)).Perm (L.map Prod.snd) := by
  obtain ⟨hresult, hstate⟩ := Prod.mk.inj hb
  rw [← hstate]
  exact h.read hs hresult ha hshows hholds

theorem Draws.reduce {σ : Type} {step : σ → Tuple → Except Failure σ}
    {holds : List Tuple → σ → Prop}
    (hholds : ∀ us a u b, holds us a → step a u = .ok b → holds (us ++ [u]) b)
    (h : t.Draws c n e L e') (hs : s.Shows c e) {a b : σ} (ha : holds [] a)
    (hb : t.reduce step a s = (.ok b, s')) :
    s'.Shows c e' ∧ ∃ us, holds us b ∧ (us.map (·.seen n)).Perm (L.map Prod.snd) := by
  refine h.consume (fun hs hstep => ?_) (fun us a u s b s' ha hstep => ?_) hs ha hb
  · obtain ⟨_, rfl⟩ := Prod.mk.inj hstep
    exact hs
  · exact hholds us a u b ha (Prod.mk.inj hstep).1

/-! ### Aggregates -/

theorem Draws.length (h : t.Draws c n e L e') (hs : s.Shows c e) {k : Nat}
    (hk : t.reduce (fun k _ => .ok (k + 1)) 0 s = (.ok k, s')) : k = L.length ∧ s'.Shows c e' := by
  have hstep : ∀ (us : List Tuple) (a : Nat) (u : Tuple) (b : Nat), a = us.length →
      (.ok (a + 1) : Except Failure Nat) = .ok b → b = (us ++ [u]).length := by
    rintro us a u b rfl hb
    cases hb
    rw [List.length_append, List.length_singleton]
  obtain ⟨hend, us, rfl, hus⟩ := h.reduce hstep hs rfl hk
  refine ⟨?_, hend⟩
  rw [← us.length_map (·.seen n), hus.length_eq, List.length_map]

/-- Whether there is a tuple is known in the view of the first one. -/
theorem Draws.hasTuple (h : t.Draws c n e L e') (hs : s.Shows c e) {found : Bool}
    (hfound : t.hasTuple s = (.ok found, s')) :
    found = !L.isEmpty ∧ s'.Shows c ((L.map Prod.fst).headD e') := by
  have hr := h.pull hs
  unfold TupleStream.hasTuple at hfound
  generalize t.pull s = r at hr hfound
  cases r with
  | failed f s' => cases hfound
  | crashed f s' rest => cases hfound
  | finished s' rest =>
    obtain ⟨rfl, hend⟩ := hr
    cases hfound
    exact ⟨rfl, hend⟩
  | row u s' rest =>
    obtain ⟨e₁, L₁, hs', hL', _⟩ := hr
    cases hfound
    have hviews := hL'.views_eq
    cases L with
    | nil => cases hviews
    | cons y L =>
      obtain rfl : e₁ = y.1 := (List.cons.inj hviews).1
      exact ⟨rfl, hs'⟩

/-- A further tuple replaces the best value where its own is better. -/
theorem best_step {wanted : Ordering} {col : Column} {best x : Value} {u : Tuple}
    (h : ((Crash.lifted (present? col u)).map fun v => (v.map (better wanted best)).getD best) = .ok x) :
    x = Value.pick wanted best (u.valueOf col) := by
  obtain ⟨found, hfound, rfl⟩ := Except.map_eq_ok.1 h
  obtain ⟨v, hv, rfl⟩ := Except.map_eq_ok.1 (Crash.lifted_eq_ok.1 hfound)
  have hvalue : u.valueOf col = v.getD .null := by
    rw [Tuple.valueOf, Tuple.getOrNull, hv]
    rfl
  rw [hvalue]
  cases v with
  | none => rfl
  | some v =>
    rw [Option.getD_some, Value.pick]
    cases hnull : v.isNull with
    | true => simp [Option.filter, hnull]
    | false => simp [Option.filter, hnull]

theorem valueOf_seen (u : Tuple) (col : Column) : (u.seen n).valueOf col = u.valueOf col := by
  cases n <;> rfl

theorem Draws.best {wanted : Ordering} (hwanted : wanted ≠ .eq) {col : Column}
    (hranked : col.type.isRanked = true) (hL : ∀ y ∈ L, col.type.accepts (y.2.valueOf col) = true)
    (h : t.Draws c n e L e') (hs : s.Shows c e) {x : Value}
    (hx : t.best wanted col s = (.ok x, s')) :
    x = (L.map fun y => y.2.valueOf col).foldl (Value.pick wanted) .null ∧ s'.Shows c e' := by
  have hfold : ∀ (us : List Tuple) (a : Value) (u : Tuple) (b : Value),
      a = (us.map (·.valueOf col)).foldl (Value.pick wanted) .null →
      ((Crash.lifted (present? col u)).map fun v => (v.map (better wanted a)).getD a) = .ok b →
      b = ((us ++ [u]).map (·.valueOf col)).foldl (Value.pick wanted) .null := by
    rintro us a u b rfl hb
    rw [best_step hb, List.map_append, List.foldl_append]
    rfl
  obtain ⟨hend, us, rfl, hus⟩ := h.reduce hfold hs rfl hx
  refine ⟨?_, hend⟩
  have hvalues : (us.map (·.valueOf col)).Perm (L.map fun y => y.2.valueOf col) := by
    have hmap := hus.map (·.valueOf col)
    simpa only [List.map_map, Function.comp_def, valueOf_seen] using hmap
  refine Value.foldl_pick_perm hranked hwanted hvalues (fun v hv => ?_) col.type.accepts_null
  obtain ⟨y, hy, rfl⟩ := List.mem_map.1 (hvalues.mem_iff.1 hv)
  exact hL y hy

end TupleStream

/-- Whether a projection gives the same for tuples in any order. -/
def Projection.ignoresOrder : Projection → Bool
  | .select _ => true
  | .count => true
  | .nonempty => true
  | .min c => c.type.isRanked
  | .max c => c.type.isRanked
  | _ => false

/-- Whether a projection picks a value of its input. -/
def Projection.isExtremum : Projection → Bool
  | .min _ => true
  | .max _ => true
  | _ => false

namespace TupleStream

/-- The value of an aggregate and the view in which it is given depend on the trace only. -/
theorem Draws.aggregate {p : Projection} (hp : p.ignoresOrder = true) (hagg : p.isAggregate = true)
    {strict : Bool} (hstrict : p.isExtremum = true → strict = true) {cs : List Column}
    (hL : ∀ y ∈ L, y.2.Fits strict cs) (c : Frame) (n : Bool) (e e' : View) :
    ∃ v e₁, (∀ row, Tuple.Fits strict p.columns ⟨row, p.columns, [v]⟩) ∧
      ∀ {t : TupleStream} {s w s'}, t.Draws c n e L e' → s.Shows c e →
        t.aggregate p s = (.ok w, s') → w = v ∧ s'.Shows c e₁ := by
  have hfits {col : Column} {v : Value} (hv : col.type.accepts v = true) (row : RowId) :
      Tuple.Fits strict [col] ⟨row, [col], [v]⟩ := ⟨rfl, .cons (fun _ => hv) .nil⟩
  have hbest {wanted : Ordering} (hwanted : wanted ≠ .eq) {col : Column}
      (hranked : col.type.isRanked = true) (hstrict : strict = true) :
      ∃ v, col.type.accepts v = true ∧ ∀ {t : TupleStream} {s w s'}, t.Draws c n e L e' →
        s.Shows c e → t.best wanted col s = (.ok w, s') → w = v ∧ s'.Shows c e' := by
    have hvalues : ∀ y ∈ L, col.type.accepts (y.2.valueOf col) = true :=
      fun y hy => (hL y hy).accepts_valueOf hstrict col
    refine ⟨_, ?_, fun h hs hw => h.best hwanted hranked hvalues hs hw⟩
    exact Value.accepts_foldl_pick (List.forall_mem_map.2 hvalues) col.type.accepts_null
  cases p with
  | select cs => cases hagg
  | sum col => cases hp
  | mean col => cases hp
  | count =>
    refine ⟨.long (Int64.ofNat L.length), e', hfits rfl, fun {t s w s'} h hs hw => ?_⟩
    obtain ⟨k, hk, rfl⟩ := Outcome.map_eq_ok.1 hw
    obtain ⟨rfl, hend⟩ := h.length hs hk
    exact ⟨rfl, hend⟩
  | nonempty =>
    refine ⟨.bool !L.isEmpty, (L.map Prod.fst).headD e', hfits rfl, fun {t s w s'} h hs hw => ?_⟩
    obtain ⟨found, hfound, rfl⟩ := Outcome.map_eq_ok.1 hw
    obtain ⟨rfl, hend⟩ := h.hasTuple hs hfound
    exact ⟨rfl, hend⟩
  | min col =>
    obtain ⟨v, hv, hw⟩ := hbest (by decide : Ordering.lt ≠ .eq) hp (hstrict rfl)
    exact ⟨v, e', hfits hv, hw⟩
  | max col =>
    obtain ⟨v, hv, hw⟩ := hbest (by decide : Ordering.gt ≠ .eq) hp (hstrict rfl)
    exact ⟨v, e', hfits hv, hw⟩

section

variable {strict : Bool} {input cs : List Column}

theorem Twin.project {p : Projection} (hp : p.ignoresOrder = true)
    (hstrict : p.isExtremum = true → strict = true)
    (h : t.Twin c n (Tuple.Fits strict input) t') :
    (t.project p p.columns).Twin c n (Tuple.Fits strict p.columns) (t'.project p p.columns) := by
  unfold TupleStream.project
  cases hagg : p.isAggregate with
  | false =>
    rw [if_neg Bool.false_ne_true, if_neg Bool.false_ne_true]
    refine h.choose (changeEach_chooses (project_seen _)) fun _ u v hu hv => ?_
    exact hu.project (Except.toOption_eq_some.1 hv)
  | true =>
    rw [if_pos rfl, if_pos rfl]
    refine h.through (f := fun t => TupleStream.deferred fun s =>
      Outcome.map (fun v => ofList [⟨syntheticRow, p.columns, [v]⟩]) (t.aggregate p s)) ?_
    intro e L e' hL
    obtain ⟨v, e₁, hv, hdraws⟩ := Draws.aggregate hp hagg hstrict hL c n e e'
    refine ⟨Trace.inView e₁ [Tuple.seen n ⟨syntheticRow, p.columns, [v]⟩], e₁, ?_, fun t ht => ?_⟩
    · exact Trace.forall_mem_inView.2
        (List.forall_mem_singleton.2 (Tuple.fits_seen.2 (hv syntheticRow)))
    · refine .deferred fun s hs u s' hstart => ?_
      obtain ⟨w, hw, rfl⟩ := Outcome.map_eq_ok.1 hstart
      obtain ⟨rfl, hs'⟩ := hdraws ht hs hw
      exact ⟨e₁, hs', .lists (.ofList _) e₁⟩

/-! ### Sorts -/

theorem Draws.sort (order : SortOrder) (h : t.Draws c n e L e') :
    (t.sort order).Draws c n e (Trace.inView e' (L.map Prod.snd)) e' := by
  refine .deferred fun s hs u s' hstart => ?_
  cases hread : t.collect s with
  | mk r s₁ =>
    cases r with
    | error f =>
      rw [hread] at hstart
      cases hstart
    | ok us =>
      have happend : ∀ (us a : List Tuple) (u : Tuple) (b : List Tuple), a = us →
          (.ok (a ++ [u]) : Except Failure (List Tuple)) = .ok b → b = us ++ [u] := by
        rintro us _ u b rfl hb
        exact (Except.ok.inj hb).symm
      obtain ⟨hend, _, rfl, hus⟩ := h.reduce happend hs rfl hread
      rw [hread] at hstart
      obtain ⟨out, hout, rfl⟩ := Outcome.map_eq_ok.1 hstart
      unfold sorted at hout
      cases hsort : order.sortTuples us with
      | error f =>
        rw [hsort] at hout
        cases hout
      | ok found =>
        rw [hsort] at hout
        cases hout
        obtain ⟨_, _, rfl⟩ := Except.map_eq_ok.1 hsort
        refine ⟨e', hend.count .sort, (Draws.lists (.ofList _) e').shuffle (.inView e' ?_)⟩
        exact ((List.mergeSort_perm us order.le).map _).trans hus

theorem Twin.sort (order : SortOrder) (h : t.Twin c n P t') :
    (t.sort order).Twin c n P (t'.sort order) := by
  refine h.through fun e L e' hP => ⟨_, e', ?_, fun t ht => ht.sort order⟩
  exact Trace.forall_mem_inView.2 (List.forall_mem_map.2 hP)

section

variable {order : SortOrder} {canSpill : Bool} {a b : SpillState (List Tuple)}

/-- The tuples that a spilling sort holds. -/
def held (a : SpillState (List Tuple)) : List Tuple := a.runs.flatten ++ a.waiting

theorem spill_perm (h : a.spill order canSpill (relaid cs) s = (.ok b, s')) :
    s.Recounted s' ∧ b.waiting = [] ∧
      ((∀ u ∈ a.waiting, u.columns = cs) → (held b).Perm (held a)) := by
  unfold SpillState.spill sorted at h
  cases hsort : order.sortTuples a.waiting with
  | error f =>
    rw [hsort] at h
    cases h
  | ok run =>
    obtain ⟨_, _, rfl⟩ := Except.map_eq_ok.1 hsort
    rw [hsort] at h
    cases canSpill with
    | false => cases h
    | true =>
      cases h
      refine ⟨.count s .sort, rfl, fun hcolumns => ?_⟩
      have hsame : relaid cs (a.waiting.mergeSort order.le) =
          a.waiting.mergeSort order.le := by
        refine (List.map_congr_left fun u hu => ?_).trans (List.map_id _)
        rw [← hcolumns u (List.mem_mergeSort.1 hu)]
        rfl
      simp only [held, hsame, List.flatten_append, List.flatten_singleton, List.append_nil]
      exact (List.mergeSort_perm a.waiting order.le).append_left _

theorem add_recounted {chunk : Nat} {u : Tuple}
    (h : a.add order chunk canSpill (relaid cs) u s = (.ok b, s')) : s.Recounted s' := by
  simp only [SpillState.add] at h
  split at h
  · exact (spill_perm h).1
  · cases h
    exact .refl s

theorem add_perm {chunk : Nat} {us : List Tuple} {u : Tuple}
    (ha : (∀ v ∈ us, v.columns = cs) → (held a).Perm us)
    (h : a.add order chunk canSpill (relaid cs) u s = (.ok b, s'))
    (hcolumns : ∀ v ∈ us ++ [u], v.columns = cs) : (held b).Perm (us ++ [u]) := by
  have hnew : (held { a with waiting := a.waiting ++ [u] }).Perm (us ++ [u]) := by
    have hheld := ha fun v hv => hcolumns v (List.mem_append_left _ hv)
    simpa only [held, List.append_assoc] using hheld.append_right [u]
  simp only [SpillState.add] at h
  split at h
  · refine ((spill_perm h).2.2 fun v hv => ?_).trans hnew
    exact hcolumns v (hnew.mem_iff.1 (List.mem_append_right _ hv))
  · cases h
    exact hnew

theorem merge_lists {u : TupleStream} (ha : ∀ v ∈ a.runs.flatten, v.Laid cs)
    (h : a.merge order ofList s = (.ok u, s')) :
    s.Recounted s' ∧ ∃ out, u.Lists out ∧ out.Perm a.runs.flatten := by
  obtain ⟨t, out, hstart, hlists, hperm⟩ := startMerge_perm
    (fun v hv w hw => order.compareTuples_ok (ha v hv) (ha w hw)) s
  have hsame : (.ok u, s') = (startMerge order (a.runs.map ofList) s).outcome := h.symm
  rw [hstart] at hsame
  cases hsame
  exact ⟨.refl s, out, hlists, hperm⟩

theorem finish_lists {u : TupleStream} (ha : ∀ v ∈ held a, v.Laid cs)
    (h : a.finish order canSpill (relaid cs) ofList s = (.ok u, s')) :
    s.Recounted s' ∧ ∃ out, u.Lists out ∧ out.Perm (held a) := by
  simp only [SpillState.finish] at h
  split at h
  · rename_i hempty
    obtain ⟨found, hfound, rfl⟩ := Outcome.map_eq_ok.1 h
    have hheld : held a = a.waiting := by rw [held, List.isEmpty_iff.1 hempty]; rfl
    obtain ⟨out, hout, hperm⟩ := order.sortTuples_perm fun v hv => ha v (hheld ▸ hv)
    rw [sorted, hout] at hfound
    cases hfound
    exact ⟨.count s .sort, found, .ofList found, hheld ▸ hperm⟩
  · split at h
    · rename_i hwaiting
      have hheld : held a = a.runs.flatten := by
        rw [held, List.isEmpty_iff.1 hwaiting, List.append_nil]
      exact hheld ▸ merge_lists (fun v hv => ha v (hheld ▸ hv)) h
    · cases hspill : a.spill order canSpill (relaid cs) s with
      | mk r s₁ =>
        rw [hspill] at h
        cases r with
        | error f => cases h
        | ok b =>
          obtain ⟨hs, hwaiting, hperm⟩ := spill_perm hspill
          have hsame := hperm fun v hv => (ha v (List.mem_append_right _ hv)).1
          have hheld : held b = b.runs.flatten := by rw [held, hwaiting, List.append_nil]
          obtain ⟨hs₁, out, hlists, hout⟩ :=
            merge_lists (fun v hv => ha v (hsame.mem_iff.1 (hheld ▸ hv))) h
          exact ⟨hs.trans hs₁, out, hlists, hout.trans (hheld ▸ hsame)⟩

theorem Draws.externalSort (chunk : Nat) (hL : ∀ y ∈ L, y.2.Laid cs) (h : t.Draws c n e L e') :
    (t.externalSort .plain order chunk canSpill cs).Draws c n e (Trace.inView e' (L.map Prod.snd))
      e' := by
  rw [externalSort_relaid]
  refine .deferred fun s hs u s' hstart => ?_
  cases hread : t.consume (SpillState.add order (max chunk 1) canSpill (relaid cs)) ⟨[], []⟩ s with
  | mk r s₁ =>
    rw [hread] at hstart
    cases r with
    | error f => cases hstart
    | ok a =>
      have hadd : ∀ (us : List Tuple) (a : SpillState (List Tuple)) (u : Tuple)
          (s : RunState) (b : SpillState (List Tuple)) (s' : RunState), ((∀ v ∈ us, v.columns = cs) → (held a).Perm us) →
          a.add order (max chunk 1) canSpill (relaid cs) u s = (.ok b, s') →
          (∀ v ∈ us ++ [u], v.columns = cs) → (held b).Perm (us ++ [u]) :=
        fun us a u s b s' ha hb => add_perm ha hb
      obtain ⟨hend, us, hheld, hus⟩ :=
        h.consume (fun hs hb => hs.recount (add_recounted hb)) hadd hs (fun _ => .refl _) hread
      have hlaid : ∀ v ∈ us, v.Laid cs := by
        intro v hv
        obtain ⟨y, hy, he⟩ := List.mem_map.1 (hus.mem_iff.1 (List.mem_map_of_mem hv))
        have hlaid := hL y hy
        rw [he] at hlaid
        rwa [Tuple.Laid, Tuple.columns_seen, Tuple.values_seen] at hlaid
      have hperm := hheld fun v hv => (hlaid v hv).1
      obtain ⟨hs', out, hlists, hout⟩ := finish_lists (fun v hv => hlaid v (hperm.mem_iff.1 hv)) hstart
      refine ⟨e', hend.recount hs', (Draws.lists hlists e').shuffle (.inView e' ?_)⟩
      exact ((hout.trans hperm).map _).trans hus

end

theorem Twin.externalSort (order : SortOrder) (chunk : Nat) (canSpill : Bool)
    (hP : ∀ u, P u → u.Laid cs) (h : t.Twin c n P t') :
    (t.externalSort .plain order chunk canSpill cs).Twin c n P
      (t'.externalSort .plain order chunk canSpill cs) := by
  refine h.through fun e L e' hL =>
    ⟨_, e', ?_, fun t ht => ht.externalSort chunk fun y hy => hP y.2 (hL y hy)⟩
  exact Trace.forall_mem_inView.2 (List.forall_mem_map.2 hL)

/-! ### Several inputs -/

/-- Whether streams that are read one after another draw these traces. -/
inductive DrawAll (c : Frame) (n : Bool) :
    List TupleStream → View → List Trace → View → Prop
  | nil (e : View) : DrawAll c n [] e [] e
  | cons {t : TupleStream} {ts : List TupleStream} {e e₁ e' : View} {L : Trace} {Ls : List Trace} :
    t.Draws c n e L e₁ → DrawAll c n ts e₁ Ls e' → DrawAll c n (t :: ts) e (L :: Ls) e'

section

variable {ts ts' : List TupleStream} {Ls : List Trace}

theorem exists_drawAll (h : List.Forall₂ (Twin c n P) ts ts') : ∀ e, ∃ Ls e',
    (∀ L ∈ Ls, ∀ y ∈ L, P y.2) ∧ DrawAll c n ts e Ls e' ∧ DrawAll c n ts' e Ls e' := by
  induction h with
  | nil => exact fun e => ⟨[], e, by simp, .nil e, .nil e⟩
  | cons ht _ ih =>
    intro e
    obtain ⟨L, e₁, hL, ht, ht'⟩ := ht e
    obtain ⟨Ls, e', hLs, hts, hts'⟩ := ih e₁
    exact ⟨L :: Ls, e', List.forall_mem_cons.2 ⟨hL, hLs⟩, .cons ht hts, .cons ht' hts'⟩

theorem DrawAll.concat (h : DrawAll c n ts e Ls e') :
    (TupleStream.concat ts).Draws c n e Ls.flatten e' := by
  induction h with
  | nil e => exact fun s hs => ⟨rfl, hs⟩
  | cons ht _ ih => exact .append _ ht ih

theorem Twin.merge (cs : List Column) (h : List.Forall₂ (Twin c n (Tuple.Fits strict input)) ts ts') :
    (TupleStream.merge cs ts).Twin c n (Tuple.Fits strict cs) (TupleStream.merge cs ts') := by
  have hconcat : (TupleStream.concat ts).Twin c n (Tuple.Fits strict input) (TupleStream.concat ts') := by
    intro e
    obtain ⟨Ls, e', hLs, hts, hts'⟩ := exists_drawAll h e
    refine ⟨Ls.flatten, e', fun y hy => ?_, hts.concat, hts'.concat⟩
    obtain ⟨L, hL, hy⟩ := List.mem_flatten.1 hy
    exact hLs L hL y hy
  refine hconcat.choose (changeEach_chooses (align_seen cs)) fun _ u v hu hv => ?_
  exact hu.align (Except.toOption_eq_some.1 hv)

theorem distinct_eq_within (t : TupleStream) : t.distinct = t.within [] := by
  unfold distinct within
  congr 2
  funext seen u s
  by_cases hu : u.values ∈ seen <;> simp [hu]

/-- The first tuples of the rows of values that are in all sets. -/
theorem Draws.within {sets : List (List (List Value))} {wanted : List Value → Prop}
    (hsets : ∀ r, (sets.all fun rows => decide (r ∈ rows)) = true ↔ wanted r)
    (hL : ∀ y ∈ L, y.2.columns = cs ∧ y.2.seen false = y.2) (h : t.Draws c false e L e') :
    (t.within sets).Draws c false e (Trace.firsts wanted [] L) e' := by
  have hsame (u v : Tuple) (hu : u.columns = cs ∧ u.seen false = u)
      (hv : v.columns = cs ∧ v.seen false = v) (hvalues : u.values = v.values) : u = v := by
    rw [← hu.2, ← hv.2]
    simp [Tuple.seen, Tuple.unnumbered, hu.1, hv.1, hvalues]
  refine Draws.transduce (P := fun u => u.columns = cs ∧ u.seen false = u)
    (F := Trace.firsts wanted) (Transducer.steady_isReady _) (fun _ => rfl)
    (fun hL hshuffle _ => hshuffle.firsts hsame hL) ?_ t h hL []
  intro s e u hs _ seen
  have hvalues := u.values_seen false
  have hcond : ((sets.all fun rows => decide (u.values ∈ rows)) && decide (u.values ∉ seen)) = true ↔
      wanted u.values ∧ u.values ∉ seen := by
    rw [Bool.and_eq_true, hsets, decide_eq_true_eq]
  change Verdict.Follows c false _ seen e u (if _ then _ else _, s)
  by_cases hu : wanted u.values ∧ u.values ∉ seen
  · rw [if_pos (hcond.2 hu)]
    refine .emit hs fun L => ?_
    rw [Trace.firsts_cons_pos (x := (e, u.seen false)) (by rwa [hvalues]), hvalues]
  · rw [if_neg (mt hcond.1 hu)]
    exact .drop hs fun L => Trace.firsts_cons_neg (x := (e, u.seen false)) (by rwa [hvalues])

/-- Rows of values are told apart without row numbers. -/
theorem Draws.firsts {sets : List (List (List Value))} {wanted : List Value → Prop}
    (hsets : ∀ r, (sets.all fun rows => decide (r ∈ rows)) = true ↔ wanted r)
    (hL : ∀ y ∈ L, y.2.columns = cs) (h : t.Draws c false e L e') :
    (t.within sets).Draws c false e
      (Trace.firsts wanted [] (Trace.choose (fun _ u => some (u.seen false)) L)) e' := by
  have hseen : ∀ y ∈ Trace.choose (fun _ u => some (u.seen false)) L,
      y.2.columns = cs ∧ y.2.seen false = y.2 := by
    intro y hy
    obtain ⟨u, hu, hy⟩ := Trace.mem_choose.1 hy
    rw [← Option.some.inj hy]
    exact ⟨(u.columns_seen false).trans (hL (y.1, u) hu), u.seen_seen id⟩
  exact .within hsets hseen (.forget id t h)

theorem fits_firsts {wanted : List Value → Prop} (hL : ∀ y ∈ L, y.2.Fits strict cs) :
    ∀ y ∈ Trace.firsts wanted [] (Trace.choose (fun _ u => some (u.seen false)) L),
      y.2.Fits strict cs := by
  intro y hy
  obtain ⟨u, hu, hy⟩ := Trace.mem_choose.1 (Trace.firsts_subset y hy)
  rw [← Option.some.inj hy]
  exact Tuple.fits_seen.2 (hL (y.1, u) hu)

theorem Twin.union (distinct : Bool) (hn : distinct = true → n = false) (cs : List Column)
    (h : List.Forall₂ (Twin c n (Tuple.Fits strict input)) ts ts') :
    (TupleStream.union distinct cs ts).Twin c n (Tuple.Fits strict cs)
      (TupleStream.union distinct cs ts') := by
  cases distinct with
  | false => exact .merge cs h
  | true =>
    cases hn rfl
    refine (Twin.merge cs h).through (f := distinct) fun e L e' hL =>
      ⟨Trace.firsts (fun _ => True) [] _, e', fits_firsts hL, fun t ht => ?_⟩
    rw [distinct_eq_within]
    have hall : ∀ r : List Value, (([] : List (List (List Value))).all fun rows =>
        decide (r ∈ rows)) = true ↔ True := fun _ => by simp
    exact ht.firsts hall fun y hy => (hL y hy).1

/-- The row of values that a tuple adds to a set. -/
def alignedRow? (cs : List Column) (u : Tuple) : Option (List Value) :=
  (align cs u).toOption.map (·.values)

theorem alignedRow?_seen (cs : List Column) (u : Tuple) :
    alignedRow? cs (u.seen n) = alignedRow? cs u := by
  rw [alignedRow?, alignedRow?, align_seen]
  cases align cs u with
  | error f => rfl
  | ok v => exact congrArg some (v.values_seen n)

/-- The values that are read of tuples do not depend on their order, nor on their row numbers. -/
theorem mem_filterMap_seen {α : Type} {f : Tuple → Option α} (hf : ∀ u : Tuple, f (u.seen n) = f u)
    {us vs : List Tuple} (h : (us.map (·.seen n)).Perm vs) (x : α) :
    x ∈ us.filterMap f ↔ x ∈ vs.filterMap f := by
  rw [← (h.filterMap f).mem_iff, List.filterMap_map]
  have hsame : (f ∘ fun u : Tuple => u.seen n) = f := funext hf
  rw [hsame]

theorem DrawAll.rowsOf (h : DrawAll c n ts e Ls e') : ∀ {s sets}, s.Shows c e →
    (TupleStream.rowsOf cs ts s).result = .ok sets →
      (TupleStream.rowsOf cs ts s).state.Shows c e' ∧
        List.Forall₂ (fun rows (L : Trace) => ∀ r : List Value,
          r ∈ rows ↔ r ∈ (L.map Prod.snd).filterMap (alignedRow? cs)) sets Ls := by
  induction h with
  | nil e =>
    intro s sets hs hok
    cases hok
    exact ⟨hs, .nil⟩
  | @cons t ts e e₁ e' L Ls ht _ ih =>
    intro s sets hs hok
    have hadd : ∀ (us : List Tuple) (a : List (List Value)) (u : Tuple) (s : RunState)
        (b : List (List Value)) (s' : RunState), (∀ r, r ∈ a ↔ r ∈ us.filterMap (alignedRow? cs)) →
        ((Crash.lifted (align cs u)).map fun u => u.values :: a, s) = (.ok b, s') →
        ∀ r, r ∈ b ↔ r ∈ (us ++ [u]).filterMap (alignedRow? cs) := by
      intro us a u s b s' ha hb r
      obtain ⟨v, hv, rfl⟩ := Except.map_eq_ok.1 (Prod.mk.inj hb).1
      have hrow : alignedRow? cs u = some v.values := by
        rw [alignedRow?, Crash.lifted_eq_ok.1 hv]
        rfl
      rw [List.filterMap_append, List.mem_cons, List.mem_append, ha r, or_comm]
      simp [hrow]
    simp only [TupleStream.rowsOf] at hok ⊢
    cases hread : t.drain _ [] s with
    | mk r left s' =>
      rw [hread] at hok
      cases r with
      | error f => cases hok
      | ok rows =>
        obtain ⟨sets, hlater, rfl⟩ := Except.map_eq_ok.1 hok
        obtain ⟨hs', us, hrows, hus⟩ := ht.read hs (congrArg Drained.result hread) (fun _ => Iff.rfl)
          (fun hs hb => (Prod.mk.inj hb).2 ▸ hs) hadd
        rw [hread] at hs'
        obtain ⟨hend, hsets⟩ := ih hs' hlater
        exact ⟨hend, .cons (fun r => (hrows r).trans (mem_filterMap_seen (alignedRow?_seen cs) hus r))
          hsets⟩

/-- The rows of values that are in all the sets are those that are in all the traces. -/
theorem all_mem_iff {sets : List (List (List Value))} {rowIn : Trace → List Value → Prop}
    (h : List.Forall₂ (fun rows L => ∀ r, r ∈ rows ↔ rowIn L r) sets Ls) (r : List Value) :
    (sets.all fun rows => decide (r ∈ rows)) = true ↔ ∀ L ∈ Ls, rowIn L r := by
  induction h with
  | nil => simp
  | cons hrows _ ih =>
    rw [List.all_cons, Bool.and_eq_true, decide_eq_true_eq, hrows r, ih, List.forall_mem_cons]

theorem Twin.intersect {first first' : TupleStream} (cs : List Column)
    (hfirst : first.Twin c false (Tuple.Fits strict input) first')
    (hothers : List.Forall₂ (Twin c false P) ts ts') :
    (TupleStream.intersect cs (first :: ts)).Twin c false (Tuple.Fits strict cs)
      (TupleStream.intersect cs (first' :: ts')) := by
  have haligned : (first.changeEach (align cs)).Twin c false (Tuple.Fits strict cs)
      (first'.changeEach (align cs)) :=
    hfirst.choose (changeEach_chooses (align_seen cs)) fun _ u v hu hv =>
      hu.align (Except.toOption_eq_some.1 hv)
  intro e
  obtain ⟨Ls, e₁, _, hts, hts'⟩ := exists_drawAll hothers e
  obtain ⟨L, e', hL, ht, ht'⟩ := haligned e₁
  have hdraws {first : TupleStream} {ts : List TupleStream} (hts : DrawAll c false ts e Ls e₁)
      (ht : (first.changeEach (align cs)).Draws c false e₁ L e') :
      (TupleStream.intersect cs (first :: ts)).Draws c false e (Trace.firsts
        (fun r => ∀ L ∈ Ls, r ∈ (L.map Prod.snd).filterMap (alignedRow? cs)) []
        (Trace.choose (fun _ u => some (u.seen false)) L)) e' := by
    refine .afterOthers fun s hs sets hsets => ?_
    obtain ⟨hs₁, hrows⟩ := hts.rowsOf hs hsets
    exact ⟨e₁, hs₁, ht.firsts (all_mem_iff hrows) fun y hy => (hL y hy).1⟩
  exact ⟨_, e', fits_firsts hL, hdraws hts ht, hdraws hts' ht'⟩

end

end

/-! ### Sub-queries -/

/-- Whether sub-queries that are read one after another lead from one view to another. Each is read
while its own results are hidden. -/
inductive BindAll (c : Frame) (p : Predicate) : List (GroupId × TupleStream) → View → View → Prop
  | nil (e : View) : BindAll c p [] e e
  | cons {g : GroupId} {t : TupleStream} {queries : List (GroupId × TupleStream)} {e e₁ e' : View}
    {L : Trace} : g ∉ c.hidden → t.Keeps (· ≠ g) (fun _ => True) →
    t.Draws (c.hide g) false (e.hide g) L e₁ →
    BindAll c p queries
      (e₁.bind g {v | v ∈ (L.map Prod.snd).filterMap (read? (columnRead? p g))}) e' →
    BindAll c p ((g, t) :: queries) e e'

theorem read?_seen (column : Option Column) (u : Tuple) : read? column (u.seen n) = read? column u := by
  cases n <;> rfl

theorem bindTuple_shows {g : GroupId} {column : Option Column} {u : Tuple}
    (hs : s.Shows (c.hide g) e) (h : bindTuple g column u s = (.ok (), s')) :
    s'.Shows (c.hide g) e := by
  unfold bindTuple at h
  split at h
  · cases h
  · cases h
    exact hs
  · cases h
    exact hs.setSubquery_hidden _

theorem BindAll.shows {p : Predicate} {queries : List (GroupId × TupleStream)}
    (h : BindAll c p queries e e') : ∀ {s}, s.Shows c e →
      (bindSubqueries p queries s).result = .ok () →
      (bindSubqueries p queries s).state.Shows c e' := by
  induction h with
  | nil e => exact fun hs _ => hs
  | @cons g t queries e e₁ e' L hg hkeeps ht _ ih =>
    intro s hs hok
    have hopened : RunState.Shows { s with bindings := s.bindings.openSubquery g } (c.hide g)
        (e.hide g) := (hs.hide g).setSubquery_hidden []
    have hempty : (s.bindings.openSubquery g).subquery? g = some [] :=
      Bindings.subquery?_setSubquery_self s.bindings g []
    have hread := drain_bindTuple (fun hne => hne rfl) (columnRead? p g) t hkeeps
      (s := { s with bindings := s.bindings.openSubquery g }) hempty
    have hdrain := @Draws.drain _ _ _ Unit (fun _ => bindTuple g (columnRead? p g))
      (fun hs hb => bindTuple_shows hs hb) t _ _ _ () () ht hopened
    simp only [bindSubqueries] at hok ⊢
    generalize t.drain _ _ _ = read at hok hread hdrain ⊢
    obtain ⟨f | _, left, s'⟩ := read
    · cases hok
    · obtain ⟨hs', htaken⟩ := hdrain rfl
      have hbound := hs'.bound hg (hread rfl).2
      have hsame := Set.ext fun v => mem_filterMap_seen (read?_seen (columnRead? p g)) htaken v
      exact ih (hsame ▸ hbound) hok

/-- Whether two streams can stand for one sub-query, whose results they do not touch. -/
structure SameQuery (c : Frame) (q q' : GroupId × TupleStream) : Prop where
  group : q.1 = q'.1
  shown : q.1 ∉ c.hidden
  keeps : q.2.Keeps (· ≠ q.1) (fun _ => True)
  keeps' : q'.2.Keeps (· ≠ q.1) (fun _ => True)
  twins : ∃ P, q.2.Twin (c.hide q.1) false P q'.2

theorem exists_bindAll (p : Predicate) {queries queries' : List (GroupId × TupleStream)}
    (h : List.Forall₂ (SameQuery c) queries queries') :
    ∀ e, ∃ e', BindAll c p queries e e' ∧ BindAll c p queries' e e' := by
  induction h with
  | nil => exact fun e => ⟨e, .nil e, .nil e⟩
  | @cons q q' _ _ hq _ ih =>
    intro e
    obtain ⟨g, t⟩ := q
    obtain ⟨g', t'⟩ := q'
    obtain ⟨rfl, hg, hkeeps, hkeeps', P, htwin⟩ := hq
    obtain ⟨L, e₁, _, ht, ht'⟩ := htwin (e.hide g)
    obtain ⟨e', hrest, hrest'⟩ :=
      ih (e₁.bind g {v | v ∈ (L.map Prod.snd).filterMap (read? (columnRead? p g))})
    exact ⟨e', .cons hg hkeeps ht hrest, .cons hg hkeeps' ht' hrest'⟩

theorem Twin.filter {p : Predicate} (hp : p.atoms.all (fun atom => atom.1.isListing) = true)
    (hread : ∀ g ∈ p.bindings.filterMap Binding.group?, g ∉ c.hidden) (h : t.Twin c n P t') :
    (t.filter p).Twin c n P (t'.filter p) :=
  h.choose (filter_chooses hp hread) fun _ _ _ hu hv => filtered_eq_some hv ▸ hu

theorem Twin.subselect {p : Predicate} (hp : p.atoms.all (fun atom => atom.1.isListing) = true)
    (hread : ∀ g ∈ p.bindings.filterMap Binding.group?, g ∉ c.hidden) {groups : List GroupId}
    {first first' : TupleStream} {others others' : List TupleStream} (hfirst : first.Twin c n P first')
    (hothers : List.Forall₂ (SameQuery c) (groups.zip others) (groups.zip others')) :
    (TupleStream.subselect p groups (first :: others)).Twin c n P
      (TupleStream.subselect p groups (first' :: others')) := by
  intro e
  obtain ⟨e₁, hbind, hbind'⟩ := exists_bindAll p hothers e
  obtain ⟨L, e', hL, ht, ht'⟩ := hfirst.filter hp hread e₁
  refine ⟨L, e', hL, .afterOthers fun s hs _ hok => ?_, .afterOthers fun s hs _ hok => ?_⟩
  · exact ⟨e₁, hbind.shows hs hok, ht⟩
  · exact ⟨e₁, hbind'.shows hs hok, ht'⟩

end TupleStream

end

end QueryEngine
