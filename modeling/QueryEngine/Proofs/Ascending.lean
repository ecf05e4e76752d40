import QueryEngine.Proofs.FunctionColumns
import QueryEngine.Proofs.Typing

/-!
# Streams in order

A stream ascends by sort keys if no tuple that it gives is less than the one before, in whatever
states it is pulled. Sorts make such streams, and merges make one of several. What works tuple by
tuple keeps a stream in order by those keys that it carries over.
-/

set_option autoImplicit false

namespace QueryEngine

open Std

/-! ## Keys -/

namespace Tuple

variable {u v found : Tuple} {cs ds : List Column} {c : Column} {x : Value}

theorem valueOf_eq (h : u.getOrNull c = .ok x) : u.valueOf c = x := by
  rw [valueOf, h]

theorem valueOf_congr (h : u.get? c = v.get? c) : u.valueOf c = v.valueOf c := by
  rw [valueOf, valueOf, getOrNull, getOrNull, h]

theorem valueOf_project (h : u.project cs = .ok v) (hc : c ∈ cs) : v.valueOf c = u.valueOf c := by
  have hlaid : v.Laid cs := laid_layout.project h
  obtain ⟨values, hvalues, rfl⟩ := Except.map_eq_ok.1 h
  exact (valueOf_eq (rel_of_get? (Except.mapM_eq_ok.1 hvalues) (hlaid.get?_eq hc))).symm

theorem valueOf_complete (hu : u.Laid ds) (h : TupleStream.complete cs u found = .ok v)
    (hc : c ∈ cs) (hd : c ∈ ds) : v.valueOf c = u.valueOf c := by
  have hlaid : v.Laid cs := laid_layout.complete h
  obtain ⟨values, hvalues, rfl⟩ := Except.map_eq_ok.1 h
  have hread := rel_of_get? (Except.mapM_eq_ok.1 hvalues) (hlaid.get?_eq hc)
  rw [hu.get?_eq hd] at hread
  exact (Except.ok.inj hread).symm

end Tuple

namespace SortOrder

/-- Whether the keys of a tuple are null or of the kinds of their columns. -/
def OfKinds (order : SortOrder) (kinds : Column → String) (u : Tuple) : Prop :=
  ∀ key ∈ order, (u.valueOf key.1).isNull = true ∨ (u.valueOf key.1).kindName = kinds key.1

/-- Whether two tuples have the same keys. -/
def SameKeys (order : SortOrder) (u v : Tuple) : Prop :=
  ∀ key ∈ order, u.valueOf key.1 = v.valueOf key.1

variable {order front : SortOrder} {kinds : Column → String} {u u' v v' : Tuple}

theorem SameKeys.refl (order : SortOrder) (u : Tuple) : order.SameKeys u u := fun _ _ => rfl

theorem OfKinds.congr (h : order.SameKeys v u) (hu : order.OfKinds kinds u) :
    order.OfKinds kinds v := by
  intro key hkey
  rw [h key hkey]
  exact hu key hkey

theorem OfKinds.mono (hsub : ∀ key ∈ front, key ∈ order) (h : order.OfKinds kinds u) :
    front.OfKinds kinds u :=
  fun key hkey => h key (hsub key hkey)

theorem OfKinds.sameKind (hu : order.OfKinds kinds u) (hv : order.OfKinds kinds v)
    {key : Column × Direction} (hkey : key ∈ order) :
    (u.valueOf key.1).SameKind (v.valueOf key.1) := by
  rcases hu key hkey with hu | hu
  · exact .inl hu
  · rcases hv key hkey with hv | hv
    · exact .inr (.inl hv)
    · exact .inr (.inr (hu.trans hv.symm))

theorem compareKeys_congr (hu : order.SameKeys u u') (hv : order.SameKeys v v') :
    order.compareKeys u v = order.compareKeys u' v' := by
  induction order with
  | nil => rfl
  | cons key rest ih =>
    obtain ⟨c, d⟩ := key
    have hrest := ih (fun key hkey => hu key (List.mem_cons_of_mem _ hkey))
      fun key hkey => hv key (List.mem_cons_of_mem _ hkey)
    have huc : u.valueOf c = u'.valueOf c := hu (c, d) List.mem_cons_self
    have hvc : v.valueOf c = v'.valueOf c := hv (c, d) List.mem_cons_self
    cases d <;> simp only [compareKeys, compareLex, hrest, huc, hvc]

theorem compareKeys_append (front rest : SortOrder) (u v : Tuple) :
    compareKeys (front ++ rest) u v = (front.compareKeys u v).then (rest.compareKeys u v) := by
  induction front with
  | nil => rfl
  | cons key front ih =>
    obtain ⟨c, d⟩ := key
    cases d <;>
      simp only [List.cons_append, compareKeys, compareLex, ih, Ordering.then_assoc]

/-- What is in order by some keys is so by the first of them. -/
theorem isLE_of_prefix (hfront : front <+: order) (h : (order.compareKeys u v).isLE) :
    (front.compareKeys u v).isLE := by
  obtain ⟨rest, rfl⟩ := hfront
  rw [compareKeys_append] at h
  cases hc : front.compareKeys u v with
  | lt => rfl
  | eq => rfl
  | gt =>
    rw [hc] at h
    cases h

theorem isLE_self (order : SortOrder) (u : Tuple) : (order.compareKeys u u).isLE := by
  have hself : order.compareKeys u u = .eq := ReflCmp.compare_self
  rw [hself]
  rfl

end SortOrder

/-- Tuples with the columns `cs` whose keys are null or of the kinds of their columns. -/
structure Tuple.Keyed (cs : List Column) (kinds : Column → String) (order : SortOrder) (u : Tuple) :
    Prop where
  laid : u.Laid cs
  kinds : order.OfKinds kinds u

theorem SortOrder.sortable_of_keyed {order : SortOrder} {kinds : Column → String} {cs : List Column}
    {us : List Tuple} (h : ∀ u ∈ us, u.Keyed cs kinds order) : order.Sortable cs us :=
  ⟨fun u hu => (h u hu).laid,
    fun _ hkey u hu v hv => (h u hu).kinds.sameKind (h v hv).kinds hkey⟩

/-! ## Without room for runs -/

namespace TupleStream.SpillState

variable {ρ : Type}

/-- Where no run can be written, a sort does as where one can or ends in an error. -/
theorem spill_cases (order : SortOrder) (canSpill : Bool) (write : List Tuple → ρ) (a : SpillState ρ)
    (s : RunState) : a.spill order canSpill write s = a.spill order true write s ∨
      ∃ f s', a.spill order canSpill write s = (.error f, s') ∧ s.Recounted s' := by
  cases canSpill with
  | true => exact .inl rfl
  | false =>
    rw [spill, spill, sorted]
    cases order.sortTuples a.waiting with
    | error c => exact .inl rfl
    | ok run => exact .inr ⟨_, _, rfl, .count s _⟩

theorem add_cases (order : SortOrder) (chunk : Nat) (canSpill : Bool) (write : List Tuple → ρ)
    (a : SpillState ρ) (u : Tuple) (s : RunState) :
    a.add order chunk canSpill write u s = a.add order chunk true write u s ∨
      ∃ f s', a.add order chunk canSpill write u s = (.error f, s') ∧ s.Recounted s' := by
  rw [add, add]
  split
  · exact spill_cases order canSpill write _ s
  · exact .inl rfl

theorem finish_cases (order : SortOrder) (canSpill : Bool) (write : List Tuple → ρ)
    (read : ρ → TupleStream) (a : SpillState ρ) (s : RunState) :
    a.finish order canSpill write read s = a.finish order true write read s ∨
      ∃ f s', a.finish order canSpill write read s = (.error f, s') ∧ s.Recounted s' := by
  simp only [finish]
  split
  · exact .inl rfl
  · split
    · exact .inl rfl
    · rcases spill_cases order canSpill write a s with he | ⟨f, s', he, hs'⟩
      · rw [he]
        exact .inl rfl
      · rw [he]
        exact .inr ⟨f, s', rfl, hs'⟩

end TupleStream.SpillState

/-! ## Streams that ascend -/

/-- Whether a computation leaves a state with the property `I` and comes to a result with the
property `Q`, if to any. -/
structure Outcome.Leaves {α : Type} (I : RunState → Prop) (Q : α → Prop) (o : Outcome α) : Prop where
  state : I o.2
  ok : ∀ a, o.1 = .ok a → Q a

namespace Outcome.Leaves

variable {α β : Type} {I : RunState → Prop} {Q : α → Prop} {R : β → Prop} {s : RunState}

theorem of_ok {a : α} (ha : Q a) (hs : I s) : Outcome.Leaves I Q (.ok a, s) :=
  ⟨hs, fun _ he => Except.ok.inj he ▸ ha⟩

theorem of_error {f : Failure} (hs : I s) : Outcome.Leaves I Q ((.error f, s) : Outcome α) :=
  ⟨hs, fun _ he => nomatch he⟩

theorem map {f : α → β} {o : Outcome α} (h : Outcome.Leaves I Q o) (hf : ∀ a, Q a → R (f a)) :
    Outcome.Leaves I R (Outcome.map f o) := by
  obtain ⟨r, s⟩ := o
  cases r with
  | ok a => exact of_ok (hf a (h.ok a rfl)) h.state
  | error e => exact of_error h.state

end Outcome.Leaves

mutual

/-- Whether a stream that is pulled in states with the property `I` gives tuples with the property `P`
only, none less than the one before, which is `last` in front of the first, and leaves such states. -/
def TupleStream.Ascends (I : RunState → Prop) (P : Tuple → Prop) (order : SortOrder) :
    TupleStream → Option Tuple → Prop
  | .ended, _ => True
  | .of pull, last => ∀ s, I s → Reply.Ascends I P order (pull s) last

def Reply.Ascends (I : RunState → Prop) (P : Tuple → Prop) (order : SortOrder) :
    Reply → Option Tuple → Prop
  | .row u s rest, last => P u ∧ (∀ v ∈ last, (order.compareKeys v u).isLE) ∧ I s ∧
      TupleStream.Ascends I P order rest (some u)
  | .finished s _, _ => I s
  | .failed _ s, _ => I s
  | .crashed _ s _, _ => I s

end

theorem Verdict.emit_ofResult {α σ : Type} {r : Except Failure α} {f : α → Tuple} {b next : σ}
    {v : Tuple} (h : Verdict.ofResult r (fun a => .emit (f a) b) = .emit v next) :
    ∃ a, r = .ok a ∧ v = f a := by
  cases r with
  | error e => cases h
  | ok a =>
    cases h
    exact ⟨a, rfl, rfl⟩

/-- A transducer that makes tuples with the property `Q` from tuples with the property `P` and
carries the keys over. -/
def Transducer.Carries {σ : Type} (I : RunState → Prop) (P Q : Tuple → Prop) (order : SortOrder)
    (m : Transducer σ) : Prop :=
  ∀ a u s, P u → I s → I (m.step a u s).2 ∧
    ∀ v next, (m.step a u s).1 = .emit v next → Q v ∧ order.SameKeys v u

namespace TupleStream

variable {I : RunState → Prop} {P Q : Tuple → Prop} {order front : SortOrder} {t : TupleStream}
  {last last' : Option Tuple}

theorem ascends_iff : t.Ascends I P order last ↔
    ∀ s, I s → (t.pull s).Ascends I P order last := by
  cases t with
  | ended => exact iff_of_true trivial fun s hs => hs
  | of pull => exact Iff.rfl

/-- Without keys all that counts is what a stream supplies. -/
theorem ascends_nil_iff (t : TupleStream) : ∀ {last}, t.Ascends I P [] last ↔ t.Supplies I P := by
  induction t using TupleStream.induct with
  | step t ih =>
    intro last
    rw [ascends_iff, supplies_iff]
    refine forall₂_congr fun s _ => ?_
    have rests := ih s
    generalize t.pull s = r at rests
    cases r with
    | row u s' rest =>
      have hrest : rest.Ascends I P [] (some u) ↔ rest.Supplies I P := rests u s' rest rfl
      have hnone : ∀ v ∈ last, (SortOrder.compareKeys [] v u).isLE := fun _ _ => rfl
      exact and_congr_right fun _ => (and_iff_right hnone).trans (and_congr_right fun _ => hrest)
    | finished s' rest => exact Iff.rfl
    | failed e s' => exact Iff.rfl
    | crashed c s' rest => exact Iff.rfl

namespace Ascends

theorem mono (hPQ : ∀ u, P u → Q u) (hfront : front <+: order)
    (h : t.Ascends I P order last) : t.Ascends I Q front last := by
  induction t using TupleStream.induct generalizing last with
  | step t ih =>
    refine ascends_iff.2 fun s hs => ?_
    have hpull := ascends_iff.1 h s hs
    have rests := ih s
    generalize t.pull s = r at hpull rests
    cases r with
    | row u s' rest =>
      obtain ⟨hu, hlast, hs', hrest⟩ := hpull
      exact ⟨hPQ u hu, fun v hv => SortOrder.isLE_of_prefix hfront (hlast v hv), hs',
        rests u s' rest rfl hrest⟩
    | finished s' rest => exact hpull
    | failed e s' => exact hpull
    | crashed c s' rest => exact hpull

theorem supplies (h : t.Ascends I P order last) : t.Supplies I P :=
  t.ascends_nil_iff.1 (h.mono (fun _ hu => hu) List.nil_prefix)

/-- Tuples have a further property if the stream supplies such only, also in other states. -/
theorem and {J : RunState → Prop} (hJ : ∀ s, I s → J s) (t : TupleStream) :
    ∀ {last}, t.Ascends I P order last → t.Supplies J Q →
      t.Ascends I (fun u => P u ∧ Q u) order last := by
  induction t using TupleStream.induct with
  | step t ih =>
    intro last h hsupplies
    refine ascends_iff.2 fun s hs => ?_
    have hpull := ascends_iff.1 h s hs
    have hsupplied := supplies_iff.1 hsupplies s (hJ s hs)
    have rests := ih s
    generalize t.pull s = r at hpull hsupplied rests
    cases r with
    | row u s' rest =>
      obtain ⟨hu, hlast, hs', hrest⟩ := hpull
      exact ⟨⟨hu, hsupplied.1⟩, hlast, hs', rests u s' rest rfl hrest hsupplied.2.2⟩
    | finished s' rest => exact hpull
    | failed e s' => exact hpull
    | crashed c s' rest => exact hpull

/-! ### Combinators -/

theorem ofLists {us : List Tuple} (hlists : t.Lists us) (hus : ∀ u ∈ us, P u)
    (hsorted : us.Pairwise fun u v => (order.compareKeys u v).isLE)
    (hlast : ∀ v ∈ last, ∀ u ∈ us, (order.compareKeys v u).isLE) : t.Ascends I P order last := by
  induction us generalizing t last with
  | nil =>
    refine ascends_iff.2 fun s hs => ?_
    obtain ⟨rest, hpull⟩ := hlists s
    rw [hpull]
    exact hs
  | cons u us ih =>
    obtain ⟨hu, hrest⟩ := List.forall_mem_cons.1 hus
    obtain ⟨hbelow, hsorted⟩ := List.pairwise_cons.1 hsorted
    refine ascends_iff.2 fun s hs => ?_
    obtain ⟨rest, hpull, hlists⟩ := hlists s
    rw [hpull]
    refine ⟨hu, fun v hv => hlast v hv u List.mem_cons_self, hs, ih hlists hrest hsorted ?_⟩
    rintro _ ⟨⟩
    exact hbelow

theorem deferred {start : RunState → Outcome TupleStream}
    (h : ∀ s, I s → (start s).Leaves I fun t => t.Ascends I P order last) :
    (TupleStream.deferred start).Ascends I P order last := by
  refine ascends_iff.2 fun s hs => ?_
  obtain ⟨hs', ht⟩ := h s hs
  simp only [TupleStream.deferred, pull_of]
  generalize start s = o at hs' ht
  obtain ⟨f | t, s'⟩ := o
  · cases f <;> exact hs'
  · exact ascends_iff.1 (ht t rfl) s' hs'

theorem transduce {σ : Type} {m : Transducer σ} (hm : m.Carries I P Q order) (t : TupleStream) :
    ∀ {a last last'}, t.Ascends I P order last →
      (∀ v ∈ last', ∃ w ∈ last, (order.compareKeys v w).isLE) →
      (t.transduce m a).Ascends I Q order last' := by
  induction t using inductRests with
  | ended => exact fun _ _ => trivial
  | of pull ih =>
    intro a last last' h hlast
    refine ascends_iff.2 fun s hs => ?_
    simp only [TupleStream.transduce, pull_of]
    split
    · exact hs
    · exact hs
    · have hpull := h s hs
      have rests := ih s
      generalize pull s = r at hpull rests
      cases r with
      | finished s' rest => exact hpull
      | failed e s' => exact hpull
      | crashed c s' rest => exact hpull
      | row u s' rest =>
        obtain ⟨hu, habove, hs', hrest⟩ := hpull
        obtain ⟨hafter, hemitted⟩ := hm a u s' hu hs'
        have hlast' : ∀ v ∈ last', (order.compareKeys v u).isLE := by
          intro v hv
          obtain ⟨w, hw, hvw⟩ := hlast v hv
          exact TransCmp.isLE_trans hvw (habove w hw)
        simp only [Reply.transduce]
        generalize m.step a u s' = judged at hafter hemitted
        obtain ⟨verdict, s''⟩ := judged
        cases verdict with
        | emit v next =>
          obtain ⟨hv, hsame⟩ := hemitted v next rfl
          refine ⟨hv, fun w hw => ?_, hafter, rests rest rfl hrest ?_⟩
          · rw [SortOrder.compareKeys_congr (.refl order w) hsame]
            exact hlast' w hw
          · rintro _ ⟨⟩
            refine ⟨u, rfl, ?_⟩
            rw [SortOrder.compareKeys_congr hsame (.refl order u)]
            exact order.isLE_self u
        | drop next =>
          refine ascends_iff.1 (rests rest rfl hrest ?_) s'' hafter
          exact fun v hv => ⟨u, rfl, hlast' v hv⟩
        | fail f => cases f <;> exact hafter

theorem steady {σ : Type} {step : σ → Tuple → RunState → Verdict σ × RunState}
    (h : t.Ascends I P order none) (hstep : ∀ a u s, P u → I s → I (step a u s).2 ∧
      ∀ v next, (step a u s).1 = .emit v next → Q v ∧ order.SameKeys v u) (a : σ) :
    (t.transduce (.steady step) a).Ascends I Q order none :=
  have hcarries : (Transducer.steady step).Carries I P Q order := hstep
  transduce hcarries t h fun _ hv => nomatch hv

theorem onWorker (group : GroupId) (t : TupleStream) :
    ∀ {last}, t.Ascends I P order last → (t.onWorker group).Ascends I P order last := by
  induction t using TupleStream.induct with
  | step t ih =>
    intro last h
    refine ascends_iff.2 fun s hs => ?_
    rw [pull_onWorker]
    have hpull := ascends_iff.1 h s hs
    have rests := ih s
    generalize t.pull s = r at hpull rests
    cases r with
    | row u s' rest =>
      obtain ⟨hu, hlast, hs', hrest⟩ := hpull
      exact ⟨hu, hlast, hs', rests u s' rest rfl hrest⟩
    | finished s' rest => exact hpull
    | failed e s' => exact hpull
    | crashed c s' rest => exact hpull

theorem retrying {prepare : List TupleStream → RunState → Attempt TupleStream}
    {inputs : List TupleStream}
    (h : ∀ s, I s → (prepare inputs s).outcome.Leaves I fun t => t.Ascends I P order last)
    (times : Nat) : (TupleStream.retrying prepare times inputs).Ascends I P order last := by
  cases times with
  | zero => exact trivial
  | succ times =>
    refine ascends_iff.2 fun s hs => ?_
    obtain ⟨hs', ht⟩ := h s hs
    rw [pull_retrying]
    split
    · rename_i t hresult
      exact ascends_iff.1 (ht t hresult) _ hs'
    · rename_i f _
      cases f <;> exact hs'

end Ascends

theorem Meets.supplies {C : Contract} (t : TupleStream) :
    t.Meets C P → t.Supplies (fun _ => True) P := by
  induction t using TupleStream.induct with
  | step t ih =>
    intro h
    refine supplies_iff.2 fun s _ => ?_
    have hpull := h.pull s
    have rests := ih s
    generalize t.pull s = r at hpull rests
    cases r with
    | row u s' rest => exact ⟨hpull.1, trivial, rests u s' rest rfl hpull.2.2⟩
    | finished s' rest => trivial
    | failed e s' => trivial
    | crashed c s' rest => trivial

theorem Supplies.mono (hPQ : ∀ u, P u → Q u) (h : t.Supplies I P) : t.Supplies I Q :=
  have hascends : t.Ascends I P [] none := t.ascends_nil_iff.2 h
  t.ascends_nil_iff.1 (hascends.mono hPQ List.prefix_rfl)

theorem Supplies.onWorker (group : GroupId) (h : t.Supplies I P) :
    (t.onWorker group).Supplies I P :=
  have hascends : t.Ascends I P [] none := t.ascends_nil_iff.2 h
  (ascends_nil_iff _).1 (hascends.onWorker group t)

/-! ### Reading to the end -/

/-- What reading a stream comes to. -/
theorem Supplies.consume {σ : Type} {step : σ → Tuple → RunState → Outcome σ} {H : σ → Prop}
    (hstep : ∀ a u s, H a → P u → I s → (step a u s).Leaves I H) (t : TupleStream) :
    t.Supplies I P → ∀ {a s}, H a → I s → (t.consume step a s).Leaves I H := by
  induction t using TupleStream.induct with
  | step t ih =>
    intro h a s ha hs
    have hpull := supplies_iff.1 h s hs
    have rests := ih s
    simp only [TupleStream.consume, drain_eq] at rests ⊢
    generalize t.pull s = r at hpull rests
    cases r with
    | row u s' rest =>
      obtain ⟨hu, hs', hrest⟩ := hpull
      obtain ⟨hs'', hnext⟩ := hstep a u s' ha hu hs'
      simp only [Reply.drain]
      generalize step a u s' = o at hs'' hnext
      obtain ⟨f | next, s''⟩ := o
      · exact .of_error hs''
      · simp only [drain_eq step rest]
        exact rests u s' rest rfl hrest (hnext next rfl) hs''
    | finished s' rest => exact .of_ok ha hpull
    | failed e s' => exact .of_error hpull
    | crashed c s' rest => exact .of_error hpull

theorem Supplies.bindSubqueries (hI : RunState.Lasting I) (p : Predicate) {ts : List TupleStream}
    (h : ∀ t ∈ ts, t.Supplies I fun _ => True) : ∀ {groups : List GroupId} {s}, I s →
      (TupleStream.bindSubqueries p (groups.zip ts) s).outcome.Leaves I fun _ => True := by
  induction ts with
  | nil =>
    intro groups s hs
    rw [List.zip_nil_right]
    exact .of_ok trivial hs
  | cons t rest ih =>
    intro groups s hs
    cases groups with
    | nil => exact .of_ok trivial hs
    | cons g groups =>
      obtain ⟨ht, hrest⟩ := List.forall_mem_cons.1 h
      have hbind (x : Unit) (u : Tuple) (s : RunState) (hs : I s) :
          (bindTuple g (columnRead? p g) u s).Leaves I fun _ => True := by
        simp only [bindTuple]
        rcases resultOf (columnRead? p g) u with c | ⟨_ | v⟩
        · exact .of_error hs
        · exact .of_ok trivial hs
        · exact .of_ok trivial (hI.rebind rfl hs)
      have hread := ht.consume (H := fun _ : Unit => True) (fun x u s _ _ hs => hbind x u s hs) t
        (a := ()) trivial (hI.rebind (b := s.bindings.openSubquery g) rfl hs)
      rw [List.zip_cons_cons, TupleStream.bindSubqueries]
      rw [TupleStream.consume] at hread
      generalize t.drain _ () _ = read at hread
      obtain ⟨result, left, s'⟩ := read
      cases result with
      | error f => exact .of_error hread.state
      | ok x => exact ih hrest hread.state

namespace Ascends

/-! ### Tuple by tuple -/

theorem filter (hI : RunState.Lasting I) (p : Predicate) (h : t.Ascends I P order none) :
    (t.filter p).Ascends I P order none := by
  refine h.steady (fun _ u s hu hs => ?_) ()
  cases p.holds s.bindings u with
  | error f => exact ⟨hs, fun v next he => nomatch he⟩
  | ok keep =>
    refine ⟨hI.recount hs (.count s _), fun v next he => ?_⟩
    cases keep with
    | false => cases he
    | true =>
      cases he
      exact ⟨hu, .refl order u⟩

theorem changeEach {change : Tuple → Except Crash Tuple}
    (hchange : ∀ u v, P u → change u = .ok v → Q v ∧ order.SameKeys v u)
    (h : t.Ascends I P order none) : (t.changeEach change).Ascends I Q order none := by
  refine h.steady (fun _ u s hu hs => ⟨hs, fun v next he => ?_⟩) ()
  obtain ⟨_, hv, rfl⟩ := Verdict.emit_ofResult he
  exact hchange u v hu (Crash.lifted_eq_ok.1 hv)

theorem apply (f : Function) (arguments : List Binding) {cs : List Column}
    (hextend : ∀ u v, P u → Q (u.extend cs v) ∧ order.SameKeys (u.extend cs v) u)
    (h : t.Ascends I P order none) : (t.apply f arguments cs).Ascends I Q order none := by
  refine h.steady (fun _ u s hu hs => ⟨hs, fun v next he => ?_⟩) ()
  obtain ⟨x, -, rfl⟩ := Verdict.emit_ofResult he
  exact hextend u x hu

theorem fetch (hI : RunState.Lasting I) (table : TableHandle) (wanted : List Column)
    {cs : List Column}
    (hproject : ∀ u v, P u → u.project cs = .ok v → Q v ∧ order.SameKeys v u)
    (hcomplete : ∀ u found v, P u → TupleStream.complete cs u found = .ok v →
      Q v ∧ order.SameKeys v u)
    (h : t.Ascends I P order none) : (t.fetch table wanted cs).Ascends I Q order none := by
  refine h.steady (fun _ u s hu hs => ?_) ()
  cases (wanted.filterM fun c => return (← u.get? c).isNone : Except Crash (List Column)) with
  | error c => exact ⟨hs, fun v next he => nomatch he⟩
  | ok missing =>
    cases missing with
    | nil =>
      refine ⟨hs, fun v next he => ?_⟩
      obtain ⟨_, hv, rfl⟩ := Verdict.emit_ofResult he
      exact hproject u v hu (Crash.lifted_eq_ok.1 hv)
    | cons c rest =>
      simp only
      have hafter : ∀ {found x}, (s.table table).read u.row (c :: rest) = .ok (found, x) →
          I (s.setTable table x) := fun hread => hI.read (Table.unread_read hread) hs
      rcases hread : (s.table table).read u.row (c :: rest) with e | ⟨_ | found, x⟩
      · exact ⟨hs, fun v next he => nomatch he⟩
      · exact ⟨hafter hread, fun v next he => nomatch he⟩
      · refine ⟨hafter hread, fun v next he => ?_⟩
        obtain ⟨_, hv, rfl⟩ := Verdict.emit_ofResult he
        exact hcomplete u found v hu (Crash.lifted_eq_ok.1 hv)

theorem limit (bounds : RowLimit) (h : t.Ascends I P order none) :
    (t.limit bounds).Ascends I P order none := by
  refine transduce (fun left u s hu hs => ⟨hs, fun v next he => ?_⟩) t h fun _ hv => nomatch hv
  obtain ⟨skip, room⟩ := left
  simp only at he
  split at he
  · cases he
  · cases he
    exact ⟨hu, .refl order u⟩

theorem subselect (hI : RunState.Lasting I) (p : Predicate) (groups : List GroupId)
    {others : List TupleStream} (hothers : ∀ u ∈ others, u.Supplies I fun _ => True)
    (h : t.Ascends I P order none) :
    (TupleStream.subselect p groups (t :: others)).Ascends I P order none := by
  refine retrying (fun s hs => ?_) _
  have hbound : (TupleStream.bindSubqueries p (groups.zip others) s).outcome.Leaves I
      fun _ => True := Supplies.bindSubqueries hI p hothers hs
  exact hbound.map fun _ _ => h.filter hI p

/-! ### Sorts -/

section

variable {cs : List Column} {kinds : Column → String}

/-- What is read to the end and then given in order. -/
theorem gathered {α : Type} {add : α → Tuple → RunState → Outcome α}
    {finish : α → RunState → Outcome TupleStream} {a : α} {H : List Tuple → α → Prop}
    (hstart : H [] a)
    (hadd : ∀ us u b s, H us b → order.Sortable cs (us ++ [u]) → I s →
      (add b u s).Leaves I (H (us ++ [u])))
    (hfinish : ∀ us b s, H us b → order.Sortable cs us → I s → (finish b s).Leaves I fun t =>
      ∃ out, t.Lists out ∧ (∀ u ∈ out, u ∈ us) ∧
        out.Pairwise fun u v => (order.compareKeys u v).isLE)
    (h : t.Supplies I (Tuple.Keyed cs kinds order)) :
    (t.gathered add finish a).Ascends I (Tuple.Keyed cs kinds order) order none := by
  refine deferred fun s hs => ?_
  have hread : (t.consume add a s).Leaves I fun b =>
      ∃ us, (∀ u ∈ us, Tuple.Keyed cs kinds order u) ∧ H us b := by
    refine h.consume (fun b u s hb hu hs => ?_) t ⟨[], List.forall_mem_nil _, hstart⟩ hs
    obtain ⟨us, hus, hb⟩ := hb
    have hmore : ∀ v ∈ us ++ [u], Tuple.Keyed cs kinds order v :=
      List.forall_mem_append.2 ⟨hus, List.forall_mem_singleton.2 hu⟩
    have hnext := hadd us u b s hb (SortOrder.sortable_of_keyed hmore) hs
    exact ⟨hnext.state, fun b' hb' => ⟨us ++ [u], hmore, hnext.ok b' hb'⟩⟩
  obtain ⟨hs', hgathered⟩ := hread
  generalize t.consume add a s = o at hs' hgathered
  obtain ⟨f | b, s'⟩ := o
  · exact .of_error hs'
  · obtain ⟨us, hus, hb⟩ := hgathered b rfl
    have hgiven := hfinish us b s' hb (SortOrder.sortable_of_keyed hus) hs'
    refine ⟨hgiven.state, fun u hu => ?_⟩
    obtain ⟨out, hlists, hmem, hsorted⟩ := hgiven.ok u hu
    exact .ofLists hlists (fun v hv => hus v (hmem v hv)) hsorted fun _ hv => nomatch hv

theorem sort (hI : RunState.Lasting I) (h : t.Supplies I (Tuple.Keyed cs kinds order)) :
    (t.sort order).Ascends I (Tuple.Keyed cs kinds order) order none := by
  rw [sort_eq]
  refine gathered (H := fun us found => found = us) rfl ?_ ?_ h
  · rintro us u _ s rfl - hs
    exact .of_ok rfl hs
  · rintro us _ s rfl hsortable hs
    obtain ⟨out, hsorted, hout⟩ := sorted_eq hsortable.comparable s
    rw [hsorted]
    exact .of_ok ⟨out, .ofList out, fun u hu => hout.mem_iff.1 hu, hout.ascending⟩
      (hI.recount hs (.count s _))

theorem limitingSort (hI : RunState.Lasting I) (bounds : RowLimit)
    (h : t.Supplies I (Tuple.Keyed cs kinds order)) :
    (t.limitingSort order bounds).Ascends I (Tuple.Keyed cs kinds order) order none := by
  by_cases hreach : bounds.reach = 0
  · refine deferred fun s hs => ?_
    simp only [hreach, if_true]
    exact .of_ok trivial hs
  · rw [limitingSort_eq order hreach]
    refine gathered (H := fun us kept => ∃ out, StableSort order.compareKeys us out ∧
      kept = out.take bounds.reach.toNat) ⟨[], .nil, List.take_nil.symm⟩ ?_ ?_ h
    · intro us u kept s hkept hsortable hs
      obtain ⟨found, hfound, hheld⟩ := keepWithin_first hreach hsortable.comparable hkept s
      rw [hfound]
      exact .of_ok hheld hs
    · rintro us _ s ⟨out, hout, rfl⟩ - hs
      refine .of_ok ⟨_, .ofList _, fun u hu => ?_, ?_⟩ (hI.recount hs (.count s _))
      · exact hout.mem_iff.1 (List.mem_of_mem_take (List.mem_of_mem_drop hu))
      · exact hout.ascending.sublist ((List.drop_sublist _ _).trans (List.take_sublist _ _))

theorem externalSort (hI : RunState.Lasting I) (chunk : Nat) (canSpill : Bool)
    (h : t.Supplies I (Tuple.Keyed cs kinds order)) :
    (t.externalSort .plain order chunk canSpill cs).Ascends I (Tuple.Keyed cs kinds order) order
      none := by
  rw [externalSort_eq]
  refine gathered (H := Spilled order (relaid cs)) spilled_nil ?_ ?_ h
  · intro us u a s ha hsortable hs
    rcases a.add_cases order (max chunk 1) canSpill (relaid cs) u s with he | ⟨f, s', he, hs'⟩
    · obtain ⟨a', s', hadd, hs', ha'⟩ := add_spilled (max chunk 1) ha hsortable.comparable s
      rw [he, hadd]
      exact .of_ok ha' (hI.recount hs hs')
    · rw [he]
      exact .of_error (hI.recount hs hs')
  · intro us a s ha hsortable hs
    rcases a.finish_cases order canSpill (relaid cs) ofList s with he | ⟨f, s', he, hs'⟩
    · have hout : StableSort order.compareKeys us _ := .mergeSort us
      obtain ⟨t, s', hfinish, hs', hlists⟩ := finish_spilled ha hsortable
        (readsBack_relaid hsortable.laid) hout s
      rw [he, hfinish]
      exact .of_ok ⟨_, hlists, fun u hu => hout.mem_iff.1 hu, hout.ascending⟩ (hI.recount hs hs')
    · rw [he]
      exact .of_error (hI.recount hs hs')

end

end Ascends

end TupleStream

/-! ## Ordered merges -/

section Merges

variable {I : RunState → Prop} {P : Tuple → Prop} {order : SortOrder}

namespace StreamBundle

/-- A merge of streams that ascend. The next tuples are in order, and no tuple that is left of a
stream is less than its next one. -/
structure Ascending (I : RunState → Prop) (P : Tuple → Prop) (order : SortOrder)
    (places : List (Option TupleStream)) (heads : Heads) : Prop where
  nodup : (heads.map (·.1)).Nodup
  sorted : heads.Pairwise fun x y => (compareHeads order x y).isLE
  place : ∀ x ∈ heads, P x.2 ∧
    ∃ t, places[x.1]? = some (some t) ∧ t.Ascends I P order (some x.2)

namespace Ascending

variable {places : List (Option TupleStream)} {heads found : Heads} {i : Nat} {u : Tuple}
  {left : TupleStream}

theorem nil : Ascending I P order places [] := ⟨.nil, .nil, List.forall_mem_nil _⟩

theorem le (h : Ascending I P order places ((i, u) :: heads)) :
    ∀ x ∈ heads, (order.compareKeys u x.2).isLE := by
  intro x hx
  have hle := (List.pairwise_cons.1 h.sorted).1 x hx
  simp only [compareHeads, compareLex, Ordering.isLE_then_iff_or] at hle
  rcases hle with hlt | ⟨heq, -⟩
  · rw [hlt]
    rfl
  · rw [heq]
    rfl

theorem not_mem (h : Ascending I P order places ((i, u) :: heads)) : i ∉ heads.map (·.1) :=
  (List.nodup_cons.1 h.nodup).1

theorem tail (h : Ascending I P order places ((i, u) :: heads)) (place : Option TupleStream) :
    Ascending I P order (places.set i place) heads := by
  refine ⟨(List.nodup_cons.1 h.nodup).2, (List.pairwise_cons.1 h.sorted).2, fun x hx => ?_⟩
  rw [getElem?_set_heads h.nodup hx]
  exact h.place x (List.mem_cons_of_mem _ hx)

theorem append (h : Ascending I P order places heads) (more : List (Option TupleStream)) :
    Ascending I P order (places ++ more) heads := by
  refine ⟨h.nodup, h.sorted, fun x hx => ?_⟩
  obtain ⟨hx, t, hplace, ht⟩ := h.place x hx
  refine ⟨hx, t, ?_, ht⟩
  rw [List.getElem?_append_left (List.getElem?_eq_some_iff.1 hplace).1]
  exact hplace

/-- A further tuple of a stream takes its place among the next ones. -/
theorem add (hP : ∀ u v, P u → P v → order.compareTuples u v = .ok (order.compareKeys u v))
    (h : Ascending I P order places heads) (hi : i ∉ heads.map (·.1)) (hu : P u)
    (hplace : places[i]? = some (some left)) (hleft : left.Ascends I P order (some u))
    (hadd : addHead order i u heads = .ok found) : Ascending I P order places found := by
  have hperm := addHead_perm hadd
  have hcompare : ∀ x ∈ heads, order.compareTuples u x.2 = .ok (order.compareKeys u x.2) :=
    fun x hx => hP u x.2 hu (h.place x hx).1
  refine ⟨(hperm.map _).nodup_iff.2 (List.nodup_cons.2 ⟨hi, h.nodup⟩), ?_, fun x hx => ?_⟩
  · rw [addHead_eq hcompare] at hadd
    exact Except.ok.inj hadd ▸ StableSort.pairwise_insertBehind h.sorted _
  · rcases List.mem_cons.1 (hperm.mem_iff.1 hx) with rfl | hx
    · exact ⟨hu, left, hplace, hleft⟩
    · exact h.place x hx

end Ascending

end StreamBundle

namespace TupleStream.Ascends

open StreamBundle

variable {last : Option Tuple}

theorem merged (hP : ∀ u v, P u → P v → order.compareTuples u v = .ok (order.compareKeys u v))
    (b : StreamBundle) : ∀ {places : List (Option TupleStream)} {heads : Heads} {last}, b = ofPlaces places →
      Ascending I P order places heads → (∀ v ∈ last, ∀ x ∈ heads, (order.compareKeys v x.2).isLE) →
      (b.merged order heads).Ascends I P order last := by
  induction b using StreamBundle.induct with
  | step b ihRow ihEnd =>
    intro places heads last hb h hlast
    refine ascends_iff.2 fun s hs => ?_
    cases heads with
    | nil =>
      rw [pull_merged_nil]
      exact hs
    | cons head heads =>
      obtain ⟨i, u⟩ := head
      obtain ⟨hu, t, hplace, ht⟩ := h.place (i, u) List.mem_cons_self
      have hbelow : ∀ v ∈ last, (order.compareKeys v u).isLE :=
        fun v hv => hlast v hv (i, u) List.mem_cons_self
      have hlt : i < places.length := (List.getElem?_eq_some_iff.1 hplace).1
      rw [pull_merged_cons]
      have hpull : b.pull i s = answer places i t (t.pull s) := by
        rw [hb, pull_ofPlaces]
        simp only [hplace]
      have rests := ihRow i s
      have ends := ihEnd i s
      rw [hpull] at rests ends ⊢
      have hreply := ascends_iff.1 ht s hs
      generalize t.pull s = r at hreply rests ends
      cases r with
      | row v s' left =>
        obtain ⟨hv, huv, hs', hleft⟩ := hreply
        simp only [answer, BundleReply.mergedAfter]
        cases hadd : addHead order i v heads with
        | error c => exact hs'
        | ok found =>
          -- The stream of the tuple that is given ascends, so its next tuple is not less.
          have hnext : Ascending I P order (places.set i (some left)) found :=
            (h.tail _).add hP h.not_mem hv (List.getElem?_set_self hlt) hleft hadd
          refine ⟨hu, hbelow, hs', rests v s' _ rfl rfl hnext ?_⟩
          rintro _ ⟨⟩ x hx
          rcases List.mem_cons.1 ((addHead_perm hadd).mem_iff.1 hx) with rfl | hx
          · exact huv u rfl
          · exact h.le x hx
      | finished s' left =>
        refine ⟨hu, hbelow, hreply, ends s' _ rfl rfl (h.tail _) ?_⟩
        rintro _ ⟨⟩
        exact h.le
      | failed e s' => exact hreply
      | crashed c s' left => exact hreply

/-- The streams that are pulled first come to the places of a merge. -/
theorem firstTuples
    (hP : ∀ u v, P u → P v → order.compareTuples u v = .ok (order.compareKeys u v))
    {inputs : List TupleStream} : ∀ {done : List TupleStream} {heads : Heads} {s : RunState},
      (∀ t ∈ inputs, t.Ascends I P order none) → Ascending I P order (done.map some) heads → I s →
      (TupleStream.firstTuples order done.length inputs heads s).leaving.Leaves I
        fun x => Ascending I P order ((done ++ x.2).map some) x.1 := by
  induction inputs with
  | nil =>
    intro done heads s _ h hs
    rw [← List.append_nil done] at h
    exact .of_ok h hs
  | cons t rest ih =>
    intro done heads s hinputs h hs
    obtain ⟨ht, hrest⟩ := List.forall_mem_cons.1 hinputs
    -- What is left of the stream is the next place.
    have hafter (left : TupleStream) {found : Heads} {s' : RunState}
        (h : Ascending I P order ((done ++ [left]).map some) found) (hs' : I s') :
        ((TupleStream.firstTuples order (done.length + 1) rest found s').after left).leaving.Leaves
          I fun x => Ascending I P order ((done ++ x.2).map some) x.1 := by
      have hlater := ih hrest h hs'
      rw [List.length_append, List.length_singleton] at hlater
      rw [Attempt.leaving_after]
      refine hlater.map fun x hx => ?_
      rwa [List.append_assoc, List.singleton_append] at hx
    have hmore (left : TupleStream) : Ascending I P order ((done ++ [left]).map some) heads := by
      rw [List.map_append]
      exact h.append _
    have hreply := ascends_iff.1 ht s hs
    rw [TupleStream.firstTuples]
    generalize t.pull s = r at hreply
    cases r with
    | row u s' left =>
      obtain ⟨hu, -, hs', hleft⟩ := hreply
      simp only
      cases hadd : addHead order done.length u heads with
      | error c => exact .of_error hs'
      | ok found =>
        have hnew : done.length ∉ heads.map (·.1) := length_not_mem_heads fun x hx => by
          obtain ⟨_, t, hplace, _⟩ := h.place x hx
          exact ⟨t, hplace⟩
        exact hafter left ((hmore left).add hP hnew hu (by simp) hleft hadd) hs'
    | finished s' left => exact hafter left (hmore left) hreply
    | failed e s' => exact .of_error hreply
    | crashed c s' left => exact .of_error hreply

theorem mergeSorted (hP : ∀ u v, P u → P v → order.compareTuples u v = .ok (order.compareKeys u v))
    {inputs : List TupleStream} (h : ∀ t ∈ inputs, t.Ascends I P order none) :
    (TupleStream.mergeSorted order inputs).Ascends I P order none := by
  refine retrying (fun s hs => ?_) _
  rw [outcome_startMerge]
  have hfound : (TupleStream.firstTuples order 0 inputs [] s).leaving.Leaves I fun x =>
      Ascending I P order ((([] : List TupleStream) ++ x.2).map some) x.1 := firstTuples hP h .nil hs
  exact hfound.map fun x hx => merged hP _ rfl hx fun _ hv => nomatch hv

end TupleStream.Ascends

end Merges

/-! ## Tuples that are given -/

namespace TupleStream

/-- The tuples that a stream gives when it is pulled in one state after another, as long as it gives
any. -/
def emitted (t : TupleStream) : List RunState → List Tuple
  | [] => []
  | s :: later =>
    match t.pull s with
    | .row u _ rest => u :: rest.emitted later
    | _ => []

variable {I : RunState → Prop} {P : Tuple → Prop} {order : SortOrder} {last : Option Tuple}

theorem Ascends.emitted {history : List RunState} (hhistory : ∀ s ∈ history, I s) :
    ∀ {t : TupleStream} {last}, t.Ascends I P order last →
      (∀ u ∈ t.emitted history, P u ∧ ∀ v ∈ last, (order.compareKeys v u).isLE) ∧
      (t.emitted history).Pairwise fun u v => (order.compareKeys u v).isLE := by
  induction history with
  | nil => exact fun _ => ⟨List.forall_mem_nil _, .nil⟩
  | cons s later ih =>
    intro t last h
    obtain ⟨hs, hlater⟩ := List.forall_mem_cons.1 hhistory
    have hreply := ascends_iff.1 h s hs
    rw [TupleStream.emitted]
    generalize t.pull s = r at hreply
    cases r with
    | row u s' rest =>
      obtain ⟨hu, hlast, -, hrest⟩ := hreply
      obtain ⟨hgiven, hsorted⟩ := ih hlater hrest
      refine ⟨List.forall_mem_cons.2 ⟨⟨hu, hlast⟩, fun w hw => ⟨(hgiven w hw).1, fun v hv => ?_⟩⟩,
        List.pairwise_cons.2 ⟨fun w hw => (hgiven w hw).2 u rfl, hsorted⟩⟩
      exact TransCmp.isLE_trans (hlast v hv) ((hgiven w hw).2 u rfl)
    | finished s' rest => exact ⟨List.forall_mem_nil _, .nil⟩
    | failed e s' => exact ⟨List.forall_mem_nil _, .nil⟩
    | crashed c s' rest => exact ⟨List.forall_mem_nil _, .nil⟩

end TupleStream

end QueryEngine
