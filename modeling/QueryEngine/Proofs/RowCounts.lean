import QueryEngine.Proofs.BoundedSort
import QueryEngine.Proofs.Demand
import QueryEngine.Proofs.Estimates

/-!
# Numbers of rows

Where nothing is estimated, the rows that a plan is estimated at are the rows that it emits. Every
such operator gives as many tuples as its estimate says if its inputs do, unless it fails. A limit
counts down what it skips and what it takes, a sort what it keeps; what a merge has left to give are
its next tuples and what is left of their streams.
-/

set_option autoImplicit false

namespace QueryEngine

/-! ## Streams of a number of tuples -/

/-- Whether a reply is the first of `n` tuples and the end, as long as nothing changes but counters.
Nothing is asked of replies that fail. -/
inductive Reply.Yields (s₀ : RunState) : Nat → Reply → Prop
  | row {n : Nat} {u : Tuple} {s : RunState} {rest : TupleStream} (hs : s₀.Still s)
    (hrest : ∀ s', s₀.Still s' → Yields s₀ n (rest.pull s')) : Yields s₀ (n + 1) (.row u s rest)
  | finished {s : RunState} {rest : TupleStream} (hs : s₀.Still s) : Yields s₀ 0 (.finished s rest)
  | fails {n : Nat} {r : Reply} (hr : r.Fails) : Yields s₀ n r

/-- Whether a stream gives `n` tuples, unless it fails. -/
def TupleStream.Yields (s₀ : RunState) (n : Nat) (t : TupleStream) : Prop :=
  ∀ s, s₀.Still s → Reply.Yields s₀ n (t.pull s)

/-- Whether a computation comes to a result with the property `Q`, if to any, and has changed nothing
but counters then. -/
def Outcome.Finds {α : Type} (s₀ : RunState) (Q : α → Prop) (o : Outcome α) : Prop :=
  ∀ a s, o = (.ok a, s) → s₀.Still s ∧ Q a

section

variable {s₀ s : RunState} {n m : Nat}

namespace Outcome.Finds

variable {α β : Type} {Q : α → Prop} {R : β → Prop}

theorem of_ok {a : α} (ha : Q a) (hs : s₀.Still s) : Outcome.Finds s₀ Q (.ok a, s) := by
  intro b s' h
  cases h
  exact ⟨hs, ha⟩

theorem of_error {f : Failure} : Outcome.Finds s₀ Q ((.error f, s) : Outcome α) := by
  intro a s' h
  cases h

theorem map {f : α → β} {o : Outcome α} (h : o.Finds s₀ Q) (hf : ∀ a, Q a → R (f a)) :
    (Outcome.map f o).Finds s₀ R := by
  intro b s hb
  obtain ⟨a, ha, rfl⟩ := Outcome.map_eq_ok.1 hb
  obtain ⟨hs, hQ⟩ := h a s ha
  exact ⟨hs, hf a hQ⟩

theorem mono {Q' : α → Prop} {o : Outcome α} (h : o.Finds s₀ Q) (hQ : ∀ a, Q a → Q' a) :
    o.Finds s₀ Q' :=
  fun a s ha => ⟨(h a s ha).1, hQ a (h a s ha).2⟩

end Outcome.Finds

namespace Reply.Yields

variable {r : Reply}

theorem run (hr : r.Yields s₀ n) (hends : r.run.ending = .finished) : r.run.rows.length = n := by
  induction hr with
  | @row n u s rest hs _ ih =>
    have hlater := ih (s.count .pull) (hs.count .pull)
    rw [← TupleStream.run_eq] at hlater
    exact congrArg (· + 1) (hlater hends)
  | finished hs => rfl
  | @fails n r hr =>
    obtain ⟨f, s, rest, rfl⟩ := hr.exists_failure
    cases f <;> cases hends

/-- What a step makes of one tuple after another. -/
theorem drain {σ : Type} {step : σ → Tuple → RunState → Outcome σ} {H : Nat → σ → Prop}
    (hstep : ∀ k a u s, H k a → s₀.Still s → (step a u s).Finds s₀ (H (k + 1)))
    (hr : r.Yields s₀ n) : ∀ {k a}, H k a →
      Outcome.Finds s₀ (H (k + n)) ((r.drain step a).result, (r.drain step a).state) := by
  induction hr with
  | @row n u s rest hs _ ih =>
    intro k a ha
    have hnext := hstep k a u s ha hs
    simp only [Reply.drain]
    generalize step a u s = o at hnext
    obtain ⟨f | b, s'⟩ := o
    · exact .of_error
    · obtain ⟨hs', hb⟩ := hnext b s' rfl
      have hlater := ih s' hs' hb
      rw [← TupleStream.drain_eq, Nat.add_assoc, Nat.add_comm 1] at hlater
      exact hlater
  | finished hs => exact fun ha => .of_ok ha hs
  | @fails n r hr =>
    intro k a _
    obtain ⟨f, s, rest, rfl⟩ := hr.exists_failure
    cases f <;> exact .of_error

/-- A step that makes a tuple of every tuple, or fails. -/
theorem mapEach {α : Type} (f : Tuple → RunState → Except Failure α) (g : Tuple → α → Tuple)
    (hr : r.Yields s₀ n) :
    (r.transduce (.stateless fun u s => (.ofResult (f u s) fun a => .emit (g u a) (), s)) ()).Yields
      s₀ n := by
  induction hr with
  | @row n u s rest hs _ ih =>
    have hstep : (Transducer.stateless fun u s =>
      (.ofResult (f u s) fun a => .emit (g u a) (), s)).step () u s =
        (.ofResult (f u s) fun a => .emit (g u a) (), s) := rfl
    rw [Reply.transduce, hstep]
    cases f u s with
    | error e => exact .fails (Reply.ofFailure_fails e s _)
    | ok a =>
      refine .row hs fun s' hs' => ?_
      rw [Transducer.stateless, TupleStream.pull_steady]
      exact ih s' hs'
  | finished hs => exact .finished hs
  | fails hr => exact .fails (hr.transduce _ _)

theorem limiter (hr : r.Yields s₀ n) : ∀ {skip room}, 0 < skip + room →
    (r.transduce TupleStream.limiter (skip, room)).Yields s₀ (min (n - skip) room) := by
  induction hr with
  | @row n u s rest hs _ ih =>
    intro skip room hopen
    have hrest (skip room : Nat) :
        (rest.transduce TupleStream.limiter (skip, room)).Yields s₀ (min (n - skip) room) := by
      intro s' hs'
      rcases Nat.eq_zero_or_pos (skip + room) with hclosed | hopen
      · obtain ⟨rfl, rfl⟩ : skip = 0 ∧ room = 0 := by omega
        rw [TupleStream.idle_limiter rest s', Nat.min_zero]
        exact .finished hs'
      · rw [TupleStream.pull_limiter hopen]
        exact ih s' hs' hopen
    cases skip with
    | succ skip =>
      rw [Nat.add_sub_add_right]
      exact hrest skip room s hs
    | zero =>
      have hcount : min (n + 1 - 0) room = min (n - 0) (room - 1) + 1 := by omega
      rw [hcount]
      exact .row hs (hrest 0 (room - 1))
  | finished hs =>
    intro skip room _
    rw [Nat.zero_sub, Nat.zero_min]
    exact .finished hs
  | fails hr => exact fun _ => .fails (hr.transduce _ _)

theorem append {t : TupleStream} (hr : r.Yields s₀ m) (ht : t.Yields s₀ n) :
    (r.append t).Yields s₀ (m + n) := by
  induction hr with
  | @row m u s rest hs _ ih =>
    rw [Nat.add_right_comm]
    refine .row hs fun s' hs' => ?_
    rw [TupleStream.pull_append]
    exact ih s' hs'
  | finished hs =>
    rw [Nat.zero_add]
    exact ht _ hs
  | @fails m r hr =>
    obtain ⟨f, s, rest, rfl⟩ := hr.exists_failure
    cases f <;> exact .fails trivial

end Reply.Yields

namespace TupleStream.Yields

variable {t : TupleStream}

theorem run (h : t.Yields s₀ n) (hs : s₀.Still s) (hends : (t.run s).ending = .finished) :
    (t.run s).rows.length = n := by
  rw [run_eq] at hends ⊢
  exact (h s hs).run hends

/-! ### Combinators -/

theorem ended : TupleStream.ended.Yields s₀ 0 := fun _ hs => .finished hs

theorem ofList (us : List Tuple) : (TupleStream.ofList us).Yields s₀ us.length := by
  induction us with
  | nil => exact ended
  | cons u us ih => exact fun s hs => .row hs ih

/-- A cursor that may answer often enough gives the rows that it has ahead. -/
theorem ofCursor (h : TableHandle) (pulls : Nat) {c : Cursor}
    (hrows : (s₀.table h).rows.Pairwise (·.1 < ·.1))
    (hpulls : (c.remaining (s₀.table h)).length ≤ pulls) :
    (TupleStream.ofCursor h pulls c).Yields s₀ (c.remaining (s₀.table h)).length := by
  induction pulls generalizing c with
  | zero =>
    rw [Nat.le_zero.1 hpulls]
    exact ended
  | succ pulls ih =>
    intro s hs
    rcases pull_ofCursor (hs.rows h) hrows pulls c with
      ⟨hnil, hpull⟩ | ⟨u, d, t, _, ht, hcons, hpull⟩
    · rw [hnil, hpull]
      exact .finished hs
    · rw [hcons, List.length_cons] at hpulls
      rw [hcons, hpull]
      exact .row (hs.setTable ht) (ih (Nat.le_of_succ_le_succ hpulls))

theorem mapEach {α : Type} (f : Tuple → RunState → Except Failure α) (g : Tuple → α → Tuple)
    (h : t.Yields s₀ n) :
    (t.transduce (.stateless fun u s =>
      (.ofResult (f u s) fun a => .emit (g u a) (), s)) ()).Yields s₀ n := by
  intro s hs
  rw [Transducer.stateless, pull_steady]
  exact (h s hs).mapEach f g

theorem changeEach (change : Tuple → Except Crash Tuple) (h : t.Yields s₀ n) :
    (t.changeEach change).Yields s₀ n :=
  h.mapEach (fun u _ => Crash.lifted (change u)) fun _ v => v

theorem apply (f : Function) (arguments : List Binding) (cs : List Column) (h : t.Yields s₀ n) :
    (t.apply f arguments cs).Yields s₀ n :=
  h.mapEach (fun u s => (s.bindings.resolveEach (some u) arguments).bind f.invoke) (·.extend cs)

theorem limit (bounds : RowLimit) (h : t.Yields s₀ n) :
    (t.limit bounds).Yields s₀ (min (n - bounds.skip.toNat) bounds.limit.toNat) := by
  intro s hs
  rw [limit_eq]
  rcases Nat.eq_zero_or_pos (bounds.skip.toNat + bounds.limit.toNat) with hclosed | hopen
  · obtain ⟨hskip, hroom⟩ : bounds.skip.toNat = 0 ∧ bounds.limit.toNat = 0 := by omega
    rw [hskip, hroom, idle_limiter t s, Nat.min_zero]
    exact .finished hs
  · rw [pull_limiter hopen]
    exact (h s hs).limiter hopen

theorem concat {ts : List TupleStream} {ns : List Nat}
    (h : List.Forall₂ (fun t n => t.Yields s₀ n) ts ns) :
    (TupleStream.concat ts).Yields s₀ ns.sum := by
  induction h with
  | nil => exact ended
  | @cons t n ts ns ht _ ih =>
    intro s hs
    rw [List.sum_cons]
    change Reply.Yields s₀ (n + ns.sum) ((t.append (TupleStream.concat ts)).pull s)
    rw [pull_append]
    exact (ht s hs).append ih

theorem deferred {start : RunState → Outcome TupleStream}
    (h : ∀ s, s₀.Still s → (start s).Finds s₀ (TupleStream.Yields s₀ n)) :
    (TupleStream.deferred start).Yields s₀ n := by
  intro s hs
  have hstart := h s hs
  simp only [TupleStream.deferred, pull_of]
  generalize start s = o at hstart
  obtain ⟨f | t, s'⟩ := o
  · exact .fails (Reply.ofFailure_fails f s' _)
  · obtain ⟨hs', ht⟩ := hstart t s' rfl
    exact ht s' hs'

theorem retrying {prepare : List TupleStream → RunState → Attempt TupleStream}
    {inputs : List TupleStream} (times : Nat)
    (h : ∀ s, s₀.Still s → (prepare inputs s).outcome.Finds s₀ (TupleStream.Yields s₀ n)) :
    (TupleStream.retrying prepare (times + 1) inputs).Yields s₀ n := by
  intro s hs
  have hfound := h s hs
  rw [pull_retrying]
  simp only [Attempt.outcome] at hfound
  generalize (prepare inputs s).result = result, (prepare inputs s).state = s' at hfound
  cases result with
  | error f => exact .fails (Reply.ofFailure_fails f s' _)
  | ok t =>
    obtain ⟨hs', ht⟩ := hfound t s' rfl
    exact ht s' hs'

theorem consume {σ : Type} {step : σ → Tuple → RunState → Outcome σ} {H : Nat → σ → Prop} {a : σ}
    (hstart : H 0 a)
    (hstep : ∀ k a u s, H k a → s₀.Still s → (step a u s).Finds s₀ (H (k + 1)))
    (h : t.Yields s₀ n) (hs : s₀.Still s) : (t.consume step a s).Finds s₀ (H n) := by
  have hread := (h s hs).drain hstep hstart
  rw [← drain_eq, Nat.zero_add] at hread
  exact hread

theorem gathered {α : Type} {add : α → Tuple → RunState → Outcome α}
    {finish : α → RunState → Outcome TupleStream} {H : Nat → α → Prop} {a : α} (hstart : H 0 a)
    (hadd : ∀ k a u s, H k a → s₀.Still s → (add a u s).Finds s₀ (H (k + 1)))
    (hfinish : ∀ a s, H n a → s₀.Still s → (finish a s).Finds s₀ (TupleStream.Yields s₀ m))
    (h : t.Yields s₀ n) : (t.gathered add finish a).Yields s₀ m := by
  refine deferred fun s hs => ?_
  have hread := h.consume hstart hadd hs
  generalize t.consume add a s = o at hread
  obtain ⟨f | b, s'⟩ := o
  · exact .of_error
  · obtain ⟨hs', hb⟩ := hread b s' rfl
    exact hfinish b s' hb hs'

/-! ### Operators on one stream -/

theorem rowCount (h : TableHandle) (cs : List Column) : (TupleStream.rowCount h cs).Yields s₀ 1 := by
  refine deferred fun s hs => ?_
  cases h.countRows s.store with
  | error e => exact .of_error
  | ok n => exact .of_ok (ofList [_]) hs

theorem aggregate (p : Projection) (h : t.Yields s₀ n) (hs : s₀.Still s) :
    (t.aggregate p s).Finds s₀ fun _ => True := by
  have hreduce {σ : Type} (step : σ → Tuple → Except Failure σ) (a : σ) :
      (t.reduce step a s).Finds s₀ fun _ => True := by
    refine h.consume (H := fun _ _ => True) trivial (fun k a u s _ hs => ?_) hs
    cases step a u with
    | error f => exact .of_error
    | ok b => exact .of_ok trivial hs
  have hfirst : (t.hasTuple s).Finds s₀ fun _ => True := by
    have hreply := h s hs
    rw [hasTuple]
    generalize t.pull s = r at hreply
    cases hreply with
    | row hs' _ => exact .of_ok trivial hs'
    | finished hs' => exact .of_ok trivial hs'
    | fails hr =>
      obtain ⟨f, s', rest, rfl⟩ := hr.exists_failure
      cases f <;> exact .of_error
  cases p with
  | select cs => exact .of_error
  | count => exact (hreduce _ _).map fun _ _ => trivial
  | nonempty => exact hfirst.map fun _ _ => trivial
  | min c => exact hreduce _ _
  | max c => exact hreduce _ _
  | sum c => exact (hreduce _ _).map fun _ _ => trivial
  | mean c => exact (hreduce _ _).map fun _ _ => trivial

theorem project (p : Projection) (cs : List Column) (h : t.Yields s₀ n) :
    (t.project p cs).Yields s₀ (if p.isAggregate then 1 else n) := by
  rw [TupleStream.project]
  split
  · exact deferred fun s hs => (h.aggregate p hs).map fun v _ => ofList [_]
  · exact h.changeEach _

end TupleStream.Yields

/-! ### Ordered merges -/

namespace StreamBundle

/-- A merge whose next tuples stand for streams that have a number of tuples left. -/
structure Owing (s₀ : RunState) (places : List (Option TupleStream)) (heads : Heads)
    (left : Nat → Nat) : Prop where
  nodup : (heads.map (·.1)).Nodup
  place : ∀ x ∈ heads, ∃ t, places[x.1]? = some (some t) ∧ t.Yields s₀ (left x.1)

/-- How many tuples a merge has to give: the next ones and those that are left behind them. -/
def owed (left : Nat → Nat) (heads : Heads) : Nat := (heads.map fun x => left x.1 + 1).sum

theorem owed_cons (left : Nat → Nat) (i : Nat) (u : Tuple) (heads : Heads) :
    owed left ((i, u) :: heads) = owed left heads + left i + 1 := by
  simp only [owed, List.map_cons, List.sum_cons]
  omega

theorem owed_update {left : Nat → Nat} {heads : Heads} {i : Nat} (hi : i ∉ heads.map (·.1))
    (k : Nat) : owed (Function.update left i k) heads = owed left heads := by
  refine congrArg List.sum (List.map_congr_left fun x hx => ?_)
  have hne : x.1 ≠ i := fun he => hi (he ▸ List.mem_map_of_mem hx)
  rw [Function.update_of_ne hne]

namespace Owing

variable {places : List (Option TupleStream)} {heads found : Heads} {left : Nat → Nat} {i k : Nat}
  {u : Tuple} {t : TupleStream} {order : SortOrder}

theorem nil (places : List (Option TupleStream)) (left : Nat → Nat) : Owing s₀ places [] left :=
  ⟨.nil, List.forall_mem_nil _⟩

theorem not_mem (h : Owing s₀ places ((i, u) :: heads) left) : i ∉ heads.map (·.1) :=
  (List.nodup_cons.1 h.nodup).1

theorem tail (h : Owing s₀ places ((i, u) :: heads) left) (place : Option TupleStream) :
    Owing s₀ (places.set i place) heads left := by
  refine ⟨(List.nodup_cons.1 h.nodup).2, fun x hx => ?_⟩
  rw [getElem?_set_heads h.nodup hx]
  exact h.place x (List.mem_cons_of_mem _ hx)

theorem append (h : Owing s₀ places heads left) (more : List (Option TupleStream)) :
    Owing s₀ (places ++ more) heads left := by
  refine ⟨h.nodup, fun x hx => ?_⟩
  obtain ⟨t, hplace, ht⟩ := h.place x hx
  refine ⟨t, ?_, ht⟩
  rw [List.getElem?_append_left (List.getElem?_eq_some_iff.1 hplace).1]
  exact hplace

/-- A further tuple of a stream takes its place among the next ones. -/
theorem add (h : Owing s₀ places heads left) (hi : i ∉ heads.map (·.1))
    (hplace : places[i]? = some (some t)) (ht : t.Yields s₀ k)
    (hadd : addHead order i u heads = .ok found) :
    Owing s₀ places found (Function.update left i k) ∧
      owed (Function.update left i k) found = owed left heads + k + 1 := by
  have hperm := addHead_perm hadd
  refine ⟨⟨(hperm.map _).nodup_iff.2 (List.nodup_cons.2 ⟨hi, h.nodup⟩), fun x hx => ?_⟩, ?_⟩
  · rcases List.mem_cons.1 (hperm.mem_iff.1 hx) with rfl | hx
    · rw [Function.update_self]
      exact ⟨t, hplace, ht⟩
    · have hne : x.1 ≠ i := fun he => hi (he ▸ List.mem_map_of_mem hx)
      rw [Function.update_of_ne hne]
      exact h.place x hx
  · have hsame : owed (Function.update left i k) found =
        owed (Function.update left i k) ((i, u) :: heads) := (hperm.map _).sum_eq
    rw [hsame, owed_cons, owed_update hi, Function.update_self]

end Owing

end StreamBundle

namespace TupleStream.Yields

open StreamBundle

variable {order : SortOrder} {t : TupleStream}

theorem merged {places : List (Option TupleStream)} {heads : Heads} {left : Nat → Nat}
    (h : Owing s₀ places heads left) (hn : owed left heads = n) :
    ((ofPlaces places).merged order heads).Yields s₀ n := by
  induction n generalizing places heads left with
  | zero =>
    intro s hs
    cases heads with
    | nil =>
      rw [pull_merged_nil]
      exact .finished hs
    | cons head heads =>
      rw [owed_cons] at hn
      omega
  | succ n ih =>
    intro s hs
    cases heads with
    | nil => cases hn
    | cons head heads =>
      obtain ⟨i, u⟩ := head
      obtain ⟨t, hplace, ht⟩ := h.place (i, u) List.mem_cons_self
      have hlt : i < places.length := (List.getElem?_eq_some_iff.1 hplace).1
      rw [owed_cons] at hn
      rw [pull_merged_cons, pull_ofPlaces]
      simp only [hplace] at ht ⊢
      have hreply := ht s hs
      generalize left i = k at hreply hn
      generalize t.pull s = r at hreply
      cases hreply with
      | @row k v s' rest hs' hrest =>
        simp only [answer, BundleReply.mergedAfter]
        cases hadd : addHead order i v heads with
        | error c => exact .fails trivial
        | ok found =>
          obtain ⟨hnext, howed⟩ :=
            (h.tail (some rest)).add h.not_mem (List.getElem?_set_self hlt) hrest hadd
          exact .row hs' (ih hnext (by omega))
      | finished hs' => exact .row hs' (ih (h.tail _) (by omega))
      | fails hr =>
        obtain ⟨f, s', rest, rfl⟩ := hr.exists_failure
        cases f <;> exact .fails trivial

/-- The streams that are pulled first come to the places of a merge. -/
theorem firstTuples {ts : List TupleStream} {ns : List Nat}
    (h : List.Forall₂ (fun t n => t.Yields s₀ n) ts ns) :
    ∀ {done : List TupleStream} {heads : Heads} {left : Nat → Nat} {s : RunState},
      Owing s₀ (done.map some) heads left → s₀.Still s →
      (TupleStream.firstTuples order done.length ts heads s).leaving.Finds s₀ fun x =>
        ∃ left', Owing s₀ ((done ++ x.2).map some) x.1 left' ∧
          owed left' x.1 = owed left heads + ns.sum := by
  induction h with
  | nil =>
    intro done heads left s h hs
    rw [← List.append_nil done] at h
    exact .of_ok ⟨left, h, rfl⟩ hs
  | @cons t n ts ns ht _ ih =>
    intro done heads left s h hs
    -- What is left of the stream is the next place.
    have hafter (rest : TupleStream) {found : Heads} {left' : Nat → Nat} {s' : RunState}
        (h : Owing s₀ ((done ++ [rest]).map some) found left') (hs' : s₀.Still s')
        (hcount : owed left' found = owed left heads + n) :
        ((TupleStream.firstTuples order (done.length + 1) ts found s').after rest).leaving.Finds s₀
          fun x => ∃ left', Owing s₀ ((done ++ x.2).map some) x.1 left' ∧
            owed left' x.1 = owed left heads + (n :: ns).sum := by
      have hlater := ih h hs'
      rw [List.length_append, List.length_singleton] at hlater
      rw [Attempt.leaving_after]
      refine hlater.map fun x ⟨left'', hx, howed⟩ => ⟨left'', ?_, ?_⟩
      · rwa [List.append_assoc, List.singleton_append] at hx
      · rw [howed, hcount, List.sum_cons, Nat.add_assoc]
    have hmore (rest : TupleStream) : Owing s₀ ((done ++ [rest]).map some) heads left := by
      rw [List.map_append]
      exact h.append _
    have hreply := ht s hs
    rw [TupleStream.firstTuples]
    generalize t.pull s = r at hreply
    cases hreply with
    | @row k u s' rest hs' hrest =>
      simp only
      cases hadd : addHead order done.length u heads with
      | error c => exact .of_error
      | ok found =>
        have hnew : done.length ∉ heads.map (·.1) := length_not_mem_heads fun x hx => by
          obtain ⟨t, hplace, _⟩ := h.place x hx
          exact ⟨t, hplace⟩
        obtain ⟨hnext, howed⟩ := (hmore rest).add hnew (by simp) hrest hadd
        exact hafter rest hnext hs' howed
    | finished hs' => exact hafter _ (hmore _) hs' rfl
    | fails hr =>
      obtain ⟨f, s', rest, rfl⟩ := hr.exists_failure
      cases f <;> exact .of_error

theorem startMerge {ts : List TupleStream} {ns : List Nat}
    (h : List.Forall₂ (fun t n => t.Yields s₀ n) ts ns) (hs : s₀.Still s) :
    (TupleStream.startMerge order ts s).outcome.Finds s₀ (TupleStream.Yields s₀ ns.sum) := by
  have hfound : (TupleStream.firstTuples order 0 ts [] s).leaving.Finds s₀ fun x =>
      ∃ left, Owing s₀ ((([] : List TupleStream) ++ x.2).map some) x.1 left ∧
        owed left x.1 = owed (fun _ => 0) [] + ns.sum := firstTuples h (.nil _ _) hs
  rw [outcome_startMerge]
  refine hfound.map fun x ⟨left, hx, howed⟩ => merged hx ?_
  rw [howed, owed, List.map_nil, List.sum_nil, Nat.zero_add]

theorem mergeSorted {ts : List TupleStream} {ns : List Nat}
    (h : List.Forall₂ (fun t n => t.Yields s₀ n) ts ns) :
    (TupleStream.mergeSorted order ts).Yields s₀ ns.sum :=
  retrying (UInt64.size - 1) fun _ hs => startMerge h hs

/-! ### Sorts -/

theorem sorted (order : SortOrder) (us : List Tuple) (hs : s₀.Still s) :
    (TupleStream.sorted order us s).Finds s₀ fun out => out.length = us.length := by
  rw [TupleStream.sorted]
  cases hsort : order.sortTuples us with
  | error c => exact .of_error
  | ok out =>
    obtain ⟨_, _, rfl⟩ := Except.map_eq_ok.1 hsort
    exact .of_ok (List.length_mergeSort _) (hs.count .sort)

theorem sort (h : t.Yields s₀ n) : (t.sort order).Yields s₀ n := by
  rw [sort_eq]
  refine h.gathered (H := fun k found => found.length = k) rfl ?_ ?_
  · intro k found u s hfound hs
    refine .of_ok ?_ hs
    rw [List.length_append, hfound, List.length_singleton]
  · intro found s hfound hs
    refine (sorted order found hs).map fun out hout => ?_
    rw [← hfound, ← hout]
    exact ofList out

theorem limitingSort (bounds : RowLimit) (hn : n < UInt64.size) (h : t.Yields s₀ n) :
    (t.limitingSort order bounds).Yields s₀
      (min (n - bounds.skip.toNat) bounds.limit.toNat) := by
  have hreach := bounds.reach_toNat
  by_cases hzero : bounds.reach = 0
  · rw [hzero, UInt64.toNat_zero, UInt64.size] at hreach
    have hnone : min (n - bounds.skip.toNat) bounds.limit.toNat = 0 := by omega
    intro s hs
    rw [hnone, pull_limitingSort_zero order hzero]
    exact .finished hs
  · rw [limitingSort_eq order hzero]
    refine h.gathered (H := fun k kept => kept.length = min k bounds.reach.toNat) ?_ ?_ ?_
    · rw [List.length_nil, Nat.zero_min]
    · intro k kept u s hkept hs
      rw [keepWithin]
      cases hkeep : keepLeast order bounds.reach.toNat kept u with
      | error c => exact .of_error
      | ok found =>
        have hlength := length_keepLeast (by omega) hkeep
        exact .of_ok (by omega) hs
    · intro kept s hkept hs
      have hlength : (kept.drop bounds.skip.toNat).length =
          min (n - bounds.skip.toNat) bounds.limit.toNat := by
        rw [List.length_drop]
        omega
      rw [← hlength]
      exact .of_ok (ofList _) (hs.count .sort)

end TupleStream.Yields

/-! ### Sorts with runs on storage -/

namespace TupleStream.SpillState

variable {order : SortOrder} {a : SpillState (List Tuple)}

/-- How many tuples have been written or wait. -/
def size (a : SpillState (List Tuple)) : Nat := (a.runs.map List.length).sum + a.waiting.length

theorem spill_finds (canSpill : Bool) (cs : List Column) (hs : s₀.Still s) :
    (a.spill order canSpill (relaid cs) s).Finds s₀ fun b => b.size = a.size ∧ b.waiting = [] := by
  have hsorted := Yields.sorted order a.waiting hs
  rw [spill]
  generalize TupleStream.sorted order a.waiting s = o at hsorted
  obtain ⟨f | run, s'⟩ := o
  · exact .of_error
  · obtain ⟨hs', hrun⟩ := hsorted run s' rfl
    cases canSpill with
    | false => exact .of_error
    | true =>
      refine .of_ok ⟨?_, rfl⟩ hs'
      simp only [size, List.map_append, List.sum_append, List.map_singleton, List.sum_singleton,
        relaid, List.length_map, hrun, List.length_nil, Nat.add_zero]

theorem add_finds (chunk : Nat) (canSpill : Bool) (cs : List Column) (u : Tuple)
    (hs : s₀.Still s) :
    (a.add order chunk canSpill (relaid cs) u s).Finds s₀ fun b => b.size = a.size + 1 := by
  have hsize : SpillState.size { a with waiting := a.waiting ++ [u] } = a.size + 1 := by
    simp only [size, List.length_append, List.length_singleton, Nat.add_assoc]
  rw [add]
  split
  · exact (spill_finds canSpill cs hs).mono fun b hb => hb.1.trans hsize
  · exact .of_ok hsize hs

theorem merge_finds (hwaiting : a.waiting = []) (hs : s₀.Still s) :
    (a.merge order ofList s).Finds s₀ (TupleStream.Yields s₀ a.size) := by
  have hruns : List.Forall₂ (fun t n => t.Yields s₀ n) (a.runs.map ofList)
      (a.runs.map List.length) := by
    rw [List.forall₂_map_left_iff, List.forall₂_map_right_iff, List.forall₂_same]
    exact fun run _ => .ofList run
  rw [size, hwaiting, List.length_nil, Nat.add_zero]
  exact Yields.startMerge hruns hs

theorem finish_finds (canSpill : Bool) (cs : List Column) (hs : s₀.Still s) :
    (a.finish order canSpill (relaid cs) ofList s).Finds s₀ (TupleStream.Yields s₀ a.size) := by
  rw [finish]
  split
  · rename_i hempty
    refine (Yields.sorted order a.waiting hs).map fun out hout => ?_
    rw [size, List.isEmpty_iff.1 hempty, List.map_nil, List.sum_nil, Nat.zero_add, ← hout]
    exact .ofList out
  · split
    · rename_i hwaiting
      exact merge_finds (List.isEmpty_iff.1 hwaiting) hs
    · have hspilled : (a.spill order canSpill (relaid cs) s).Finds s₀ fun b =>
          b.size = a.size ∧ b.waiting = [] := spill_finds canSpill cs hs
      generalize a.spill order canSpill (relaid cs) s = o at hspilled
      obtain ⟨f | b, s'⟩ := o
      · exact .of_error
      · obtain ⟨hs', hsize, hwaiting⟩ := hspilled b s' rfl
        rw [← hsize]
        exact merge_finds hwaiting hs'

end TupleStream.SpillState

theorem TupleStream.Yields.externalSort {t : TupleStream} (order : SortOrder) (chunk : Nat)
    (canSpill : Bool) (cs : List Column) (h : t.Yields s₀ n) :
    (t.externalSort .plain order chunk canSpill cs).Yields s₀ n := by
  rw [externalSort_eq]
  refine h.gathered (H := fun k a => a.size = k) rfl ?_ ?_
  · intro k a u s ha hs
    rw [← ha]
    exact SpillState.add_finds _ canSpill cs u hs
  · intro a s ha hs
    rw [← ha]
    exact SpillState.finish_finds canSpill cs hs

end

/-! ## Arithmetic of estimates -/

/-- A limit that reaches further than there are counts takes what it skips off all the same. -/
theorem RowLimit.bounded_toNat (b : RowLimit) (rows : UInt64) :
    (b.bounded rows).toNat = min (rows.toNat - b.skip.toNat) b.limit.toNat := by
  have hreach := b.reach_toNat
  have hrows := rows.toNat_lt
  have hreached : (min rows b.reach).toNat = min rows.toNat b.reach.toNat := by
    have hmin : min rows b.reach = if rows ≤ b.reach then rows else b.reach := rfl
    simp only [hmin, UInt64.le_iff_toNat_le]
    split <;> omega
  rw [UInt64.size] at hreach
  simp only [bounded, UInt64.le_iff_toNat_le, hreached]
  split
  · rename_i hskip
    rw [UInt64.toNat_sub_of_le _ _ (UInt64.le_iff_toNat_le.2 (hreached ▸ hskip)), hreached]
    omega
  · rw [UInt64.toNat_zero]
    omega

namespace Operator

theorem toNat_foldl_add (ns : List UInt64) {total : UInt64}
    (hfit : total.toNat + (ns.map UInt64.toNat).sum < UInt64.size) :
    (ns.foldl (· + ·) total).toNat = total.toNat + (ns.map UInt64.toNat).sum := by
  induction ns generalizing total with
  | nil => rfl
  | cons n ns ih =>
    rw [List.map_cons, List.sum_cons] at hfit ⊢
    have hnext : (total + n).toNat = total.toNat + n.toNat := by
      rw [UInt64.toNat_add, Nat.mod_eq_of_lt]
      rw [UInt64.size] at hfit
      omega
    rw [List.foldl_cons, ih (by omega), hnext, Nat.add_assoc]

theorem totalRows_eq {ns : List UInt64} (hfit : (ns.map UInt64.toNat).sum < UInt64.size) :
    ∃ n, totalRows (ns.map .ok) = .ok n ∧ n.toNat = (ns.map UInt64.toNat).sum := by
  have hall : (ns.map (Except.ok : UInt64 → Except Crash UInt64)).mapM id = .ok ns :=
    Except.mapM_eq_ok.2 (List.forall₂_map_left_iff.2 (List.forall₂_same.2 fun _ _ => rfl))
  refine ⟨_, by rw [totalRows, hall]; rfl, ?_⟩
  rw [toNat_foldl_add ns (by rwa [UInt64.toNat_zero, Nat.zero_add]), UInt64.toNat_zero, Nat.zero_add]

/-- The first partitions have one row more than the others, as many as rows are left over. -/
theorem partitionRows_toNat (rows : UInt64) {p : UInt64} (hp : 0 < p) {i : Nat} (hi : i < p.toNat) :
    (partitionRows rows i p.toNat).toNat =
      rows.toNat / p.toNat + if i < rows.toNat % p.toNat then 1 else 0 := by
  have hpos : 0 < p.toNat := UInt64.lt_iff_toNat_lt.1 hp
  have hrows := rows.toNat_lt
  have hmax : UInt64.ofNat (max p.toNat 1) = p := by
    rw [Nat.max_eq_left hpos, UInt64.ofNat_toNat]
  have hindex : (UInt64.ofNat i).toNat = i :=
    UInt64.toNat_ofNat_of_lt (Nat.lt_trans hi p.toNat_lt)
  simp only [partitionRows, hmax, UInt64.lt_iff_toNat_lt, hindex, UInt64.toNat_mod]
  split
  · rename_i hextra
    -- A row is left over, so that there are at least two partitions and fewer rows in each.
    have hless : rows.toNat / p.toNat < rows.toNat := by
      apply Nat.div_lt_self
      · by_contra hnone
        rw [Nat.eq_zero_of_not_pos hnone, Nat.zero_mod] at hextra
        omega
      · have hmod := Nat.mod_lt rows.toNat hpos
        by_contra hone
        have hsingle : p.toNat = 1 := by omega
        rw [hsingle, Nat.mod_one] at hextra
        omega
    rw [UInt64.toNat_add, UInt64.toNat_div, UInt64.toNat_one]
    apply Nat.mod_eq_of_lt
    omega
  · rw [UInt64.toNat_add, UInt64.toNat_div, UInt64.toNat_zero]
    apply Nat.mod_eq_of_lt
    exact Nat.lt_of_le_of_lt (Nat.div_le_self _ _) hrows

theorem sum_deal (each extra m : Nat) :
    ((List.range m).map fun i => each + if i < extra then 1 else 0).sum =
      m * each + min m extra := by
  induction m with
  | zero => simp
  | succ m ih =>
    rw [List.range_succ, List.map_append, List.sum_append, ih, List.map_singleton,
      List.sum_singleton, Nat.succ_mul]
    split <;> omega

/-- The partitions of a scan are estimated at all rows together. -/
theorem sum_partitionRows (rows : UInt64) {p : UInt64} (hp : 0 < p) :
    ((List.range p.toNat).map fun i => (partitionRows rows i p.toNat).toNat).sum = rows.toNat := by
  have hpos : 0 < p.toNat := UInt64.lt_iff_toNat_lt.1 hp
  have heach : ((List.range p.toNat).map fun i => (partitionRows rows i p.toNat).toNat) =
      (List.range p.toNat).map fun i =>
        rows.toNat / p.toNat + if i < rows.toNat % p.toNat then 1 else 0 :=
    List.map_congr_left fun i hi => partitionRows_toNat rows hp (List.mem_range.1 hi)
  rw [heach, sum_deal, Nat.min_eq_right (Nat.le_of_lt (Nat.mod_lt _ hpos)), Nat.div_add_mod]

/-- Whether the number of tuples that an operator emits is fixed by those of its inputs. Tables that
are scanned are scanned as a whole, and never fail. -/
def Exact : Operator → Prop
  | scan h _ _ n => h.faults = .none ∧ n = 1
  | rowCount .. => True
  | function .. => True
  | projection _ => True
  | sort _ => True
  | externalSort .. => True
  | limitingSort .. => True
  | limit _ => True
  | merge => True
  | mergeLimitingSort .. => True
  | union distinct => distinct = false
  | _ => False

end Operator

/-! ## Plans -/

namespace Lowering

variable {s₀ : RunState}

/-- The whole of a table is estimated at the rows that a scan gives. -/
theorem scan_yields {h : TableHandle} (hfaults : h.faults = .none) (htable : (s₀.table h).Sound)
    {cs : List Column} {i : Nat} {v : TupleStream}
    (hv : TupleStream.scan h s₀.store cs i 1 = .ok v) :
    v.Yields s₀ (Operator.partitionRows (h.estimatedRows s₀.store) i 1).toNat := by
  obtain ⟨hi, places, hplaces⟩ := TupleStream.scan_eq_ok hv
  obtain rfl : i = 0 := Nat.lt_one_iff.1 hi
  have hscan : h.faults.scanFailure = none := by rw [hfaults]; rfl
  cases hv.symm.trans (TupleStream.scan_whole hscan hplaces)
  change (s₀.table h).positions cs = .ok places at hplaces
  have hlength := htable.length_le
  have hwhole : (Operator.partitionRows (h.estimatedRows s₀.store) 0 1).toNat =
      ((Cursor.mk cs places 0 1 none).remaining (s₀.table h)).length := by
    have hrows : h.estimatedRows s₀.store = UInt64.ofNat (s₀.table h).rows.length := by
      rw [TableHandle.estimatedRows, TableHandle.countRows, hfaults]
      rfl
    have hpart := Operator.partitionRows_toNat (h.estimatedRows s₀.store) (p := 1) (by decide)
      (i := 0) (by decide)
    rw [UInt64.toNat_one, Nat.div_one, Nat.mod_one, if_neg (Nat.lt_irrefl 0), Nat.add_zero] at hpart
    rw [hpart, hrows, Table.remaining_whole hplaces, List.length_map]
    exact UInt64.toNat_ofNat_of_lt (Nat.lt_of_le_of_lt hlength (by decide))
  rw [hwhole]
  refine .ofCursor h _ htable.ascending ?_
  rw [Table.remaining_whole hplaces, List.length_map]
  exact Nat.le_trans hlength (by decide)

/-- An operator over inputs that give as many tuples as they are estimated at does so itself. -/
theorem stream_yields {limits : RunLimits} {op : Operator} (hop : op.Exact)
    (htables : ∀ m, (s₀.store.table m).Sound) {cs : List Column} {groups : List GroupId}
    {vs : List TupleStream} {ns : List UInt64} {v : TupleStream}
    (harity : op.arity.admits vs.length = true)
    (hvs : List.Forall₂ (fun v n => v.Yields s₀ n.toNat) vs ns)
    (hfit : (ns.map UInt64.toNat).sum < UInt64.size)
    (selectivity : Predicate → Except Crash Selectivity)
    (hv : stream limits s₀ op cs groups vs = .ok v) :
    ∃ n, op.rows s₀.store selectivity (ns.map .ok) = .ok n ∧ v.Yields s₀ n.toNat := by
  have hone (h : op.arity = .exactly 1) : ∃ u n, vs = [u] ∧ ns = [n] ∧ u.Yields s₀ n.toNat := by
    rw [h] at harity
    obtain ⟨u, rfl⟩ := List.length_eq_one_iff.1 (eq_of_beq harity)
    obtain ⟨n, _, hn, hnone, rfl⟩ := List.forall₂_cons_left_iff.1 hvs
    obtain rfl := List.forall₂_nil_left_iff.1 hnone
    exact ⟨u, n, rfl, rfl, hn⟩
  have hall : List.Forall₂ (fun v n => v.Yields s₀ n) vs (ns.map UInt64.toNat) :=
    List.forall₂_map_right_iff.2 hvs
  obtain ⟨total, htotal, hsum⟩ := Operator.totalRows_eq hfit
  cases op with
  | scan h columns i p =>
    obtain ⟨hfaults, rfl⟩ := hop
    exact ⟨_, rfl, scan_yields hfaults (htables h.number) hv⟩
  | rowCount h out =>
    cases hv
    exact ⟨1, rfl, .rowCount h cs⟩
  | function f arguments out =>
    obtain ⟨u, n, rfl, rfl, hu⟩ := hone rfl
    cases hv
    exact ⟨n, rfl, hu.apply f arguments cs⟩
  | projection p =>
    obtain ⟨u, n, rfl, rfl, hu⟩ := hone (by cases p <;> rfl)
    cases hv
    have hproject := hu.project p cs
    refine ⟨if p.isAggregate then 1 else n, ?_, ?_⟩
    · cases p <;> rfl
    · cases p <;> exact hproject
  | sort order =>
    obtain ⟨u, n, rfl, rfl, hu⟩ := hone rfl
    cases hv
    exact ⟨n, rfl, hu.sort⟩
  | externalSort order chunk =>
    obtain ⟨u, n, rfl, rfl, hu⟩ := hone rfl
    cases hv
    exact ⟨n, rfl, hu.externalSort order chunk _ cs⟩
  | limitingSort order bounds =>
    obtain ⟨u, n, rfl, rfl, hu⟩ := hone rfl
    cases hv
    refine ⟨bounds.bounded n, rfl, ?_⟩
    rw [bounds.bounded_toNat]
    exact hu.limitingSort bounds n.toNat_lt
  | limit bounds =>
    obtain ⟨u, n, rfl, rfl, hu⟩ := hone rfl
    cases hv
    refine ⟨bounds.bounded n, rfl, ?_⟩
    rw [bounds.bounded_toNat]
    exact hu.limit bounds
  | merge =>
    cases hv
    refine ⟨total, htotal, ?_⟩
    rw [hsum]
    exact (TupleStream.Yields.concat hall).changeEach _
  | union distinct =>
    obtain rfl : distinct = false := hop
    cases hv
    refine ⟨total, htotal, ?_⟩
    rw [hsum]
    exact (TupleStream.Yields.concat hall).changeEach _
  | mergeLimitingSort order bounds =>
    cases hv
    refine ⟨bounds.bounded total, by simp only [Operator.rows, htotal]; rfl, ?_⟩
    rw [bounds.bounded_toNat, hsum]
    exact (TupleStream.Yields.mergeSorted hall).limit bounds
  | _ => exact hop.elim

end Lowering

namespace PhysicalPlan

/-- Whether the estimates of the inputs of every node add up to a count. -/
def SumsFit (s : Store) (b : Bindings) (t : PhysicalPlan) : Prop :=
  ∀ u ∈ t.subtrees, ∀ ns, u.inputs.mapM (rows s b) = .ok ns →
    (ns.map UInt64.toNat).sum < UInt64.size

theorem sumsFit_node {s : Store} {b : Bindings} {group : GroupId} {op : Operator}
    {inputs : List PhysicalPlan} : SumsFit s b (.node group op inputs) ↔
      (∀ ns, inputs.mapM (rows s b) = .ok ns → (ns.map UInt64.toNat).sum < UInt64.size) ∧
        ∀ t ∈ inputs, t.SumsFit s b :=
  forall_subtrees_node

/-- A plan that estimates nothing gives as many tuples as it is estimated at. -/
theorem inline_yields {s₀ : RunState} {canSpill : Bool} (htables : ∀ m, (s₀.store.table m).Sound)
    (t : PhysicalPlan) : t.validate = .ok () → t.Every Operator.Exact →
      t.SumsFit s₀.store s₀.bindings → ∀ {v}, t.inline canSpill s₀ = .ok v →
      ∃ n, t.rows s₀.store s₀.bindings = .ok n ∧ v.Yields s₀ n.toNat := by
  induction t using PlanTree.induct with
  | node group op inputs ih =>
    intro hvalid hexact hfits v hv
    obtain ⟨hcheck, hvalid⟩ := validate_node.1 hvalid
    obtain ⟨hop, hexact⟩ := every_node.1 hexact
    obtain ⟨hfit, hfits⟩ := sumsFit_node.1 hfits
    rw [inline_node] at hv
    obtain ⟨vs, hvs, hv⟩ := Except.bind_eq_ok.1 hv
    have hlength := Except.mapM_length hvs
    have hstreams := Except.mapM_eq_ok.1 hvs
    have hbelow : ∀ u ∈ inputs, ∃ n, rows s₀.store s₀.bindings u = .ok n ∧
        ∀ {v}, inline canSpill s₀ u = .ok v → v.Yields s₀ n.toNat := by
      intro u hu
      obtain ⟨w, _, hw⟩ := exists_mem_of_forall₂ hstreams.flip hu
      obtain ⟨n, hn, hyields⟩ := ih u hu (hvalid u hu) (hexact u hu) (hfits u hu) hw
      refine ⟨n, hn, fun hv => ?_⟩
      cases hw.symm.trans hv
      exact hyields
    obtain ⟨ns, hns⟩ := exists_forall₂ hbelow
    have hrows : inputs.map (rows s₀.store s₀.bindings) = ns.map .ok :=
      List.forall₂_eq_eq_eq ▸ List.forall₂_map_left_iff.2
        (List.forall₂_map_right_iff.2 (hns.imp fun _ _ h => h.1))
    have hyields : List.Forall₂ (fun v n => v.Yields s₀ n.toNat) vs ns :=
      forall₂_meet hstreams hns fun _ _ _ _ hu hn => hn.2 hu
    have hsum : (ns.map UInt64.toNat).sum < UInt64.size :=
      hfit ns (Except.mapM_eq_ok.2 (hns.imp fun _ _ h => h.1))
    have harity : op.arity.admits vs.length = true := by
      rw [hlength, ← List.length_map columns]
      exact (Operator.check_eq_ok.1 hcheck).1
    rw [rows_node, hrows]
    exact Lowering.stream_yields hop htables harity hyields hsum _ hv

/-- A valid plan of operators that estimate nothing emits as many tuples as it is estimated at, if it
comes to its end and no sum of estimates is too large for a count. The partitions of a scan are
estimated at all of its rows together. -/
theorem rows_emitted {q : QueryContext} {e : EngineState} (limits : RunLimits)
    (htables : ∀ x ∈ e.store.tables, x.Reachable) :
    (∀ t : PhysicalPlan, t.validate = .ok () → t.Every Operator.Exact →
      t.SumsFit e.store q.bindings → ∀ r, t.execute limits q e = pure r → r.ending = .finished →
        ∃ n, t.rows e.store q.bindings = .ok n ∧ r.rows.length = n.toNat) ∧
    ∀ (h : TableHandle) (n : UInt64), h.countRows e.store = .ok n → ∀ p : UInt64, 0 < p →
      ∀ (group : GroupId) (cs : List Column), ∃ ns,
        ((List.range p.toNat).mapM fun i =>
          rows e.store q.bindings (.node group (.scan h cs i p.toNat) [])) = .ok ns ∧
        (ns.map UInt64.toNat).sum = n.toNat := by
  refine ⟨fun t hvalid hexact hfits r hr hends => ?_, fun h n hn p hp group cs => ?_⟩
  · obtain ⟨v, hv, hlike⟩ := execute_eq_pure limits false t hr
    have hsound : ∀ m, ((q.runState e).store.table m).Sound := Store.table_sound htables
    obtain ⟨n, hn, hyields⟩ := inline_yields hsound t hvalid hexact hfits hv
    refine ⟨n, hn, ?_⟩
    cases hlike with
    | excused _ he _ => cases he.1
    | alike hrows hshows _ _ =>
      rw [hends] at hshows
      rw [hrows]
      apply hyields.run (.refl _)
      generalize (v.run (q.runState e)).ending = ending at hshows
      cases hshows with
      | same => rfl
  · refine ⟨(List.range p.toNat).map fun i => Operator.partitionRows n i p.toNat,
      Except.mapM_ok fun i _ => ?_, ?_⟩
    · have hcount : h.estimatedRows e.store = n := by
        rw [TableHandle.estimatedRows, hn]
        rfl
      rw [rows_node, Operator.rows, hcount]
    · rw [List.map_map]
      exact Operator.sum_partitionRows n hp

end PhysicalPlan

namespace Fours

def descending : SortOrder := [(key, .descending)]

/-- A limit that reaches further than there are counts. -/
def after (skip : UInt64) : RowLimit := ⟨skip, 18446744073709551615⟩

/-- The rows of the table from the greatest on, but for some. -/
def falling (skip : UInt64) : PhysicalPlan :=
  .node 0 (.limitingSort descending (after skip)) [.node 0 (.scan handle [key] 0 1) []]

/-- All rows and all but the greatest, from the sixth on. -/
def merged : PhysicalPlan :=
  .node 0 (.mergeLimitingSort descending (after 5)) [falling 0, falling 1]

theorem merged_exact : merged.Every Operator.Exact := by
  simp only [merged, falling, PhysicalPlan.every_node, List.forall_mem_cons]
  exact ⟨trivial, ⟨trivial, ⟨⟨rfl, rfl⟩, nofun⟩, nofun⟩, ⟨trivial, ⟨⟨rfl, rfl⟩, nofun⟩, nofun⟩, nofun⟩

theorem merged_sumsFit : merged.SumsFit engine.store query.bindings := by
  have hfalling (skip : UInt64) : (falling skip).SumsFit engine.store query.bindings := by
    simp only [falling, PhysicalPlan.sumsFit_node, List.forall_mem_cons]
    refine ⟨fun ns hns => ?_, ⟨fun ns hns => ?_, nofun⟩, nofun⟩ <;> cases hns <;> decide
  refine PhysicalPlan.sumsFit_node.2 ⟨fun ns hns => ?_, ?_⟩
  · cases hns
    decide
  · simp only [List.forall_mem_cons, hfalling, true_and]
    exact nofun

end Fours

open Fours in
/-- Two of seven rows are left, as estimated; of four rows in three partitions the first has two. -/
theorem PhysicalPlan.rows_emitted_merged :
    (∃ n r, merged.rows engine.store query.bindings = .ok n ∧
      merged.execute ⟨0, 1, true⟩ query engine = pure r ∧ r.rows.length = n.toNat ∧ n = 2) ∧
    ∃ ns, ((List.range 3).mapM fun i =>
        rows engine.store query.bindings (.node 0 (.scan handle [key] i 3) [])) = .ok ns ∧
      (ns.map UInt64.toNat).sum = 4 := by
  have htables : ∀ x ∈ engine.store.tables, x.Reachable :=
    List.forall_mem_singleton.2 table_reachable
  obtain ⟨hplans, hpartitions⟩ := rows_emitted (q := query) (e := engine) ⟨0, 1, true⟩ htables
  constructor
  · have hvalid : merged.validate = .ok () := by decide
    have hfound : ∃ r, merged.execute ⟨0, 1, true⟩ query engine = pure r ∧ r.ending = .finished :=
      ⟨_, rfl, rfl⟩
    have htwo : merged.rows engine.store query.bindings = .ok 2 := rfl
    obtain ⟨r, hr, hends⟩ := hfound
    obtain ⟨n, hn, hlength⟩ := hplans merged hvalid merged_exact merged_sumsFit r hr hends
    cases hn.symm.trans htwo
    exact ⟨2, r, htwo, hr, hlength, rfl⟩
  · exact hpartitions handle 4 rfl 3 (by decide) 0 [key]

end QueryEngine
