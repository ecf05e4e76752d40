import QueryEngine.Proofs.Merges
import QueryEngine.Proofs.Reading

/-!
# Ways of sorting

A sort reads its input to the end and then gives the tuples in order. A sort in memory, one that
keeps the least tuples and one that spills runs come to the same as long as the keys are uniform.
A run may be watched: it is cancelled as soon as a sort takes a tuple with keys of another kind than
those before, or more tuples than can be counted.
-/

set_option autoImplicit false

namespace QueryEngine

/-- Whether a sort can take all these tuples. -/
def SortOrder.Fits (order : SortOrder) (us : List Tuple) : Prop :=
  us.length < UInt64.size ∧ order.Uniform us

instance (order : SortOrder) (us : List Tuple) : Decidable (order.Fits us) :=
  inferInstanceAs (Decidable (_ ∧ _))

/-- Lets a tuple pass if a sort can take it as well as those before. -/
def SortOrder.watchStep (order : SortOrder) (seen : List Tuple) (u : Tuple) (s : RunState) :
    Verdict (List Tuple) × RunState :=
  (if order.Fits (seen ++ [u]) then .emit u (seen ++ [u]) else .fail (.error .cancelled), s)

/-- A stream that is cancelled when a sort cannot take all its tuples. -/
def TupleStream.watched (order : SortOrder) (t : TupleStream) : TupleStream :=
  t.transduce (.steady order.watchStep) []

/-! ## Runs over the same tables -/

/-- Runs over tables that nothing changes, with the same late-bound values. The first run may be
cancelled. -/
def Bond.over (x : Store) : Bond :=
  ⟨fun s s' => s.store.unread = x.unread ∧ s'.store.unread = x.unread ∧ s.bindings = s'.bindings,
    fun e => e = .cancelled, False⟩

theorem Bond.over_faithful (x : Store) : (Bond.over x).Faithful where
  bindings h := .of_eq h.2.2
  recount h h₁ h₁' := by
    obtain ⟨p, rfl⟩ := h₁
    obtain ⟨p', rfl⟩ := h₁'
    exact h
  openSubquery g h := ⟨h.1, h.2.1, congrArg (·.openSubquery g) h.2.2⟩
  append g v h := ⟨h.1, h.2.1, congrArg (·.append g v) h.2.2⟩
  countRows t h := t.countRows_of_unread (h.1.trans h.2.1.symm)
  index i h := Store.index_of_unread (h.1.trans h.2.1.symm) i
  scan t cs i n h := Table.scan_of_unread (Store.table_of_unread (h.1.trans h.2.1.symm) t.number) cs i n
  read {s s'} t id cs h := by
    have hsame := Store.table_of_unread (h.1.trans h.2.1.symm) t.number
    rcases Table.read_of_unread hsame id cs with ⟨e, hr, hr'⟩ | ⟨found, u, u', hr, hr', hu, hu'⟩
    · exact .inl ⟨e, hr, hr'⟩
    · exact .inr ⟨found, u, u', hr, hr', (Store.unread_setTable hu).trans h.1,
        (Store.unread_setTable hu').trans h.2.1, h.2.2⟩
  next {s s'} t c h := by
    have hsame := Store.table_of_unread (h.1.trans h.2.1.symm) t.number
    rcases c.next?_of_unread hsame with ⟨hn, hn'⟩ | ⟨u, d, v, v', hn, hn', hv, hv'⟩
    · exact .inl ⟨hn, hn'⟩
    · exact .inr ⟨u, d, v, v', hn, hn', (Store.unread_setTable hv).trans h.1,
        (Store.unread_setTable hv').trans h.2.1, h.2.2⟩

namespace RowLimit

/-- A limit reaches the largest count at most. -/
theorem reach_toNat (b : RowLimit) :
    b.reach.toNat = min (b.skip.toNat + b.limit.toNat) (UInt64.size - 1) := by
  have hs := b.skip.toNat_lt
  have hl := b.limit.toNat_lt
  simp only [reach, saturatingAdd, UInt64.le_iff_toNat_le, UInt64.toNat_add, UInt64.size]
  split
  · rw [UInt64.toNat_add]
    omega
  · rw [UInt64.toNat_ofNat']
    omega

/-- A limit that reaches a row skips or takes one. -/
theorem ne_zero {b : RowLimit} (h : b.reach ≠ 0) :
    ((b.skip.toNat, b.limit.toNat) != (0, 0)) = true := by
  rw [bne_iff_ne]
  intro he
  obtain ⟨hskip, hlimit⟩ := Prod.mk.inj he
  apply h
  rw [← UInt64.toNat_inj, b.reach_toNat, hskip, hlimit]
  rfl

/-- The rows that a limit leaves are among those that it reaches. -/
theorem take_reach {α : Type} (b : RowLimit) {l : List α}
    (h : l.length < UInt64.size ∨ b.skip.toNat + b.limit.toNat < UInt64.size) :
    (l.take b.reach.toNat).drop b.skip.toNat = (l.drop b.skip.toNat).take b.limit.toNat := by
  rw [List.drop_take, List.take_eq_take_iff, b.reach_toNat, List.length_drop]
  omega

end RowLimit

namespace TupleStream

section

variable {B : Bond} {P : Tuple → Prop}

/-- Simulations compose where a state of the first run is related to itself. -/
theorem Sim.trans (hself : ∀ {s s'}, B.state s s' → B.state s s)
    (htrans : ∀ {s s' s''}, B.state s s' → B.state s' s'' → B.state s s'') (t : TupleStream) :
    ∀ {t' t''}, t.Sim B P t' → t'.Sim B P t'' → t.Sim B P t'' := by
  induction t using TupleStream.induct with
  | step t ih =>
    intro t' t'' h h'
    refine sim_iff.2 fun s s'' hs => ?_
    have ha := h.answer (hself hs)
    have ha' := h'.answer hs
    have rests := ih s
    generalize t.pull s = r at ha rests
    generalize t'.pull s = r' at ha ha'
    generalize t''.pull s'' = r'' at ha'
    cases ha with
    | row hu hs₁ ht =>
      cases ha' with
      | row _ hs₁' ht' => exact .row hu (htrans hs₁ hs₁') (rests _ _ _ rfl ht ht')
    | finished hs₁ =>
      cases ha' with
      | finished hs₁' => exact .finished (htrans hs₁ hs₁')
    | failed hs₁ =>
      cases ha' with
      | failed hs₁' => exact .failed (htrans hs₁ hs₁')
      | lost hw hs₁' => exact .lost hw (htrans hs₁ hs₁')
      | excused he => exact .excused he
    | crashed hs₁ =>
      cases ha' with
      | crashed hs₁' => exact .crashed (htrans hs₁ hs₁')
    | lost hw hs₁ =>
      cases ha' with
      | crashed hs₁' => exact .lost hw (htrans hs₁ hs₁')
    | excused he => exact .excused he

variable {t t' : TupleStream} {order : SortOrder}

/-- A stream that is watched is simulated by itself. -/
theorem Sim.watchedLeft (hB : B.excuses .cancelled) (t : TupleStream) :
    ∀ {t'}, t.Sim B P t' → (t.watched order).Sim B P t' := by
  unfold watched
  generalize ([] : List Tuple) = seen
  induction t using TupleStream.induct generalizing seen with
  | step t ih =>
    intro t' h
    refine sim_iff.2 fun s s' hs => ?_
    rw [pull_steady]
    have ha := h.answer hs
    have rests := ih s
    generalize t.pull s = r at ha rests
    generalize t'.pull s' = r' at ha
    cases ha with
    | @row u s₁ s₁' rest rest' hu hs₁ ht =>
      have hstep : (Transducer.steady order.watchStep).step = order.watchStep := rfl
      rw [Reply.transduce, hstep, SortOrder.watchStep]
      by_cases hfits : order.Fits (seen ++ [u])
      · rw [if_pos hfits]
        exact .row hu hs₁ (rests _ _ _ rfl _ ht)
      · rw [if_neg hfits]
        exact .excused hB
    | finished hs₁ => exact .finished hs₁
    | failed hs₁ => exact .failed hs₁
    | crashed hs₁ => exact .crashed hs₁
    | lost hw hs₁ => exact .lost hw hs₁
    | excused he => exact .excused he

theorem Sim.watched (h : t.Sim B P t') : (t.watched order).Sim B P (t'.watched order) := by
  refine h.steady (fun seen u s s' hu hs => ?_) []
  unfold SortOrder.watchStep
  by_cases hfits : order.Fits (seen ++ [u])
  · rw [if_pos hfits]
    exact .emit hu hs
  · rw [if_neg hfits]
    exact .fail hs

end

/-! ## Reading what is watched -/

section

variable {α σ : Type}

/-- A step of reading what a transducer emits. -/
def throughStep (step : σ → Tuple → RunState → Verdict σ × RunState)
    (add : α → Tuple → RunState → Outcome α) (x : σ × α) (u : Tuple) (s : RunState) :
    Outcome (σ × α) :=
  match step x.1 u s with
  | (.emit v next, s) => Outcome.map (next, ·) (add x.2 v s)
  | (.drop next, s) => (.ok (next, x.2), s)
  | (.fail f, s) => (.error f, s)

/-- Reading what a transducer emits is reading with both steps at once. -/
theorem consume_steady (step : σ → Tuple → RunState → Verdict σ × RunState)
    (add : α → Tuple → RunState → Outcome α) (t : TupleStream) (b : σ) (a : α) (s : RunState) :
    (t.transduce (.steady step) b).consume add a s =
      Outcome.map Prod.snd (t.consume (throughStep step add) (b, a) s) := by
  induction t using TupleStream.induct generalizing b a s with
  | step t ih =>
    simp only [consume, drain_eq _ t, drain_eq _ (t.transduce _ _), pull_steady]
    have rests := ih s
    generalize t.pull s = r at rests
    cases r with
    | finished s₁ rest => rfl
    | failed e s₁ => rfl
    | crashed c s₁ rest => rfl
    | row u s₁ rest =>
      have hrest := rests u s₁ rest rfl
      have hsteady : (Transducer.steady step).step = step := rfl
      simp only [consume] at hrest
      simp only [Reply.transduce, Reply.drain, throughStep, hsteady]
      obtain ⟨verdict, s₂⟩ := step b u s₁
      cases verdict with
      | emit v next =>
        simp only [Reply.drain]
        rcases add a v s₂ with ⟨f | a', s₃⟩
        · rfl
        · exact hrest next a' s₃
      | drop next => exact (drain_eq add _ a s₂) ▸ hrest next a s₂
      | fail f => cases f <;> rfl

/-- A stream that reads its input to the end and goes on with what has been gathered. -/
def gathered (add : α → Tuple → RunState → Outcome α) (finish : α → RunState → Outcome TupleStream)
    (a : α) (t : TupleStream) : TupleStream :=
  deferred fun s =>
    match t.consume add a s with
    | (.error f, s) => (.error f, s)
    | (.ok a, s) => finish a s

/-- Whether a step gathers tuples that fit a sort, where `holds` says what has been gathered. -/
def Gathers (order : SortOrder) (cs : List Column) (holds : List Tuple → α → Prop)
    (add : α → Tuple → RunState → Outcome α) : Prop :=
  ∀ us u a s, holds us a → order.Sortable cs (us ++ [u]) → order.Fits (us ++ [u]) →
    ∃ a' s', add a u s = (.ok a', s') ∧ s.Recounted s' ∧ holds (us ++ [u]) a'

/-- Whether a way of reading gives what `select` leaves of the sorted tuples. -/
structure Sorts (order : SortOrder) (cs : List Column) (select : List Tuple → List Tuple)
    (add : α → Tuple → RunState → Outcome α) (finish : α → RunState → Outcome TupleStream)
    (start : α) (holds : List Tuple → α → Prop) : Prop where
  start : holds [] start
  gathers : Gathers order cs holds add
  finish : ∀ us a s out, holds us a → order.Sortable cs us → us.length < UInt64.size →
    StableSort order.compareKeys us out →
    ∃ t s', finish a s = (.ok t, s') ∧ s.Recounted s' ∧ t.Lists (select out)

section

variable {B : Bond} {order : SortOrder} {cs : List Column} {add : α → Tuple → RunState → Outcome α}
  {holds : List Tuple → α → Prop} {t t' : TupleStream}

/-- Watching does not keep a step from gathering what fits. -/
theorem Gathers.watched (h : Gathers order cs holds add) :
    Gathers order cs (fun us x => x.1 = us ∧ holds us x.2) (throughStep order.watchStep add) := by
  rintro us u ⟨seen, a⟩ s ⟨rfl, ha⟩ hsortable hfits
  obtain ⟨a', s', hadd, hs', ha'⟩ := h seen u a s ha hsortable hfits
  refine ⟨(seen ++ [u], a'), s', ?_, hs', rfl, ha'⟩
  rw [throughStep, SortOrder.watchStep, if_pos hfits]
  simp only [hadd]
  rfl

/-- Steps that gather on both sides agree on the tuples, unless the first run is cancelled. -/
theorem Sim.gather {β : Type} {add' : β → Tuple → RunState → Outcome β}
    {holds' : List Tuple → β → Prop} (hB : B.Faithful) (hcancel : B.excuses .cancelled)
    (hadd : Gathers order cs holds add) (hadd' : Gathers order cs holds' add')
    (h : t.Sim B (Tuple.Laid cs) t') {a : α} {b : β} (ha : holds [] a) (hb : holds' [] b)
    {s s' : RunState} (hs : B.state s s') :
    B.Agree (fun x y => ∃ us, order.Sortable cs us ∧ us.length < UInt64.size ∧ holds us x ∧ holds' us y)
      ((t.watched order).consume add a s) (t'.consume add' b s') := by
  have hread : B.Agree (fun x y => order.Sortable cs x.1 ∧ x.1.length < UInt64.size ∧
        holds x.1 x.2 ∧ holds' x.1 y)
      (t.consume (throughStep order.watchStep add) ([], a) s) (t'.consume add' b s') := by
    refine Sim.consume ?_ t h ⟨⟨by simp, by simp [SortOrder.Uniform]⟩, by simp [UInt64.size], ha, hb⟩ hs
    rintro ⟨seen, x⟩ y u s₁ s₁' ⟨hsortable, _, hx, hy⟩ hu hs₁
    simp only [throughStep, SortOrder.watchStep]
    by_cases hfits : order.Fits (seen ++ [u])
    · have hmore : order.Sortable cs (seen ++ [u]) := by
        refine ⟨fun v hv => ?_, hfits.2⟩
        rcases List.mem_append.1 hv with hv | hv
        · exact hsortable.laid v hv
        · exact List.mem_singleton.1 hv ▸ hu
      obtain ⟨x', s₂, hx', hs₂, hholds⟩ := hadd seen u x s₁ hx hmore hfits
      obtain ⟨y', s₂', hy', hs₂', hholds'⟩ := hadd' seen u y s₁' hy hmore hfits
      simp only [hfits, if_true, hx', hy']
      exact .ok ⟨hmore, hfits.1, hholds, hholds'⟩ (hB.recount hs₁ hs₂ hs₂')
    · simp only [hfits, if_false]
      exact .excused hcancel
  rw [TupleStream.watched, consume_steady]
  generalize t.consume _ _ s = o at hread
  generalize t'.consume add' b s' = o' at hread
  cases hread with
  | ok hx hs₁ => exact .ok ⟨_, hx⟩ hs₁
  | failed hf hs₁ => exact .failed hf hs₁
  | excused he => exact .excused he

variable {β : Type} {add' : β → Tuple → RunState → Outcome β} {holds' : List Tuple → β → Prop}
  {finish : α → RunState → Outcome TupleStream} {finish' : β → RunState → Outcome TupleStream}
  {select : List Tuple → List Tuple} {a : α} {b : β}

/-- Ways of sorting that leave the same of the sorted tuples simulate each other. -/
theorem Sim.gathered (hB : B.Faithful) (hcancel : B.excuses .cancelled)
    (hselect : ∀ us, ∀ u ∈ select us, u ∈ us)
    (w : Sorts order cs select add finish a holds) (w' : Sorts order cs select add' finish' b holds')
    (h : t.Sim B (Tuple.Laid cs) t') :
    ((t.watched order).gathered add finish a).Sim B (Tuple.Laid cs) (t'.gathered add' finish' b) := by
  refine deferred fun s s' hs => ?_
  have ha := h.gather hB hcancel w.gathers w'.gathers w.start w'.start hs
  generalize (t.watched order).consume add a s = o at ha
  generalize t'.consume add' b s' = o' at ha
  cases ha with
  | failed hf hs₁ => exact .failed hf hs₁
  | excused he => exact .excused he
  | @ok x y s₁ s₁' hx hs₁ =>
    obtain ⟨us, hsortable, hlength, hx, hy⟩ := hx
    have hout : StableSort order.compareKeys us _ := .mergeSort us
    obtain ⟨v, s₂, hv, hs₂, hlists⟩ := w.finish us x s₁ _ hx hsortable hlength hout
    obtain ⟨v', s₂', hv', hs₂', hlists'⟩ := w'.finish us y s₁' _ hy hsortable hlength hout
    simp only [hv, hv']
    refine .ok (hlists.sim hlists' fun u hu => ?_) (hB.recount hs₁ hs₂ hs₂')
    exact hsortable.laid u (hout.mem_iff.1 (hselect _ u hu))

/-- A way of sorting what is watched is a way of sorting. -/
theorem Sorts.watched (w : Sorts order cs select add finish a holds) :
    Sorts order cs select (throughStep order.watchStep add) (fun x => finish x.2) ([], a)
      (fun us x => x.1 = us ∧ holds us x.2) :=
  ⟨⟨rfl, w.start⟩, w.gathers.watched, fun us x s out hx => w.finish us x.2 s out hx.2⟩

theorem gathered_watched (t : TupleStream) :
    (t.watched order).gathered add finish a =
      t.gathered (throughStep order.watchStep add) (fun x => finish x.2) ([], a) := by
  simp only [gathered, TupleStream.watched, consume_steady]
  congr 1
  funext s
  obtain ⟨r, s'⟩ := t.consume (throughStep order.watchStep add) ([], a) s
  cases r <;> rfl

/-- A limit that reaches a row applies to what has been gathered. -/
theorem pull_limit_gathered {bounds : RowLimit} (t : TupleStream)
    (hreach : bounds.reach ≠ 0) (s : RunState) :
    ((t.gathered add finish a).limit bounds).pull s =
      (t.gathered add (fun a s => Outcome.map (·.limit bounds) (finish a s)) a).pull s := by
  have hready := RowLimit.ne_zero hreach
  rw [limit, pull_transduce rfl, hready, if_pos rfl]
  simp only [gathered, deferred, pull_of]
  rcases t.consume add a s with ⟨f | x, s₁⟩
  · cases f <;> rfl
  · simp only
    rcases finish x s₁ with ⟨f | v, s₂⟩
    · cases f <;> rfl
    · change _ = (v.limit bounds).pull s₂
      rw [limit, pull_transduce rfl, hready, if_pos rfl]

/-- What is left of few tuples counts only. -/
theorem Sorts.congr {select' : List Tuple → List Tuple} (w : Sorts order cs select add finish a holds)
    (h : ∀ out : List Tuple, out.length < UInt64.size → select out = select' out) :
    Sorts order cs select' add finish a holds := by
  refine ⟨w.start, w.gathers, fun us x s out hx hsortable hlength hout => ?_⟩
  rw [← h out (hout.length_eq ▸ hlength)]
  exact w.finish us x s out hx hsortable hlength hout

theorem Sorts.limit (w : Sorts order cs select add finish a holds) (bounds : RowLimit) :
    Sorts order cs (fun out => ((select out).drop bounds.skip.toNat).take bounds.limit.toNat) add
      (fun a s => Outcome.map (·.limit bounds) (finish a s)) a holds := by
  refine ⟨w.start, w.gathers, fun us x s out hx hsortable hlength hout => ?_⟩
  obtain ⟨v, s', hv, hs', hlists⟩ := w.finish us x s out hx hsortable hlength hout
  exact ⟨v.limit bounds, s', by rw [hv]; rfl, hs', hlists.limit bounds⟩

end

/-! ## The three sorts -/

/-- A limit that reaches nothing does not read. -/
theorem pull_limit_zero {bounds : RowLimit} (hreach : bounds.reach = 0) (t : TupleStream)
    (s : RunState) : (t.limit bounds).pull s = .finished s ended := by
  have hz := bounds.reach_toNat
  rw [hreach, UInt64.toNat_zero, UInt64.size] at hz
  have hnone : bounds.skip.toNat = 0 ∧ bounds.limit.toNat = 0 := by omega
  rw [limit, pull_transduce rfl, hnone.1, hnone.2]
  rfl

theorem pull_limitingSort_zero (order : SortOrder) {bounds : RowLimit} (hreach : bounds.reach = 0)
    (t : TupleStream) (s : RunState) : (t.limitingSort order bounds).pull s = .finished s ended := by
  simp only [limitingSort, deferred, pull_of, hreach, if_true]
  rfl

section

variable {order : SortOrder} {cs : List Column}

theorem sorted_eq {us : List Tuple} (h : order.Comparable us) (s : RunState) :
    ∃ out, sorted order us s = (.ok out, s.count .sort) ∧ StableSort order.compareKeys us out := by
  obtain ⟨out, hsort, hout⟩ := h.sortTuples
  exact ⟨out, by rw [sorted, hsort], hout⟩

theorem sort_eq (order : SortOrder) (t : TupleStream) :
    t.sort order = t.gathered (fun found u s => (.ok (found ++ [u]), s))
      (fun us s => Outcome.map ofList (sorted order us s)) [] := by
  rw [sort, gathered]
  congr 1
  funext s
  rw [collect, reduce]
  rcases t.consume _ _ s with ⟨f | us, s'⟩ <;> rfl

theorem sort_sorts (order : SortOrder) (cs : List Column) :
    Sorts order cs id (fun found u s => (.ok (found ++ [u]), s))
      (fun us s => Outcome.map ofList (sorted order us s)) [] fun us found => found = us := by
  refine ⟨rfl, ?_, ?_⟩
  · rintro us u _ s rfl _ _
    exact ⟨_, s, rfl, .refl s, rfl⟩
  · rintro us _ s out rfl hsortable _ hout
    obtain ⟨out', hsorted, hout'⟩ := sorted_eq hsortable.comparable s
    refine ⟨ofList out', s.count .sort, by rw [hsorted]; rfl, .count s _, ?_⟩
    rw [hout.unique hout']
    exact .ofList out'

/-- Takes a further tuple under a bound. -/
def keepWithin (order : SortOrder) (bounds : RowLimit) (kept : List Tuple) (u : Tuple)
    (s : RunState) : Outcome (List Tuple) :=
  (Crash.lifted (keepLeast order bounds.reach.toNat kept u), s)

/-- What a sort with a limit holds are the first tuples of the stable sort. -/
theorem keepWithin_first {bounds : RowLimit} (hreach : bounds.reach ≠ 0) {us kept : List Tuple}
    {u : Tuple} (hall : order.Comparable (us ++ [u]))
    (hkept : ∃ out, StableSort order.compareKeys us out ∧ kept = out.take bounds.reach.toNat)
    (s : RunState) : ∃ found, keepWithin order bounds kept u s = (.ok found, s) ∧
      ∃ out, StableSort order.compareKeys (us ++ [u]) out ∧
        found = out.take bounds.reach.toNat := by
  obtain ⟨out, hout, rfl⟩ := hkept
  have hpos : 0 < bounds.reach.toNat :=
    Nat.pos_of_ne_zero fun hz => hreach (UInt64.toNat_inj.1 hz)
  refine ⟨_, ?_, _, hout.insert u, rfl⟩
  rw [keepWithin, hall.keepLeast hpos hout]
  rfl

theorem limitingSort_eq (order : SortOrder) {bounds : RowLimit} (hreach : bounds.reach ≠ 0)
    (t : TupleStream) :
    t.limitingSort order bounds = t.gathered (keepWithin order bounds)
      (fun kept s => (.ok (ofList (kept.drop bounds.skip.toNat)), s.count .sort)) [] := by
  rw [limitingSort, gathered]
  congr 1
  funext s
  rw [if_neg hreach, reduce]
  unfold keepWithin
  rcases t.consume _ _ s with ⟨f | kept, s'⟩ <;> rfl

theorem limitingSort_sorts (order : SortOrder) (cs : List Column) {bounds : RowLimit}
    (hreach : bounds.reach ≠ 0) :
    Sorts order cs (fun out => (out.take bounds.reach.toNat).drop bounds.skip.toNat)
      (keepWithin order bounds)
      (fun kept s => (.ok (ofList (kept.drop bounds.skip.toNat)), s.count .sort)) []
      fun us kept => ∃ out, StableSort order.compareKeys us out ∧
        kept = out.take bounds.reach.toNat := by
  refine ⟨⟨[], .nil, List.take_nil.symm⟩, fun us u kept s hkept hsortable _ => ?_, ?_⟩
  · obtain ⟨found, hfound, hheld⟩ := keepWithin_first hreach hsortable.comparable hkept s
    exact ⟨found, s, hfound, .refl s, hheld⟩
  · rintro us _ s out ⟨out', hout', rfl⟩ _ _ hout
    refine ⟨_, _, rfl, .count s _, ?_⟩
    rw [hout.unique hout']
    exact .ofList _

/-- A sort that spills reads its input to the end and then merges its runs. -/
theorem sortByRuns_eq {ρ : Type} (order : SortOrder) (chunk : Nat) (canSpill : Bool)
    (write : List Tuple → ρ) (read : ρ → TupleStream) (t : TupleStream) :
    t.sortByRuns order chunk canSpill write read =
      t.gathered (SpillState.add order (max chunk 1) canSpill write)
        (fun a s => a.finish order canSpill write read s) ⟨[], []⟩ := by
  rw [sortByRuns, gathered]
  congr 1
  funext s
  rcases t.consume _ _ s with ⟨f | a, s'⟩ <;> rfl

theorem externalSort_eq (order : SortOrder) (chunk : Nat) (canSpill : Bool) (cs : List Column)
    (t : TupleStream) :
    t.externalSort .plain order chunk canSpill cs =
      t.gathered (SpillState.add order (max chunk 1) canSpill (relaid cs))
        (fun a s => a.finish order canSpill (relaid cs) ofList s) ⟨[], []⟩ := by
  rw [externalSort_relaid, sortByRuns_eq]

section

variable {ρ : Type} {write : List Tuple → ρ} {read : ρ → TupleStream}

/-- What a spilling sort has gathered: the stable sorts of earlier chunks have been written. -/
def Spilled (order : SortOrder) (write : List Tuple → ρ) (us : List Tuple) (a : SpillState ρ) : Prop :=
  ∃ chunks runs, us = chunks.flatten ++ a.waiting ∧ a.runs = runs.map write ∧
    List.Forall₂ (StableSort order.compareKeys) chunks runs

/-- Whether runs of these tuples are read as they were written. -/
def ReadsBack (write : List Tuple → ρ) (read : ρ → TupleStream) (us : List Tuple) : Prop :=
  ∀ run : List Tuple, (∀ u ∈ run, u ∈ us) → read (write run) = ofList run

theorem relaid_laid {us : List Tuple} (h : ∀ u ∈ us, u.Laid cs) : relaid cs us = us := by
  refine (List.map_congr_left fun u hu => ?_).trans (List.map_id us)
  rw [← (h u hu).1]
  rfl

/-- Tuples that are laid out already are read as they were. -/
theorem readsBack_relaid {us : List Tuple} (h : ∀ u ∈ us, u.Laid cs) :
    ReadsBack (relaid cs) ofList us := by
  intro run hrun
  rw [relaid_laid fun u hu => h u (hrun u hu)]

theorem spilled_nil : Spilled order write [] ⟨[], []⟩ := ⟨[], [], rfl, rfl, .nil⟩

theorem spill_spilled {us : List Tuple} {a : SpillState ρ} (ha : Spilled order write us a)
    (h : order.Comparable us) (s : RunState) :
    ∃ a', a.spill order true write s = (.ok a', s.count .sort) ∧ a'.waiting = [] ∧
      Spilled order write us a' := by
  obtain ⟨chunks, runs, rfl, hwritten, hruns⟩ := ha
  have hwaiting : order.Comparable a.waiting := h.mono fun u hu => List.mem_append_right _ hu
  obtain ⟨run, hsorted, hrun⟩ := sorted_eq hwaiting s
  refine ⟨⟨a.runs ++ [write run], []⟩, ?_, rfl, chunks ++ [a.waiting], runs ++ [run], by simp, ?_, ?_⟩
  · rw [SpillState.spill, hsorted]
    rfl
  · simp [hwritten]
  · exact List.rel_append hruns (.cons hrun .nil)

/-- A further tuple is gathered, also where it fills a chunk. -/
theorem add_spilled {us : List Tuple} {u : Tuple} {a : SpillState ρ} (chunk : Nat)
    (ha : Spilled order write us a) (h : order.Comparable (us ++ [u])) (s : RunState) :
    ∃ a' s', a.add order chunk true write u s = (.ok a', s') ∧ s.Recounted s' ∧
      Spilled order write (us ++ [u]) a' := by
  have hnew : Spilled order write (us ++ [u]) { a with waiting := a.waiting ++ [u] } := by
    obtain ⟨chunks, runs, rfl, hwritten, hruns⟩ := ha
    exact ⟨chunks, runs, by simp, hwritten, hruns⟩
  rw [SpillState.add]
  split
  · obtain ⟨a', hspill, _, ha'⟩ := spill_spilled hnew h s
    exact ⟨a', _, hspill, .count s _, ha'⟩
  · exact ⟨_, s, rfl, .refl s, hnew⟩

/-- Once nothing waits any more, the runs that are read back are merged. -/
theorem merge_spilled {us out : List Tuple} {a : SpillState ρ} (ha : Spilled order write us a)
    (hwaiting : a.waiting = []) (h : order.Sortable cs us) (hback : ReadsBack write read us)
    (hout : StableSort order.compareKeys us out) (s : RunState) :
    ∃ t, a.merge order read s = (.ok t, s) ∧ t.Lists out := by
  obtain ⟨chunks, runs, rfl, hwritten, hruns⟩ := ha
  rw [hwaiting, List.append_nil] at hout h hback
  have hmem : ∀ u ∈ runs.flatten, u ∈ chunks.flatten := fun u hu => StableSort.mem_chunks hruns hu
  have hread : a.runs.map read = runs.map ofList := by
    rw [hwritten, List.map_map]
    exact List.map_congr_left fun run hrun =>
      hback run fun u hu => hmem u (List.mem_flatten.2 ⟨run, hrun, hu⟩)
  have hall : StableSort order.compareKeys runs.flatten _ := .mergeSort _
  rw [SpillState.merge, hread, hout.unique (.of_runs hruns hall)]
  exact startMerge_lists (h.mono hmem) (StableSort.pairwise_of_mem_runs hruns) hall s

/-- What has been gathered is given in order. -/
theorem finish_spilled {us out : List Tuple} {a : SpillState ρ} (ha : Spilled order write us a)
    (h : order.Sortable cs us) (hback : ReadsBack write read us)
    (hout : StableSort order.compareKeys us out) (s : RunState) :
    ∃ t s', a.finish order true write read s = (.ok t, s') ∧ s.Recounted s' ∧ t.Lists out := by
  simp only [SpillState.finish]
  split
  · rename_i hempty
    obtain ⟨chunks, runs, rfl, hwritten, hruns⟩ := ha
    rw [List.isEmpty_iff.1 hempty] at hwritten
    rw [List.map_eq_nil_iff.1 hwritten.symm, List.forall₂_nil_right_iff] at hruns
    subst hruns
    rw [List.flatten_nil, List.nil_append] at h hout
    obtain ⟨out', hsorted, hout'⟩ := sorted_eq h.comparable s
    rw [hout.unique hout']
    exact ⟨ofList out', s.count .sort, by rw [hsorted]; rfl, .count s _, .ofList out'⟩
  · split
    · rename_i hwaiting
      obtain ⟨t, ht, hlists⟩ := merge_spilled ha (List.isEmpty_iff.1 hwaiting) h hback hout s
      exact ⟨t, s, ht, .refl s, hlists⟩
    · obtain ⟨a', hspill, hwaiting, ha'⟩ := spill_spilled ha h.comparable s
      obtain ⟨t, ht, hlists⟩ := merge_spilled ha' hwaiting h hback hout (s.count .sort)
      simp only [hspill]
      exact ⟨t, _, ht, .count s _, hlists⟩

end

theorem externalSort_sorts (order : SortOrder) (chunk : Nat) (cs : List Column) :
    Sorts order cs id (SpillState.add order (max chunk 1) true (relaid cs))
      (fun a s => a.finish order true (relaid cs) ofList s) ⟨[], []⟩ (Spilled order (relaid cs)) :=
  ⟨spilled_nil, fun _ _ _ s ha hsortable _ => add_spilled _ ha hsortable.comparable s,
    fun _ _ s _ ha hsortable _ hout =>
      finish_spilled ha hsortable (readsBack_relaid hsortable.laid) hout s⟩

end

end

/-! ## Sorts in each other's place -/

section

variable {B : Bond} {order : SortOrder} {cs : List Column} {t t' : TupleStream}

/-- A sort that spills takes the place of a sort in memory. -/
theorem Sim.sort_externalSort (hB : B.Faithful) (hcancel : B.excuses .cancelled) (chunk : Nat)
    (h : t.Sim B (Tuple.Laid cs) t') :
    ((t.watched order).sort order).Sim B (Tuple.Laid cs)
      ((t'.watched order).externalSort .plain order chunk true cs) := by
  rw [sort_eq, externalSort_eq, gathered_watched t']
  exact h.gathered hB hcancel (fun _ _ hu => hu) (sort_sorts order cs)
    (externalSort_sorts order _ cs).watched

/-- A sort that keeps the least tuples takes the place of a sort and a limit. -/
theorem Sim.limit_limitingSort {α : Type} {add : α → Tuple → RunState → Outcome α}
    {finish : α → RunState → Outcome TupleStream} {a : α} {holds : List Tuple → α → Prop}
    (hB : B.Faithful) (hcancel : B.excuses .cancelled) (bounds : RowLimit)
    (w : Sorts order cs id add finish a holds) (h : t.Sim B (Tuple.Laid cs) t') :
    (((t.watched order).gathered add finish a).limit bounds).Sim B (Tuple.Laid cs)
      (t'.limitingSort order bounds) := by
  refine sim_iff.2 fun s s' hs => ?_
  by_cases hreach : bounds.reach = 0
  · rw [pull_limit_zero hreach, pull_limitingSort_zero order hreach]
    exact .finished hs
  · rw [pull_limit_gathered _ hreach, limitingSort_eq order hreach]
    have hsorts := (limitingSort_sorts order cs hreach).congr
      fun out hlength => bounds.take_reach (.inl hlength)
    refine Sim.answer (h.gathered hB hcancel ?_ (w.limit bounds) hsorts) hs
    exact fun us u hu => List.mem_of_mem_drop (List.mem_of_mem_take hu)

end

end TupleStream

end QueryEngine
