import QueryEngine.Proofs.Reading

/-!
# What operators see

Where sub-queries are only read as entries of lists, neither the order nor the number of their
results counts. What is evaluated depends on the slots, on the sets of results, and on the columns
and values of the tuple at hand.
-/

set_option autoImplicit false

namespace QueryEngine

/-! ## Reading sub-queries -/

namespace Binding

mutual

/-- Whether a binding reads no sub-query. -/
def isPlain : Binding → Bool
  | literal .. => true
  | column _ => true
  | call _ arguments => arePlain arguments
  | subquery .. => false

def arePlain : List Binding → Bool
  | [] => true
  | b :: rest => b.isPlain && arePlain rest

end

theorem arePlain_eq_all (bs : List Binding) : arePlain bs = bs.all isPlain := by
  induction bs with
  | nil => rfl
  | cons b rest ih => rw [arePlain, ih, List.all_cons]

/-- The group of the sub-query that a binding stands for. -/
def group? : Binding → Option GroupId
  | subquery group _ => some group
  | _ => none

end Binding

/-- Whether sub-queries stand only among the entries of the list of an `IN`. -/
def Comparison.isListing : Comparison → Bool
  | oneOf value list => value.isPlain && list.all fun b => b.isSubquery || b.isPlain
  | c => c.bindings.all Binding.isPlain

namespace Operator

/-- Whether an operator reads sub-queries only as entries of lists. -/
def isListing : Operator → Bool
  | filter p => p.atoms.all fun atom => atom.1.isListing
  | subselect p => p.atoms.all fun atom => atom.1.isListing
  | function _ arguments _ => arguments.all Binding.isPlain
  | _ => true

/-- The groups of the sub-queries that are read. -/
def readings : Operator → List GroupId
  | filter p => p.bindings.filterMap Binding.group?
  | subselect p => p.bindings.filterMap Binding.group?
  | _ => []

end Operator

/-! ## Views -/

/-- The results of sub-queries as sets, of those that have been opened. -/
abbrev View := GroupId → Option (Set Value)

namespace View

/-- A view in which the results of a sub-query are hidden. -/
def hide (e : View) (g : GroupId) : View := fun h => if h = g then none else e h

/-- A view in which a sub-query has been bound. -/
def bind (e : View) (g : GroupId) (vs : Set Value) : View := fun h => if h = g then some vs else e h

end View

/-- What stays as it is while plans only read: tables and slots. The results of some sub-queries are
not looked at. -/
structure Frame where
  store : Store
  slots : List (Option Value)
  hidden : List GroupId

/-- The frame in which a further sub-query is hidden. -/
def Frame.hide (c : Frame) (g : GroupId) : Frame := { c with hidden := g :: c.hidden }

/-- The results of a sub-query as a set, if it has been opened. -/
def Bindings.resultSet (b : Bindings) (g : GroupId) : Option (Set Value) :=
  (b.subquery? g).map fun vs => {v | v ∈ vs}

/-- Whether a state within a frame shows these results. -/
structure RunState.Shows (s : RunState) (c : Frame) (e : View) : Prop where
  store : s.store.unread = c.store
  slots : s.bindings.slots = c.slots
  results : ∀ g, (if g ∈ c.hidden then none else s.bindings.resultSet g) = e g

/-! ## Evaluation -/

/-- A tuple without its row number. -/
def Tuple.unnumbered (u : Tuple) : Tuple := { u with row := syntheticRow }

section

variable {b b' : Bindings} {u u' : Tuple}

theorem Tuple.get?_of_unnumbered (hu : u.unnumbered = u'.unnumbered) (c : Column) :
    u.get? c = u'.get? c :=
  show u.unnumbered.get? c = u'.unnumbered.get? c from congrArg (·.get? c) hu

namespace Bindings

mutual

theorem resolve_congr (hslots : b.slots = b'.slots) (hu : u.unnumbered = u'.unnumbered) :
    ∀ v : Binding, v.isPlain = true → b.resolve (some u) v = b'.resolve (some u') v
  | .literal _ _, _ => by
    rw [resolve, resolve, literal, literal, hslots]
  | .column c, _ => by
    simp only [resolve, columnValue, Option.mapM_some, Tuple.get?_of_unnumbered hu]
  | .call f arguments, h => by
    rw [Binding.isPlain] at h
    rw [resolve, resolve, resolveEach_congr hslots hu arguments h]
  | .subquery _ _, h => absurd h Bool.false_ne_true

theorem resolveEach_congr (hslots : b.slots = b'.slots) (hu : u.unnumbered = u'.unnumbered) :
    ∀ vs : List Binding, Binding.arePlain vs = true →
      b.resolveEach (some u) vs = b'.resolveEach (some u') vs
  | [], _ => rfl
  | v :: rest, h => by
    rw [Binding.arePlain, Bool.and_eq_true] at h
    rw [resolveEach, resolveEach, resolve_congr hslots hu v h.1,
      resolveEach_congr hslots hu rest h.2]

end

/-- Whether a value is among the results of a sub-query depends on their set only. -/
theorem any_subquery_congr {g : GroupId} (h : b.resultSet g = b'.resultSet g) (p : Value → Bool) :
    (b.subquery g).map (·.any p) = (b'.subquery g).map (·.any p) := by
  unfold subquery
  unfold resultSet at h
  cases hb : b.subquery? g with
  | none =>
    rw [hb] at h
    cases hb' : b'.subquery? g with
    | none => rfl
    | some ws => simp [hb'] at h
  | some vs =>
    rw [hb] at h
    cases hb' : b'.subquery? g with
    | none => simp [hb'] at h
    | some ws =>
      rw [hb', Option.map_some, Option.map_some, Option.some.injEq] at h
      have hmem : ∀ v, v ∈ vs ↔ v ∈ ws := fun v => Set.ext_iff.1 h v
      have hany : vs.any p = ws.any p := by
        rw [Bool.eq_iff_iff, List.any_eq_true, List.any_eq_true]
        exact exists_congr fun v => and_congr_left fun _ => hmem v
      exact congrArg Except.ok hany

end Bindings

/-- Whether a value is in a list depends on the sets of results only. -/
theorem Comparison.isAmong_congr (hslots : b.slots = b'.slots) (hu : u.unnumbered = u'.unnumbered)
    {list : List Binding} (hlist : list.all (fun c => c.isSubquery || c.isPlain) = true)
    (hread : ∀ g ∈ list.filterMap Binding.group?, b.resultSet g = b'.resultSet g) (v : Value) :
    isAmong b u v list = isAmong b' u' v list := by
  induction list with
  | nil => rfl
  | cons c rest ih =>
    rw [List.all_cons, Bool.and_eq_true, Bool.or_eq_true] at hlist
    obtain ⟨hc, hrest⟩ := hlist
    have hih := ih hrest fun g hg => by
      apply hread
      obtain ⟨k, hk, hkg⟩ := List.mem_filterMap.1 hg
      exact List.mem_filterMap.2 ⟨k, List.mem_cons_of_mem _ hk, hkg⟩
    rw [isAmong, isAmong, hih]
    cases c with
    | subquery g d =>
      have hg := hread g (List.mem_filterMap.2 ⟨_, List.mem_cons_self, rfl⟩)
      have hany := Bindings.any_subquery_congr hg fun c => v.compare? c == some .eq
      simp only [Bindings.resolveAll]
      generalize b.subquery g = r at hany
      generalize b'.subquery g = r' at hany
      cases r <;> cases r' <;> simp_all [Bindings.lifted, Except.map, Except.mapError]
    | literal slot type =>
      have hc' := hc.resolve_left (by simp [Binding.isSubquery])
      simp only [Bindings.resolveAll, Bindings.resolve_congr hslots hu _ hc']
    | column d =>
      have hc' := hc.resolve_left (by simp [Binding.isSubquery])
      simp only [Bindings.resolveAll, Bindings.resolve_congr hslots hu _ hc']
    | call f arguments =>
      have hc' := hc.resolve_left (by simp [Binding.isSubquery])
      simp only [Bindings.resolveAll, Bindings.resolve_congr hslots hu _ hc']

theorem Comparison.holds_congr (hslots : b.slots = b'.slots) (hu : u.unnumbered = u'.unnumbered)
    {c : Comparison} (hc : c.isListing = true)
    (hread : ∀ g ∈ c.bindings.filterMap Binding.group?, b.resultSet g = b'.resultSet g) :
    c.holds b u = c.holds b' u' := by
  have hresolve (v : Binding) (hv : v.isPlain = true) :
      b.resolve (some u) v = b'.resolve (some u') v := Bindings.resolve_congr hslots hu v hv
  cases c with
  | oneOf value list =>
    rw [isListing, Bool.and_eq_true] at hc
    have hread' : ∀ g ∈ list.filterMap Binding.group?, b.resultSet g = b'.resultSet g := by
      intro g hg
      apply hread
      obtain ⟨k, hk, hkg⟩ := List.mem_filterMap.1 hg
      exact List.mem_filterMap.2 ⟨k, List.mem_cons_of_mem _ hk, hkg⟩
    simp only [holds, hresolve _ hc.1, isAmong_congr hslots hu hc.2 hread']
  | relation r left right =>
    simp only [isListing, bindings, List.all_cons, List.all_nil, Bool.and_eq_true] at hc
    simp only [holds, hresolve _ hc.1, hresolve _ hc.2.1]
  | between value lower upper =>
    simp only [isListing, bindings, List.all_cons, List.all_nil, Bool.and_eq_true] at hc
    simp only [holds, hresolve _ hc.1, hresolve _ hc.2.1, hresolve _ hc.2.2.1]
  | isNull value =>
    simp only [isListing, bindings, List.all_cons, List.all_nil, Bool.and_eq_true] at hc
    simp only [holds, hresolve _ hc.1]
  | like value pattern =>
    simp only [isListing, bindings, List.all_cons, List.all_nil, Bool.and_eq_true] at hc
    simp only [holds, hresolve _ hc.1, hresolve _ hc.2.1]

/-- Whether a predicate holds depends on the slots, on the sets of the results that it reads, and on
the tuple without its number. -/
theorem Predicate.holds_congr (hslots : b.slots = b'.slots) (hu : u.unnumbered = u'.unnumbered)
    {p : Predicate} (hp : p.atoms.all (fun atom => atom.1.isListing) = true)
    (hread : ∀ g ∈ p.bindings.filterMap Binding.group?, b.resultSet g = b'.resultSet g) :
    p.holds b u = p.holds b' u' := by
  have hsides (l r : Predicate) (hp : (l.atoms ++ r.atoms).all (fun atom => atom.1.isListing) = true)
      (hread : ∀ g ∈ ((l.atoms ++ r.atoms).flatMap fun atom => atom.1.bindings).filterMap
        Binding.group?, b.resultSet g = b'.resultSet g) :
      (l.atoms.all (fun atom => atom.1.isListing) = true ∧
        ∀ g ∈ l.bindings.filterMap Binding.group?, b.resultSet g = b'.resultSet g) ∧
      r.atoms.all (fun atom => atom.1.isListing) = true ∧
        ∀ g ∈ r.bindings.filterMap Binding.group?, b.resultSet g = b'.resultSet g := by
    rw [List.all_append, Bool.and_eq_true] at hp
    rw [List.flatMap_append, List.filterMap_append] at hread
    exact ⟨⟨hp.1, fun g hg => hread g (List.mem_append_left _ hg)⟩, hp.2,
      fun g hg => hread g (List.mem_append_right _ hg)⟩
  induction p with
  | literal value => rfl
  | atom c negated =>
    simp only [atoms, List.all_cons, List.all_nil, Bool.and_true] at hp
    simp only [bindings, atoms, List.flatMap_cons, List.flatMap_nil, List.append_nil] at hread
    simp only [holds, Comparison.holds_congr hslots hu hp hread]
  | both l r ihl ihr =>
    obtain ⟨⟨hl, hl'⟩, hr, hr'⟩ := hsides l r hp hread
    simp only [holds, ihl hl hl', ihr hr hr']
  | either l r ihl ihr =>
    obtain ⟨⟨hl, hl'⟩, hr, hr'⟩ := hsides l r hp hread
    simp only [holds, ihl hl hl', ihr hr hr']

end

/-! ## Seen from a view -/

/-- Whether a predicate holds of a tuple in the states that show a view. -/
def Frame.Holds (c : Frame) (e : View) (p : Predicate) (u : Tuple) : Prop :=
  ∃ b : Bindings, b.slots = c.slots ∧
    (∀ g ∈ p.bindings.filterMap Binding.group?, b.resultSet g = e g) ∧ p.holds b u = .ok true

namespace RunState.Shows

variable {s s' : RunState} {c : Frame} {e e' : View} {g : GroupId}

theorem recount (h : s.Shows c e) (hs : s.Recounted s') : s'.Shows c e := by
  obtain ⟨p, rfl⟩ := hs
  exact ⟨h.store, h.slots, h.results⟩

theorem count (h : s.Shows c e) (item : ProfileItem) : (s.count item).Shows c e :=
  h.recount (.count s item)

theorem setTable (h : s.Shows c e) {t : TableHandle} {x : Table}
    (hx : x.unread = (s.table t).unread) : (s.setTable t x).Shows c e :=
  ⟨(Store.unread_setTable hx).trans h.store, h.slots, h.results⟩

theorem resultSet_eq (h : s.Shows c e) (hg : g ∉ c.hidden) : s.bindings.resultSet g = e g := by
  rw [← h.results g, if_neg hg]

/-- In a state, a predicate holds just where it does so in the view that the state shows. -/
theorem holds_iff (h : s.Shows c e) {p : Predicate}
    (hp : p.atoms.all (fun atom => atom.1.isListing) = true)
    (hread : ∀ g ∈ p.bindings.filterMap Binding.group?, g ∉ c.hidden) {u u' : Tuple}
    (hu : u.unnumbered = u'.unnumbered) {keep : Bool} (hkeep : p.holds s.bindings u = .ok keep) :
    c.Holds e p u' ↔ keep = true := by
  constructor
  · rintro ⟨b, hslots, hresults, hholds⟩
    have hsame : p.holds b u' = p.holds s.bindings u :=
      Predicate.holds_congr (hslots.trans h.slots.symm) hu.symm hp fun g hg =>
        (hresults g hg).trans (h.resultSet_eq (hread g hg)).symm
    rw [hsame, hkeep] at hholds
    exact Except.ok.inj hholds
  · rintro rfl
    have hsame : p.holds s.bindings u' = p.holds s.bindings u :=
      Predicate.holds_congr rfl hu.symm hp fun _ _ => rfl
    exact ⟨s.bindings, h.slots, fun g hg => h.resultSet_eq (hread g hg), hsame.trans hkeep⟩

theorem setSubquery_hidden (h : s.Shows (c.hide g) e) (vs : List Value) :
    RunState.Shows { s with bindings := s.bindings.setSubquery g vs } (c.hide g) e := by
  refine ⟨h.store, h.slots, ?_⟩
  intro k
  rw [← h.results k]
  by_cases hk : k = g
  · simp [Frame.hide, hk]
  · simp only [Bindings.resultSet, Bindings.subquery?_setSubquery_of_ne _ hk]

theorem hide (h : s.Shows c e) (g : GroupId) : s.Shows (c.hide g) (e.hide g) := by
  refine ⟨h.store, h.slots, ?_⟩
  intro k
  by_cases hk : k = g
  · simp [Frame.hide, View.hide, hk]
  · simp [Frame.hide, View.hide, hk, h.results k]

/-- Once a sub-query has been read, its results can be seen. -/
theorem bound (h : s.Shows (c.hide g) e) (hg : g ∉ c.hidden) {vs : List Value}
    (hvs : s.bindings.subquery? g = some vs) : s.Shows c (e.bind g {v | v ∈ vs}) := by
  refine ⟨h.store, h.slots, ?_⟩
  intro k
  by_cases hk : k = g
  · simp [View.bind, hk, hg, Bindings.resultSet, hvs]
  · have hsame := h.results k
    simp only [Frame.hide, List.mem_cons, hk, false_or] at hsame
    simp only [View.bind, hk, if_false, hsame]

end RunState.Shows

end QueryEngine
