import QueryEngine.Storage.HashIndex

/-!
# Agreeing late-bound values

An expression reads the slots and the results of the sub-queries that it names. Late-bound values that
agree on these give it the same value or the same failure, whatever else they hold.
-/

set_option autoImplicit false

namespace QueryEngine

/-- Sub-queries by their groups. -/
abbrev Groups := GroupId → Prop

namespace Binding

mutual

/-- The groups of the sub-queries that a binding reads, at any depth. -/
def groups : Binding → List GroupId
  | literal .. => []
  | column _ => []
  | call _ arguments => groupsOfAll arguments
  | subquery group _ => [group]

def groupsOfAll : List Binding → List GroupId
  | [] => []
  | b :: rest => b.groups ++ groupsOfAll rest

end

theorem groupsOfAll_eq (bs : List Binding) : groupsOfAll bs = bs.flatMap groups := by
  induction bs with
  | nil => rfl
  | cons b rest ih => rw [groupsOfAll, ih, List.flatMap_cons]

end Binding

namespace Bindings

theorem subquery?_setSubquery_self (b : Bindings) (g : GroupId) (vs : List Value) :
    (b.setSubquery g vs).subquery? g = some vs := by
  simp [setSubquery, subquery?]

theorem subquery?_setSubquery_of_ne (b : Bindings) {g h : GroupId} (hne : h ≠ g) (vs : List Value) :
    (b.setSubquery g vs).subquery? h = b.subquery? h := by
  have hne' : (h == g) = false := by simpa using hne
  simp only [setSubquery, subquery?, List.lookup_cons, hne', clearSubquery]
  induction b.subqueries with
  | nil => rfl
  | cons entry rest ih =>
    obtain ⟨k, ws⟩ := entry
    by_cases hk : k = g
    · subst hk
      simp [List.lookup_cons, hne', ih]
    · have hk' : (k != g) = true := by simpa using hk
      rw [List.filter_cons]
      simp only [hk', if_true, List.lookup_cons, ih]

/-- Whether late-bound values have the same slots and the same results of some sub-queries. -/
structure AgreeOn (sees : Groups) (b b' : Bindings) : Prop where
  slots : b.slots = b'.slots
  results : ∀ g, sees g → b.subquery? g = b'.subquery? g

variable {sees : Groups} {b b' : Bindings}

namespace AgreeOn

theorem of_eq (h : b = b') : AgreeOn sees b b' := h ▸ ⟨rfl, fun _ _ => rfl⟩

theorem symm (h : AgreeOn sees b b') : AgreeOn sees b' b :=
  ⟨h.slots.symm, fun g hg => (h.results g hg).symm⟩

theorem trans {b'' : Bindings} (h : AgreeOn sees b b') (h' : AgreeOn sees b' b'') :
    AgreeOn sees b b'' :=
  ⟨h.slots.trans h'.slots, fun g hg => (h.results g hg).trans (h'.results g hg)⟩

theorem literal_eq (h : AgreeOn sees b b') (slot : Nat) : b.literal slot = b'.literal slot := by
  rw [literal, literal, h.slots]

theorem subquery_eq (h : AgreeOn sees b b') {g : GroupId} (hg : sees g) :
    b.subquery g = b'.subquery g := by
  rw [subquery, subquery, h.results g hg]

theorem setSubquery (h : AgreeOn sees b b') (g : GroupId) (vs : List Value) :
    AgreeOn sees (b.setSubquery g vs) (b'.setSubquery g vs) where
  slots := h.slots
  results k hk := by
    by_cases hkg : k = g
    · rw [hkg, subquery?_setSubquery_self, subquery?_setSubquery_self]
    · rw [subquery?_setSubquery_of_ne _ hkg, subquery?_setSubquery_of_ne _ hkg, h.results k hk]

theorem append (h : AgreeOn sees b b') (g : GroupId) (v : Value) :
    AgreeOn sees (b.append g v) (b'.append g v) where
  slots := h.slots
  results k hk := by
    by_cases hkg : k = g
    · subst hkg
      rw [Bindings.append, Bindings.append, subquery?_setSubquery_self, subquery?_setSubquery_self,
        h.results k hk]
    · exact (subquery?_setSubquery_of_ne b hkg _).trans
        ((h.results k hk).trans (subquery?_setSubquery_of_ne b' hkg _).symm)

mutual

theorem resolve_eq (h : AgreeOn sees b b') (tuple : Option Tuple) :
    ∀ {a : Binding}, (∀ g ∈ a.groups, sees g) → b.resolve tuple a = b'.resolve tuple a
  | .literal slot _, _ => by rw [resolve, resolve, h.literal_eq]
  | .column _, _ => by rw [resolve, resolve]
  | .call _ arguments, ha => by
    have harguments : b.resolveEach tuple arguments = b'.resolveEach tuple arguments :=
      resolveEach_eq h tuple ha
    rw [resolve, resolve, harguments]
  | .subquery g _, ha => by
    rw [resolve, resolve, h.subquery_eq (ha g (List.mem_singleton_self g))]

theorem resolveEach_eq (h : AgreeOn sees b b') (tuple : Option Tuple) :
    ∀ {as : List Binding}, (∀ g ∈ Binding.groupsOfAll as, sees g) →
      b.resolveEach tuple as = b'.resolveEach tuple as
  | [], _ => rfl
  | a :: rest, has => by
    have ha : b.resolve tuple a = b'.resolve tuple a :=
      resolve_eq h tuple fun g hg => has g (List.mem_append_left _ hg)
    have hrest : b.resolveEach tuple rest = b'.resolveEach tuple rest :=
      resolveEach_eq h tuple fun g hg => has g (List.mem_append_right _ hg)
    rw [resolveEach, resolveEach, ha, hrest]

end

theorem resolveAll_eq (h : AgreeOn sees b b') (tuple : Option Tuple) {a : Binding}
    (ha : ∀ g ∈ a.groups, sees g) : b.resolveAll tuple a = b'.resolveAll tuple a := by
  cases a with
  | subquery g c =>
    rw [resolveAll, resolveAll, h.subquery_eq (ha g (List.mem_singleton_self g))]
  | literal slot type => exact congrArg (Except.map fun v => [v]) (h.resolve_eq tuple ha)
  | column c => exact congrArg (Except.map fun v => [v]) (h.resolve_eq tuple ha)
  | call f arguments => exact congrArg (Except.map fun v => [v]) (h.resolve_eq tuple ha)

theorem isAmong_eq (h : AgreeOn sees b b') (t : Tuple) (v : Value) {list : List Binding}
    (hlist : ∀ a ∈ list, ∀ g ∈ a.groups, sees g) :
    Comparison.isAmong b t v list = Comparison.isAmong b' t v list := by
  induction list with
  | nil => rfl
  | cons a rest ih =>
    obtain ⟨ha, hrest⟩ := List.forall_mem_cons.1 hlist
    rw [Comparison.isAmong, Comparison.isAmong, h.resolveAll_eq _ ha, ih hrest]

theorem comparison_eq (h : AgreeOn sees b b') (t : Tuple) {c : Comparison}
    (hc : ∀ a ∈ c.bindings, ∀ g ∈ a.groups, sees g) : c.holds b t = c.holds b' t := by
  have hresolve (a : Binding) (ha : a ∈ c.bindings) :
      b.resolve (some t) a = b'.resolve (some t) a := h.resolve_eq _ (hc a ha)
  cases c with
  | relation r left right =>
    have hleft := hresolve left List.mem_cons_self
    have hright := hresolve right (by simp [Comparison.bindings])
    simp only [Comparison.holds, hleft, hright]
  | between value lower upper =>
    have hvalue := hresolve value List.mem_cons_self
    have hlower := hresolve lower (by simp [Comparison.bindings])
    have hupper := hresolve upper (by simp [Comparison.bindings])
    simp only [Comparison.holds, hvalue, hlower, hupper]
  | oneOf value list =>
    have hvalue := hresolve value List.mem_cons_self
    have hlist := fun v => h.isAmong_eq t v fun a ha => hc a (List.mem_cons_of_mem _ ha)
    simp only [Comparison.holds, hvalue, hlist]
  | isNull value =>
    have hvalue := hresolve value List.mem_cons_self
    simp only [Comparison.holds, hvalue]
  | like value pattern =>
    have hvalue := hresolve value List.mem_cons_self
    have hpattern := hresolve pattern (by simp [Comparison.bindings])
    simp only [Comparison.holds, hvalue, hpattern]

theorem holds_eq (h : AgreeOn sees b b') (t : Tuple) {p : Predicate}
    (hp : ∀ a ∈ p.bindings, ∀ g ∈ a.groups, sees g) : p.holds b t = p.holds b' t := by
  induction p with
  | literal value => rfl
  | atom c negated =>
    have hc : c.holds b t = c.holds b' t :=
      h.comparison_eq t fun a ha => hp a (List.mem_append_left _ ha)
    rw [Predicate.holds, Predicate.holds, hc]
  | both l r ihl ihr =>
    rw [Predicate.bindings, Predicate.atoms, List.flatMap_append, List.forall_mem_append] at hp
    rw [Predicate.holds, Predicate.holds, ihl hp.1, ihr hp.2]
  | either l r ihl ihr =>
    rw [Predicate.bindings, Predicate.atoms, List.flatMap_append, List.forall_mem_append] at hp
    rw [Predicate.holds, Predicate.holds, ihl hp.1, ihr hp.2]

end AgreeOn

end Bindings

/-- What an index can look up is a column that equals a literal or is in a list of literals. -/
theorem Predicate.lookups?_cases {c : Column} {p : Predicate} {list : List Binding}
    (h : p.lookups? c = some list) : list.all Binding.isLiteral = true ∧
      ((∃ v, list = [v] ∧ p = .atom (.relation .equal (.column c) v) false) ∨
        p = .atom (.oneOf (.column c) list) false) := by
  unfold lookups? at h
  split at h
  · split at h
    · rename_i hc
      cases h
      exact ⟨by simp [hc.2], .inl ⟨_, rfl, by rw [hc.1]⟩⟩
    · cases h
  · split at h
    · rename_i hc
      cases h
      exact ⟨hc.2, .inr (by rw [hc.1])⟩
    · cases h
  · cases h

theorem HashIndex.filter_agreeOn {sees : Groups} {b b' : Bindings} (h : b.AgreeOn sees b')
    (x : HashIndex) (p : Predicate) : x.filter p b = x.filter p b' := by
  have hkeys : x.keys p b = x.keys p b' := by
    unfold keys
    cases hfound : p.lookups? x.column with
    | none => rfl
    | some found =>
      refine h.resolveEach_eq none ?_
      rw [Binding.groupsOfAll_eq]
      intro g hg
      obtain ⟨a, ha, hg⟩ := List.mem_flatMap.1 hg
      have hliteral := List.all_eq_true.1 (Predicate.lookups?_cases hfound).1 a ha
      cases a with
      | literal slot type => cases hg
      | _ => cases hliteral
  rw [filter, filter, hkeys]

end QueryEngine
