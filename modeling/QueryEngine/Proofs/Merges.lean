import QueryEngine.Proofs.KeyOrder

/-!
# Merging sorted runs

A merge holds the next tuple of every run that is not used up, in order, and emits the least of them.
What it emits is the stable sort of all runs one after another.
-/

set_option autoImplicit false

namespace QueryEngine

open Std

/-- Whether a stream gives a list of tuples and then its end, in whatever states it is pulled, and
leaves these as they are. -/
def TupleStream.Lists : List Tuple → TupleStream → Prop
  | [], t => ∀ s, ∃ rest, t.pull s = .finished s rest
  | u :: us, t => ∀ s, ∃ rest, t.pull s = .row u s rest ∧ Lists us rest

namespace TupleStream.Lists

variable {us : List Tuple} {t t' : TupleStream}

theorem ofList (us : List Tuple) : Lists us (TupleStream.ofList us) := by
  induction us with
  | nil => exact fun s => ⟨_, rfl⟩
  | cons u us ih => exact fun s => ⟨_, rfl, ih⟩

/-- Streams that give the same list cannot be told apart. -/
theorem sim {B : Bond} {P : Tuple → Prop} (h : t.Lists us) (h' : t'.Lists us)
    (hP : ∀ u ∈ us, P u) : t.Sim B P t' := by
  induction us generalizing t t' with
  | nil =>
    refine sim_iff.2 fun s s' hs => ?_
    obtain ⟨rest, hr⟩ := h s
    obtain ⟨rest', hr'⟩ := h' s'
    rw [hr, hr']
    exact .finished hs
  | cons u us ih =>
    refine sim_iff.2 fun s s' hs => ?_
    obtain ⟨rest, hr, hrest⟩ := h s
    obtain ⟨rest', hr', hrest'⟩ := h' s'
    rw [hr, hr']
    exact .row (hP u List.mem_cons_self) hs
      (ih hrest hrest' fun v hv => hP v (List.mem_cons_of_mem _ hv))

theorem of_pull (h : ∀ s, ∃ t' : TupleStream, t'.Lists us ∧ t.pull s = t'.pull s) :
    t.Lists us := by
  cases us with
  | nil =>
    intro s
    obtain ⟨t', ht', he⟩ := h s
    exact he ▸ ht' s
  | cons u us =>
    intro s
    obtain ⟨t', ht', he⟩ := h s
    exact he ▸ ht' s

/-- A limit drops the first tuples and takes some of the further ones. -/
theorem limit (h : t.Lists us) (bounds : RowLimit) :
    (t.limit bounds).Lists ((us.drop bounds.skip.toNat).take bounds.limit.toNat) := by
  unfold TupleStream.limit
  generalize bounds.skip.toNat = skip, bounds.limit.toNat = room
  induction us generalizing t skip room with
  | nil =>
    rw [List.drop_nil, List.take_nil]
    intro s
    obtain ⟨rest, hr⟩ := h s
    rw [pull_transduce rfl, hr]
    split
    · exact ⟨_, rfl⟩
    · exact ⟨_, rfl⟩
  | cons u us ih =>
    cases skip with
    | zero =>
      cases room with
      | zero =>
        intro s
        rw [pull_transduce rfl]
        exact ⟨_, rfl⟩
      | succ room =>
        intro s
        obtain ⟨rest, hr, hrest⟩ := h s
        rw [pull_transduce rfl, hr]
        exact ⟨_, rfl, ih hrest 0 room⟩
    | succ skip =>
      refine of_pull fun s => ?_
      obtain ⟨rest, hr, hrest⟩ := h s
      refine ⟨_, ih hrest skip room, ?_⟩
      rw [pull_transduce rfl, hr]
      rfl

end TupleStream.Lists

namespace StreamBundle

/-- The order of next tuples: by their keys, and of equals by the number of the stream. -/
def compareHeads (order : SortOrder) : Nat × Tuple → Nat × Tuple → Ordering :=
  compareLex (fun x y => order.compareKeys x.2 y.2) (compareOn Prod.fst)

instance (order : SortOrder) : TransCmp (compareHeads order) := by
  have hkeys : TransCmp fun x y : Nat × Tuple => order.compareKeys x.2 y.2 :=
    { eq_swap := @fun x y => @OrientedCmp.eq_swap _ order.compareKeys _ x.2 y.2
      isLE_trans := @fun x y z => @TransCmp.isLE_trans _ order.compareKeys _ x.2 y.2 z.2 }
  exact inferInstanceAs (TransCmp (compareLex _ _))

theorem addHead_eq {order : SortOrder} {i : Nat} {u : Tuple} {heads : Heads}
    (h : ∀ x ∈ heads, order.compareTuples u x.2 = .ok (order.compareKeys u x.2)) :
    addHead order i u heads = .ok (insertBehind (compareHeads order) (i, u) heads) := by
  induction heads with
  | nil => rfl
  | cons x rest ih =>
    obtain ⟨j, v⟩ := x
    rw [addHead, h (j, v) List.mem_cons_self, ih fun x hx => h x (List.mem_cons_of_mem _ hx),
      insertBehind]
    have hhead : compareHeads order (i, u) (j, v) = (order.compareKeys u v).then (compare i j) := rfl
    simp only [bind, Except.bind, pure, Except.pure, hhead]
    rcases hc : order.compareKeys u v with _ | _ | _
    · rfl
    · by_cases hij : i < j
      · simp [hij, Nat.compare_eq_lt.2 hij]
      · have hne : compare i j ≠ .lt := fun he => hij (Nat.compare_eq_lt.1 he)
        simp [hij, hne]
    · rfl

theorem addHead_ok {order : SortOrder} {i : Nat} {u : Tuple} {heads : Heads}
    (h : ∀ x ∈ heads, ∃ o, order.compareTuples u x.2 = .ok o) :
    ∃ found, addHead order i u heads = .ok found := by
  induction heads with
  | nil => exact ⟨_, rfl⟩
  | cons x rest ih =>
    obtain ⟨j, v⟩ := x
    obtain ⟨o, ho⟩ := h (j, v) List.mem_cons_self
    obtain ⟨found, hfound⟩ := ih fun x hx => h x (List.mem_cons_of_mem _ hx)
    simp only [addHead, ho, hfound, bind, Except.bind, pure, Except.pure]
    cases o with
    | lt => exact ⟨_, rfl⟩
    | gt => exact ⟨_, rfl⟩
    | eq =>
      by_cases hij : i < j
      · exact ⟨_, by rw [if_pos hij]⟩
      · exact ⟨_, by rw [if_neg hij]⟩

theorem perm_flatten_set {runs : List (List Tuple)} {i : Nat} {u : Tuple} {rest : List Tuple}
    (hrun : runs[i]? = some (u :: rest)) : (u :: (runs.set i rest).flatten).Perm runs.flatten := by
  obtain ⟨hi, hget⟩ := List.getElem?_eq_some_iff.1 hrun
  have hsplit : runs = runs.take i ++ (u :: rest) :: runs.drop (i + 1) := by
    rw [← hget, ← List.drop_eq_getElem_cons hi, List.take_append_drop]
  have hset : runs.set i rest = runs.take i ++ rest :: runs.drop (i + 1) :=
    List.set_eq_take_append_cons_drop.trans (if_pos hi)
  have hflat : runs.flatten = (runs.take i).flatten ++ u :: (rest ++ (runs.drop (i + 1)).flatten) := by
    conv_lhs => rw [hsplit]
    simp
  rw [hflat, hset, List.flatten_append, List.flatten_cons]
  exact List.perm_middle.symm

/-- A bundle in the middle of a merge: `runs` is what is left to be emitted, by streams, and the
first tuple of each has been pulled already. -/
structure Loaded (runs : List (List Tuple)) (places : List (Option TupleStream)) (heads : Heads) :
    Prop where
  nodup : (heads.map (·.1)).Nodup
  mem_heads : ∀ i u, (i, u) ∈ heads ↔ ∃ rest, runs[i]? = some (u :: rest)
  place : ∀ (i : Nat) u rest, runs[i]? = some (u :: rest) →
    places[i]? = some (some (.ofList rest))

namespace Loaded

variable {runs : List (List Tuple)} {places : List (Option TupleStream)} {heads : Heads} {i : Nat}
  {u : Tuple} {rest : List Tuple}

theorem flatten_eq_nil (h : Loaded runs places []) : runs.flatten = [] := by
  rw [List.flatten_eq_nil_iff]
  intro run hrun
  obtain ⟨i, hi⟩ := List.mem_iff_getElem?.1 hrun
  cases run with
  | nil => rfl
  | cons u rest => exact absurd ((h.mem_heads i u).2 ⟨rest, hi⟩) List.not_mem_nil

/-- What is left once the first of the next tuples has been emitted. -/
theorem advance (h : Loaded runs places ((i, u) :: heads)) (hrun : runs[i]? = some (u :: rest))
    {place : Option TupleStream} {found : Heads}
    (hfound : found.Perm (rest.head?.toList.map (i, ·) ++ heads))
    (hplace : ∀ v later, rest = v :: later → place = some (.ofList later)) :
    Loaded (runs.set i rest) (places.set i place) found := by
  obtain ⟨hi, hget⟩ := List.getElem?_eq_some_iff.1 hrun
  obtain ⟨hnot, hnodup⟩ := List.nodup_cons.1 h.nodup
  have hplaced : i < places.length := (List.getElem?_eq_some_iff.1 (h.place i u rest hrun)).1
  have hother {j : Nat} {w : Tuple} (hw : (j, w) ∈ heads) : j ≠ i := by
    rintro rfl
    exact hnot (List.mem_map_of_mem (f := (·.1)) hw)
  refine ⟨?_, fun j w => ?_, fun j w later hr => ?_⟩
  · rw [(hfound.map _).nodup_iff, List.map_append]
    cases rest with
    | nil => exact hnodup
    | cons v later => exact List.nodup_cons.2 ⟨hnot, hnodup⟩
  · rw [hfound.mem_iff, List.mem_append]
    by_cases hj : j = i
    · subst hj
      rw [List.getElem?_set_self hi]
      constructor
      · rintro (hw | hw)
        · cases rest with
          | nil => cases hw
          | cons v later =>
            simp only [List.head?_cons, Option.toList_some, List.map_cons, List.map_nil,
              List.mem_singleton, Prod.mk.injEq, true_and] at hw
            exact ⟨later, by rw [hw]⟩
        · exact absurd rfl (hother hw)
      · rintro ⟨later, he⟩
        obtain rfl := Option.some.inj he
        exact .inl (by simp)
    · rw [List.getElem?_set_ne (Ne.symm hj), ← h.mem_heads j w, List.mem_cons]
      have hne : (j, w) ≠ (i, u) := fun he => hj (Prod.mk.inj he).1
      constructor
      · rintro (hw | hw)
        · obtain ⟨_, _, he⟩ := List.mem_map.1 hw
          exact absurd (Prod.mk.inj he).1.symm hj
        · exact .inr hw
      · rintro (he | hw)
        · exact absurd he hne
        · exact .inr hw
  · by_cases hj : j = i
    · subst hj
      rw [List.getElem?_set_self hi] at hr
      rw [List.getElem?_set_self hplaced, hplace w later (Option.some.inj hr)]
    · rw [List.getElem?_set_ne (Ne.symm hj)] at hr ⊢
      exact h.place j w later hr

/-- Whatever the order, a merge emits all that is left. -/
theorem lists_perm {order : SortOrder} {us : List Tuple}
    (hcompare : ∀ u ∈ us, ∀ v ∈ us, ∃ o, order.compareTuples u v = .ok o)
    (h : Loaded runs places heads) (hruns : ∀ run ∈ runs, ∀ u ∈ run, u ∈ us) :
    ∃ out, ((ofPlaces places).merged order heads).Lists out ∧ out.Perm runs.flatten := by
  induction hn : runs.flatten.length generalizing runs places heads with
  | zero =>
    cases heads with
    | nil => exact ⟨[], fun s => ⟨_, pull_merged_nil order _ s⟩, h.flatten_eq_nil ▸ .refl _⟩
    | cons x heads =>
      obtain ⟨rest, hrun⟩ := (h.mem_heads x.1 x.2).1 List.mem_cons_self
      have hmem : x.2 ∈ runs.flatten :=
        List.mem_flatten.2 ⟨_, List.mem_of_getElem? hrun, List.mem_cons_self⟩
      exact absurd (List.length_pos_of_mem hmem) (by omega)
  | succ n ih =>
    cases heads with
    | nil =>
      rw [h.flatten_eq_nil] at hn
      cases hn
    | cons x heads =>
      obtain ⟨i, u⟩ := x
      obtain ⟨rest, hrun⟩ := (h.mem_heads i u).1 List.mem_cons_self
      have hperm := perm_flatten_set hrun
      have hlength : (runs.set i rest).flatten.length = n := by
        have hlength := hperm.length_eq
        rw [List.length_cons] at hlength
        omega
      have hlater : ∀ run ∈ runs.set i rest, ∀ u ∈ run, u ∈ us := by
        intro run hr v hv
        rcases List.mem_or_eq_of_mem_set hr with hr | rfl
        · exact hruns run hr v hv
        · exact hruns _ (List.mem_of_getElem? hrun) v (List.mem_cons_of_mem _ hv)
      have hpull (s : RunState) : (ofPlaces places).pull i s =
          answer places i (.ofList rest) ((TupleStream.ofList rest).pull s) := by
        rw [pull_ofPlaces, h.place i u rest hrun]
      cases rest with
      | nil =>
        have hnext : Loaded (runs.set i []) (places.set i none) heads :=
          h.advance hrun (.refl _) fun v later he => by cases he
        obtain ⟨out, hout, hperm'⟩ := ih hnext hlater hlength
        refine ⟨u :: out, fun s => ?_, (hperm'.cons u).trans hperm⟩
        rw [pull_merged_cons, hpull]
        exact ⟨_, rfl, hout⟩
      | cons v later =>
        have hheads : ∀ x ∈ heads, ∃ o, order.compareTuples v x.2 = .ok o := fun x hx => by
          obtain ⟨r, hr⟩ := (h.mem_heads x.1 x.2).1 (List.mem_cons_of_mem _ hx)
          exact hcompare v (hruns _ (List.mem_of_getElem? hrun) v (by simp)) x.2
            (hruns _ (List.mem_of_getElem? hr) x.2 List.mem_cons_self)
        obtain ⟨found, hadd⟩ := addHead_ok hheads
        have hnext : Loaded (runs.set i (v :: later)) (places.set i (some (.ofList later))) found :=
          h.advance hrun (addHead_perm hadd) fun w after he => by
            cases he
            rfl
        obtain ⟨out, hout, hperm'⟩ := ih hnext hlater hlength
        refine ⟨u :: out, fun s => ?_, (hperm'.cons u).trans hperm⟩
        rw [pull_merged_cons, hpull]
        simp only [TupleStream.pull_ofList_cons, answer, BundleReply.mergedAfter, hadd]
        exact ⟨_, rfl, hout⟩

end Loaded

/-- A merge of sorted runs that has come to some place in order. -/
structure Merging (order : SortOrder) (cs : List Column) (runs : List (List Tuple))
    (places : List (Option TupleStream)) (heads : Heads) : Prop extends Loaded runs places heads where
  sortable : order.Sortable cs runs.flatten
  sorted : ∀ run ∈ runs, run.Pairwise fun u v => (order.compareKeys u v).isLE
  ascending : heads.Pairwise fun x y => (compareHeads order x y).isLE

namespace Merging

variable {order : SortOrder} {cs : List Column} {runs : List (List Tuple)}
  {places : List (Option TupleStream)} {heads : Heads} {i : Nat} {u : Tuple} {rest : List Tuple}

/-- The first of the next tuples comes before all that is left. -/
theorem least (h : Merging order cs runs places ((i, u) :: heads)) {j : Nat} {run : List Tuple}
    (hrun : runs[j]? = some run) {v : Tuple} (hv : v ∈ run) :
    (order.compareKeys u v).isLE ∧ (j < i → order.compareKeys u v = .lt) := by
  cases run with
  | nil => cases hv
  | cons w rest =>
    have hmem := (h.mem_heads j w).2 ⟨rest, hrun⟩
    have hwv : (order.compareKeys w v).isLE := by
      rcases List.mem_cons.1 hv with rfl | hv
      · have hself : order.compareKeys v v = .eq := ReflCmp.compare_self
        rw [hself]
        rfl
      · exact (List.pairwise_cons.1 (h.sorted _ (List.mem_of_getElem? hrun))).1 v hv
    rcases List.mem_cons.1 hmem with he | hmem
    · obtain ⟨rfl, rfl⟩ := Prod.mk.inj he
      exact ⟨hwv, fun hlt => absurd hlt (Nat.lt_irrefl _)⟩
    · have hle := (List.pairwise_cons.1 h.ascending).1 (j, w) hmem
      simp only [compareHeads, compareLex, compareOn, Ordering.isLE_then_iff_or] at hle
      rcases hle with hlt | ⟨heq, hij⟩
      · have huv := TransCmp.lt_of_lt_of_isLE hlt hwv
        exact ⟨by rw [huv]; rfl, fun _ => huv⟩
      · refine ⟨?_, fun hlt => ?_⟩
        · rw [TransCmp.congr_left heq]
          exact hwv
        · exact absurd (Nat.isLE_compare.1 hij) (Nat.not_le.2 hlt)

theorem advance (h : Merging order cs runs places ((i, u) :: heads))
    (hrun : runs[i]? = some (u :: rest)) {place : Option TupleStream} {found : Heads}
    (hascending : found.Pairwise fun x y => (compareHeads order x y).isLE)
    (hfound : found.Perm (rest.head?.toList.map (i, ·) ++ heads))
    (hplace : ∀ v later, rest = v :: later → place = some (.ofList later)) :
    Merging order cs (runs.set i rest) (places.set i place) found := by
  have hmemRun : u :: rest ∈ runs := List.mem_of_getElem? hrun
  refine ⟨h.toLoaded.advance hrun hfound hplace, h.sortable.mono fun v hv => ?_, fun run hr => ?_,
    hascending⟩
  · obtain ⟨run, hr, hvrun⟩ := List.mem_flatten.1 hv
    rcases List.mem_or_eq_of_mem_set hr with hr | he
    · exact List.mem_flatten.2 ⟨run, hr, hvrun⟩
    · exact List.mem_flatten.2 ⟨_, hmemRun, List.mem_cons_of_mem _ (he ▸ hvrun)⟩
  · rcases List.mem_or_eq_of_mem_set hr with hr | rfl
    · exact h.sorted run hr
    · exact (List.pairwise_cons.1 (h.sorted _ hmemRun)).2

/-- A merge emits the stable sort of what is left. -/
theorem lists (b : StreamBundle) : ∀ {runs places heads out}, b = ofPlaces places →
    Merging order cs runs places heads → StableSort order.compareKeys runs.flatten out →
    (b.merged order heads).Lists out := by
  induction b using StreamBundle.induct with
  | step b ihRow ihEnd =>
    intro runs places heads out hb h hout
    cases heads with
    | nil =>
      rw [h.flatten_eq_nil] at hout
      rw [hout.unique .nil]
      exact fun s => ⟨_, pull_merged_nil order b s⟩
    | cons x heads =>
      obtain ⟨i, u⟩ := x
      obtain ⟨rest, hrun⟩ := (h.mem_heads i u).1 List.mem_cons_self
      have hplace := h.place i u rest hrun
      have hlater : StableSort order.compareKeys (runs.set i rest).flatten _ := .mergeSort _
      have hnext := StableSort.next hrun
        (fun run hr v hv => by
          obtain ⟨j, hj⟩ := List.mem_iff_getElem?.1 hr
          exact (h.least hj hv).1)
        (fun j hj run hr v hv => (h.least hr hv).2 hj) hlater
      rw [hout.unique hnext]
      intro s
      rw [pull_merged_cons]
      have hpull : b.pull i s = answer places i (.ofList rest) ((TupleStream.ofList rest).pull s) := by
        rw [hb, pull_ofPlaces, hplace]
      have rests := ihRow i s
      have ends := ihEnd i s
      rw [hpull] at rests ends ⊢
      cases rest with
      | nil =>
        refine ⟨_, rfl, ends _ _ rfl rfl ?_ hlater⟩
        refine h.advance hrun (List.pairwise_cons.1 h.ascending).2 (.refl _) ?_
        intro v later he
        cases he
      | cons v later =>
        have hsortable := h.sortable
        have hmem : ∀ w ∈ u :: v :: later, w ∈ runs.flatten :=
          fun w hw => List.mem_flatten.2 ⟨_, List.mem_of_getElem? hrun, hw⟩
        have hadd : addHead order i v heads = .ok (insertBehind (compareHeads order) (i, v) heads) := by
          refine addHead_eq fun x hx => hsortable.comparable.compare_eq (hmem v (by simp)) ?_
          obtain ⟨r, hr⟩ := (h.mem_heads x.1 x.2).1 (List.mem_cons_of_mem _ hx)
          exact List.mem_flatten.2 ⟨_, List.mem_of_getElem? hr, List.mem_cons_self⟩
        simp only [TupleStream.pull_ofList_cons, answer, BundleReply.mergedAfter, hadd]
        refine ⟨_, rfl, rests v s _ rfl rfl ?_ hlater⟩
        refine h.advance hrun ?_ (addHead_perm hadd) ?_
        · exact StableSort.pairwise_insertBehind (List.pairwise_cons.1 h.ascending).2 _
        · intro w after he
          cases he
          rfl

end Merging

/-- Pulling every run once finds the first tuple of each that has one. What holds of next tuples is
kept if adding one of the tuples `us` keeps it. -/
theorem firstTuples_eq {order : SortOrder} {us : List Tuple} {K : Heads → Prop}
    (hadd : ∀ i u heads, u ∈ us → (∀ x ∈ heads, x.2 ∈ us) → K heads →
      ∃ found, addHead order i u heads = .ok found ∧ K found)
    (s : RunState) (runs : List (List Tuple)) :
    ∀ {i : Nat} {heads : Heads}, (∀ x ∈ heads, x.2 ∈ us) → (∀ run ∈ runs, ∀ u ∈ run, u ∈ us) →
      K heads → (heads.map (·.1)).Nodup → (∀ x ∈ heads, x.1 < i) →
      ∃ found, TupleStream.firstTuples order i (runs.map .ofList) heads s =
          ⟨.ok found, runs.map fun run => .ofList run.tail, s⟩ ∧
        K found ∧ (found.map (·.1)).Nodup ∧
        ∀ j u, (j, u) ∈ found ↔
          (j, u) ∈ heads ∨ ∃ k rest, j = i + k ∧ runs[k]? = some (u :: rest) := by
  induction runs with
  | nil =>
    intro i heads _ _ hkept hnodup _
    exact ⟨heads, rfl, hkept, hnodup, fun j u => by simp⟩
  | cons run runs ih =>
    intro i heads hheads hruns hkept hnodup hlt
    have hlater : ∀ run ∈ runs, ∀ u ∈ run, u ∈ us :=
      fun run hrun => hruns run (List.mem_cons_of_mem _ hrun)
    cases run with
    | nil =>
      obtain ⟨found, hfound, hkept', hnd, hmem⟩ := ih (i := i + 1) hheads hlater hkept hnodup
        fun x hx => Nat.lt_succ_of_lt (hlt x hx)
      refine ⟨found, ?_, hkept', hnd, fun j u => ?_⟩
      · rw [List.map_cons, TupleStream.firstTuples, TupleStream.pull_ofList_nil]
        simp only [hfound]
        rfl
      · rw [hmem j u]
        refine or_congr_right ⟨?_, ?_⟩
        · rintro ⟨k, rest, rfl, hk⟩
          exact ⟨k + 1, rest, by omega, hk⟩
        · rintro ⟨k, rest, hj, hk⟩
          cases k with
          | zero => simp at hk
          | succ k => exact ⟨k, rest, by omega, hk⟩
    | cons v later =>
      have hv : v ∈ us := hruns _ List.mem_cons_self v List.mem_cons_self
      obtain ⟨next, hnext, hkept'⟩ := hadd i v heads hv hheads hkept
      have hperm := addHead_perm hnext
      have hnot : i ∉ heads.map (·.1) := by
        intro hi
        obtain ⟨x, hx, he⟩ := List.mem_map.1 hi
        exact absurd (hlt x hx) (he ▸ Nat.lt_irrefl _)
      have hmore : ∀ x ∈ next, x = (i, v) ∨ x ∈ heads :=
        fun x hx => List.mem_cons.1 (hperm.mem_iff.1 hx)
      have hnextMem : ∀ x ∈ next, x.2 ∈ us := by
        intro x hx
        rcases hmore x hx with rfl | hx
        · exact hv
        · exact hheads x hx
      obtain ⟨found, hfound, hkept'', hnd, hmem⟩ := ih (i := i + 1) hnextMem hlater hkept'
        ((hperm.map _).nodup_iff.2 (List.nodup_cons.2 ⟨hnot, hnodup⟩))
        (fun x hx => by
          rcases hmore x hx with rfl | hx
          · exact Nat.lt_succ_self i
          · exact Nat.lt_succ_of_lt (hlt x hx))
      refine ⟨found, ?_, hkept'', hnd, fun j u => ?_⟩
      · rw [List.map_cons, TupleStream.firstTuples, TupleStream.pull_ofList_cons]
        simp only [hnext, hfound]
        rfl
      · rw [hmem j u, hperm.mem_iff, List.mem_cons, or_assoc, or_left_comm]
        refine or_congr_right ⟨?_, ?_⟩
        · rintro (he | ⟨k, rest, rfl, hk⟩)
          · obtain ⟨rfl, rfl⟩ := Prod.mk.inj he
            exact ⟨0, later, rfl, rfl⟩
          · exact ⟨k + 1, rest, by omega, hk⟩
        · rintro ⟨k, rest, hj, hk⟩
          cases k with
          | zero =>
            obtain ⟨rfl, -⟩ := List.cons.inj (Option.some.inj hk)
            exact .inl (by rw [hj]; rfl)
          | succ k => exact .inr ⟨k, rest, by omega, hk⟩

/-- A merge of given runs starts with the first tuple of each. -/
theorem startMerge_loaded {order : SortOrder} {K : Heads → Prop} {runs : List (List Tuple)}
    (hadd : ∀ i u heads, u ∈ runs.flatten → (∀ x ∈ heads, x.2 ∈ runs.flatten) → K heads →
      ∃ found, addHead order i u heads = .ok found ∧ K found) (hnone : K []) (s : RunState) :
    ∃ places found, (TupleStream.startMerge order (runs.map .ofList) s).outcome =
        (.ok ((ofPlaces places).merged order found), s) ∧ K found ∧ Loaded runs places found := by
  obtain ⟨found, hfound, hkept, hnodup, hmem⟩ := firstTuples_eq hadd s runs (i := 0)
    (List.forall_mem_nil _) (fun run hrun u hu => List.mem_flatten.2 ⟨run, hrun, hu⟩) hnone
    List.nodup_nil (List.forall_mem_nil _)
  refine ⟨(runs.map fun run => TupleStream.ofList run.tail).map some, found, ?_, hkept, hnodup,
    fun i u => ?_, fun i u rest hrun => ?_⟩
  · rw [← ofList_eq_ofPlaces]
    simp only [TupleStream.startMerge, hfound]
    rfl
  · rw [hmem i u]
    constructor
    · rintro (h | ⟨k, rest, rfl, hk⟩)
      · cases h
      · exact ⟨rest, by rwa [Nat.zero_add]⟩
    · rintro ⟨rest, hi⟩
      exact .inr ⟨i, rest, (Nat.zero_add i).symm, hi⟩
  · simp [hrun]

end StreamBundle

/-- Merging runs gives all their tuples, also where the order is none. -/
theorem TupleStream.startMerge_perm {order : SortOrder} {runs : List (List Tuple)}
    (hcompare : ∀ u ∈ runs.flatten, ∀ v ∈ runs.flatten, ∃ o, order.compareTuples u v = .ok o)
    (s : RunState) :
    ∃ t out, (startMerge order (runs.map .ofList) s).outcome = (.ok t, s) ∧ t.Lists out ∧
      out.Perm runs.flatten := by
  have hadd (i : Nat) (u : Tuple) (heads : StreamBundle.Heads) (hu : u ∈ runs.flatten)
      (hheads : ∀ x ∈ heads, x.2 ∈ runs.flatten) (_ : True) :
      ∃ found, StreamBundle.addHead order i u heads = .ok found ∧ True := by
    obtain ⟨found, hfound⟩ :=
      StreamBundle.addHead_ok (i := i) fun x hx => hcompare u hu x.2 (hheads x hx)
    exact ⟨found, hfound, trivial⟩
  obtain ⟨places, found, hstart, _, hloaded⟩ := StreamBundle.startMerge_loaded hadd trivial s
  obtain ⟨out, hout, hperm⟩ :=
    hloaded.lists_perm hcompare fun run hrun u hu => List.mem_flatten.2 ⟨run, hrun, hu⟩
  exact ⟨_, out, hstart, hout, hperm⟩

/-- Merging sorted runs gives the stable sort of all of them. -/
theorem TupleStream.startMerge_lists {order : SortOrder} {cs : List Column} {runs : List (List Tuple)}
    {out : List Tuple} (hsortable : order.Sortable cs runs.flatten)
    (hsorted : ∀ run ∈ runs, run.Pairwise fun u v => (order.compareKeys u v).isLE)
    (hout : StableSort order.compareKeys runs.flatten out) (s : RunState) :
    ∃ t, (startMerge order (runs.map .ofList) s).outcome = (.ok t, s) ∧ t.Lists out := by
  have hadd (i : Nat) (u : Tuple) (heads : StreamBundle.Heads) (hu : u ∈ runs.flatten)
      (hheads : ∀ x ∈ heads, x.2 ∈ runs.flatten)
      (hascending : heads.Pairwise fun x y => (StreamBundle.compareHeads order x y).isLE) :
      ∃ found, StreamBundle.addHead order i u heads = .ok found ∧
        found.Pairwise fun x y => (StreamBundle.compareHeads order x y).isLE :=
    ⟨_, StreamBundle.addHead_eq fun x hx => hsortable.comparable.compare_eq hu (hheads x hx),
      StableSort.pairwise_insertBehind hascending _⟩
  obtain ⟨places, found, hstart, hascending, hloaded⟩ :=
    StreamBundle.startMerge_loaded hadd List.Pairwise.nil s
  have hmerging : StreamBundle.Merging order cs runs places found :=
    ⟨hloaded, hsortable, hsorted, hascending⟩
  exact ⟨_, hstart, hmerging.lists _ rfl hout⟩

end QueryEngine
