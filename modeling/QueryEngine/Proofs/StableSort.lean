import Mathlib.Data.List.Forall2
import Mathlib.Data.List.Basic

/-!
# Stable sorts

A stable sort of a list is in order and has the elements of every class of equals as the list has
them. There is one such list, so that all ways of sorting that are stable come to the same: at once,
by insertion, and by merging sorted runs.
-/

set_option autoImplicit false

namespace QueryEngine

open Std

variable {α : Type} {cmp : α → α → Ordering}

/-- The elements that are equal to one, in order. -/
def equals (cmp : α → α → Ordering) (a : α) (l : List α) : List α :=
  l.filter fun b => cmp a b = .eq

theorem mem_equals {a b : α} {l : List α} : b ∈ equals cmp a l ↔ b ∈ l ∧ cmp a b = .eq := by
  simp [equals]

theorem equals_append (a : α) (l l' : List α) :
    equals cmp a (l ++ l') = equals cmp a l ++ equals cmp a l' := List.filter_append ..

theorem equals_cons (a b : α) (l : List α) :
    equals cmp a (b :: l) = if cmp a b = .eq then b :: equals cmp a l else equals cmp a l := by
  simp [equals, List.filter_cons]

theorem equals_flatten (a : α) (ls : List (List α)) :
    equals cmp a ls.flatten = (ls.map (equals cmp a)).flatten := List.filter_flatten

theorem equals_eq_nil {a : α} {l : List α} (h : ∀ b ∈ l, cmp a b ≠ .eq) : equals cmp a l = [] := by
  simpa [equals, List.filter_eq_nil_iff] using h

/-- Whether a list is the stable sort of another one. -/
structure StableSort (cmp : α → α → Ordering) (l s : List α) : Prop where
  ascending : s.Pairwise fun a b => (cmp a b).isLE
  equals : ∀ a, equals cmp a s = equals cmp a l

/-- Puts an element behind those that it is not less than. -/
def insertBehind (cmp : α → α → Ordering) (a : α) : List α → List α
  | [] => [a]
  | b :: rest => if cmp a b = .lt then a :: b :: rest else b :: insertBehind cmp a rest

theorem mem_insertBehind {a b : α} {s : List α} : b ∈ insertBehind cmp a s ↔ b = a ∨ b ∈ s := by
  induction s with
  | nil => simp [insertBehind]
  | cons c rest ih =>
    rw [insertBehind]
    split
    · simp
    · rw [List.mem_cons, ih, List.mem_cons]
      tauto

theorem length_insertBehind (a : α) (s : List α) : (insertBehind cmp a s).length = s.length + 1 := by
  induction s with
  | nil => rfl
  | cons b rest ih =>
    rw [insertBehind]
    split
    · rfl
    · rw [List.length_cons, ih, List.length_cons]

/-- The first elements after an insertion depend on the first elements before. -/
theorem take_insertBehind (a : α) (n : Nat) (s : List α) :
    (insertBehind cmp a s).take n = (insertBehind cmp a (s.take n)).take n := by
  induction s generalizing n with
  | nil => cases n <;> rfl
  | cons b rest ih =>
    cases n with
    | zero => rfl
    | succ n =>
      simp only [insertBehind, List.take_succ_cons]
      split
      · cases n with
        | zero => rfl
        | succ n => simp [List.take_take]
      · simp only [List.take_succ_cons]
        rw [ih]

/-- An element that is less than the last one comes before it. -/
theorem insertBehind_append {a b : α} (h : cmp a b = .lt) (s : List α) :
    insertBehind cmp a (s ++ [b]) = insertBehind cmp a s ++ [b] := by
  induction s with
  | nil => simp [insertBehind, h]
  | cons c rest ih =>
    simp only [List.cons_append, insertBehind]
    split
    · rfl
    · rw [ih]
      rfl

/-- An element that is not less than any comes last. -/
theorem insertBehind_eq_append {a : α} {s : List α} (h : ∀ b ∈ s, cmp a b ≠ .lt) :
    insertBehind cmp a s = s ++ [a] := by
  induction s with
  | nil => rfl
  | cons b rest ih =>
    rw [insertBehind, if_neg (h b List.mem_cons_self),
      ih fun c hc => h c (List.mem_cons_of_mem _ hc)]
    rfl

/-- Puts elements behind those that they are not less than, one after another. -/
def insertAll (cmp : α → α → Ordering) (l s : List α) : List α :=
  l.foldl (fun s a => insertBehind cmp a s) s

/-- The first elements after insertions depend on the first elements before. -/
theorem take_insertAll (l : List α) (n : Nat) (s : List α) :
    (insertAll cmp l s).take n = (insertAll cmp l (s.take n)).take n := by
  induction l generalizing s with
  | nil => rw [insertAll, insertAll, List.foldl_nil, List.foldl_nil, List.take_take, Nat.min_self]
  | cons a l ih =>
    have hlater := ih (insertBehind cmp a s)
    have hlater' := ih (insertBehind cmp a (s.take n))
    rw [← take_insertBehind] at hlater'
    exact hlater.trans hlater'.symm

namespace StableSort

variable {l l' s s' : List α}

theorem nil : StableSort cmp [] [] := ⟨.nil, fun _ => rfl⟩

/-- Sorting runs first makes no difference. -/
theorem of_runs {chunks runs : List (List α)} (hruns : List.Forall₂ (StableSort cmp) chunks runs)
    (h : StableSort cmp runs.flatten s) : StableSort cmp chunks.flatten s := by
  refine ⟨h.ascending, fun a => ?_⟩
  rw [h.equals, equals_flatten, equals_flatten]
  clear h
  induction hruns with
  | nil => rfl
  | cons hrun _ ih =>
    rw [List.map_cons, List.map_cons, List.flatten_cons, List.flatten_cons, ih, hrun.equals]

theorem pairwise_of_mem_runs {chunks runs : List (List α)}
    (hruns : List.Forall₂ (StableSort cmp) chunks runs) :
    ∀ run ∈ runs, run.Pairwise fun a b => (cmp a b).isLE := by
  induction hruns with
  | nil => simp
  | cons hrun _ ih => exact List.forall_mem_cons.2 ⟨hrun.ascending, ih⟩

variable [TransCmp cmp]

theorem mem_iff (h : StableSort cmp l s) {a : α} : a ∈ s ↔ a ∈ l := by
  have hself : cmp a a = .eq := ReflCmp.compare_self
  have hmem (l : List α) : a ∈ QueryEngine.equals cmp a l ↔ a ∈ l := by
    rw [mem_equals, hself]
    exact and_iff_left rfl
  rw [← hmem s, h.equals, hmem]

theorem mem_chunks {chunks runs : List (List α)} (hruns : List.Forall₂ (StableSort cmp) chunks runs)
    {a : α} (ha : a ∈ runs.flatten) : a ∈ chunks.flatten := by
  induction hruns with
  | nil => exact ha
  | cons hrun _ ih =>
    rw [List.flatten_cons, List.mem_append] at ha ⊢
    exact ha.imp hrun.mem_iff.1 ih

/-- There is one stable sort of a list. -/
theorem unique (h : StableSort cmp l s) (h' : StableSort cmp l s') : s = s' := by
  induction s generalizing l s' with
  | nil =>
    cases s' with
    | nil => rfl
    | cons b rest => exact absurd (h.mem_iff.2 (h'.mem_iff.1 List.mem_cons_self)) List.not_mem_nil
  | cons a rest ih =>
    cases s' with
    | nil => exact absurd (h'.mem_iff.2 (h.mem_iff.1 List.mem_cons_self)) List.not_mem_nil
    | cons b rest' =>
      have hself {x : α} : cmp x x = .eq := ReflCmp.compare_self
      have least {x y : α} {s : List α} (hs : (x :: s).Pairwise fun a b => (cmp a b).isLE)
          (hy : y ∈ x :: s) : (cmp x y).isLE := by
        rcases List.mem_cons.1 hy with rfl | hy
        · rw [hself]
          rfl
        · exact (List.pairwise_cons.1 hs).1 y hy
      have hab := least h.ascending (h.mem_iff.2 (h'.mem_iff.1 List.mem_cons_self))
      have hba := least h'.ascending (h'.mem_iff.2 (h.mem_iff.1 List.mem_cons_self))
      have heq : cmp a b = .eq := OrientedCmp.isLE_antisymm hab hba
      have hclass := (h.equals a).trans (h'.equals a).symm
      rw [equals_cons, equals_cons, if_pos hself, if_pos heq] at hclass
      obtain ⟨rfl, -⟩ := List.cons.inj hclass
      apply congrArg (a :: ·)
      refine ih (l := rest) ⟨(List.pairwise_cons.1 h.ascending).2, fun x => rfl⟩
        ⟨(List.pairwise_cons.1 h'.ascending).2, fun x => ?_⟩
      have hx := (h'.equals x).trans (h.equals x).symm
      rw [equals_cons, equals_cons] at hx
      split at hx
      · exact (List.cons.inj hx).2
      · exact hx

theorem mergeSort (l : List α) : StableSort cmp l (l.mergeSort fun a b => (cmp a b).isLE) := by
  have htrans (a b c : α) (hab : (cmp a b).isLE) (hbc : (cmp b c).isLE) : (cmp a c).isLE :=
    TransCmp.isLE_trans hab hbc
  have htotal (a b : α) : ((cmp a b).isLE || (cmp b a).isLE) = true := by
    have hswap : cmp b a = (cmp a b).swap := OrientedCmp.eq_swap
    rw [hswap]
    cases cmp a b <;> rfl
  refine ⟨List.pairwise_mergeSort htrans htotal l, fun a => ?_⟩
  have hclass : (QueryEngine.equals cmp a l).Pairwise fun a b => (cmp a b).isLE = true := by
    refine List.pairwise_of_forall_mem_list fun b hb c hc => ?_
    have hab := (mem_equals.1 hb).2
    have hac := (mem_equals.1 hc).2
    rw [TransCmp.eq_trans (OrientedCmp.eq_symm hab) hac]
    rfl
  have hsub := List.sublist_mergeSort htrans htotal hclass List.filter_sublist
  have hsub' := hsub.filter fun b => cmp a b = .eq
  rw [QueryEngine.equals, List.filter_filter] at hsub'
  simp only [Bool.and_self] at hsub'
  refine (hsub'.eq_of_length ?_).symm
  exact ((List.mergeSort_perm l _).symm.filter _).length_eq

theorem perm (h : StableSort cmp l s) : s.Perm l := by
  rw [h.unique (mergeSort l)]
  exact List.mergeSort_perm l _

theorem length_eq (h : StableSort cmp l s) : s.length = l.length := h.perm.length_eq

/-- Sorts of the same elements, given in two orders, are equal place by place. -/
theorem forall₂_eq (h : StableSort cmp l s) (h' : StableSort cmp l' s') (hl : l.Perm l') :
    List.Forall₂ (fun a b => cmp a b = .eq) s s' := by
  have hself {x : α} : cmp x x = .eq := ReflCmp.compare_self
  have hcount (a : α) : (QueryEngine.equals cmp a s).length = (QueryEngine.equals cmp a s').length := by
    rw [h.equals, h'.equals]
    exact (hl.filter _).length_eq
  have hs := h.ascending
  have hs' := h'.ascending
  clear h h' hl
  induction s generalizing s' with
  | nil =>
    cases s' with
    | nil => exact .nil
    | cons b rest' =>
      have hb := hcount b
      rw [equals_cons, if_pos hself] at hb
      cases hb
  | cons a rest ih =>
    cases s' with
    | nil =>
      have ha := hcount a
      rw [equals_cons, if_pos hself] at ha
      cases ha
    | cons b rest' =>
      -- Each of the two first elements has an equal in the other sort, before which nothing less is.
      have hleast {x y : α} {s s' : List α} (hs : (x :: s).Pairwise fun a b => (cmp a b).isLE)
          (hcount : (QueryEngine.equals cmp y (x :: s)).length =
            (QueryEngine.equals cmp y (y :: s')).length) : (cmp x y).isLE := by
        have hpos : 0 < (QueryEngine.equals cmp y (x :: s)).length := by
          rw [hcount, equals_cons, if_pos hself]
          exact Nat.succ_pos _
        obtain ⟨z, hz⟩ := List.exists_mem_of_length_pos hpos
        obtain ⟨hz, hyz⟩ := mem_equals.1 hz
        rw [TransCmp.congr_right hyz]
        rcases List.mem_cons.1 hz with rfl | hz
        · rw [hself]
          rfl
        · exact (List.pairwise_cons.1 hs).1 z hz
      have hab : (cmp a b).isLE := hleast hs (hcount b)
      have hba : (cmp b a).isLE := hleast hs' (hcount a).symm
      have heq : cmp a b = .eq := OrientedCmp.isLE_antisymm hab hba
      refine .cons heq (ih (fun x => ?_) (List.pairwise_cons.1 hs).2 (List.pairwise_cons.1 hs').2)
      have hx := hcount x
      rw [equals_cons, equals_cons, TransCmp.congr_right heq] at hx
      split at hx
      · exact Nat.succ.inj hx
      · exact hx

/-! ## By insertion -/

theorem pairwise_insertBehind {s : List α} (hs : s.Pairwise fun a b => (cmp a b).isLE) (a : α) :
    (insertBehind cmp a s).Pairwise fun a b => (cmp a b).isLE := by
  induction s with
  | nil => exact List.pairwise_singleton _ _
  | cons b rest ih =>
    obtain ⟨hb, hrest⟩ := List.pairwise_cons.1 hs
    rw [insertBehind]
    split
    · rename_i hlt
      refine List.pairwise_cons.2 ⟨fun c hc => ?_, hs⟩
      rcases List.mem_cons.1 hc with rfl | hc
      · rw [hlt]
        rfl
      · rw [TransCmp.lt_of_lt_of_isLE hlt (hb c hc)]
        rfl
    · rename_i hlt
      refine List.pairwise_cons.2 ⟨fun c hc => ?_, ih hrest⟩
      rcases mem_insertBehind.1 hc with rfl | hc
      · have hswap : cmp b c = (cmp c b).swap := OrientedCmp.eq_swap
        rw [hswap]
        revert hlt
        cases cmp c b <;> simp
      · exact hb c hc

theorem insert (h : StableSort cmp l s) (a : α) :
    StableSort cmp (l ++ [a]) (insertBehind cmp a s) := by
  refine ⟨pairwise_insertBehind h.ascending a, fun x => ?_⟩
  rw [equals_append, ← h.equals x]
  have hs := h.ascending
  clear h
  induction s with
  | nil => rfl
  | cons b rest ih =>
    obtain ⟨hb, hrest⟩ := List.pairwise_cons.1 hs
    rw [insertBehind]
    split
    · rename_i hlt
      rw [equals_cons]
      by_cases hx : cmp x a = .eq
      · -- Nothing behind the new element is equal to it.
        have hnone : QueryEngine.equals cmp x (b :: rest) = [] := by
          refine equals_eq_nil fun c hc hxc => ?_
          have hac : cmp a c = .lt := by
            rcases List.mem_cons.1 hc with rfl | hc
            · exact hlt
            · exact TransCmp.lt_of_lt_of_isLE hlt (hb c hc)
          rw [← TransCmp.congr_left hx, hxc] at hac
          cases hac
        rw [if_pos hx, hnone, List.nil_append, equals_cons, if_pos hx]
        rfl
      · rw [if_neg hx, equals_cons x a, if_neg hx]
        exact (List.append_nil _).symm
    · rw [equals_cons, equals_cons, ih hrest]
      split <;> rfl

theorem insertAll (h : StableSort cmp l s) (l' : List α) :
    StableSort cmp (l ++ l') (QueryEngine.insertAll cmp l' s) := by
  induction l' generalizing l s with
  | nil => rwa [List.append_nil]
  | cons a l' ih =>
    rw [List.append_cons]
    exact ih (h.insert a)

/-- Without more room, an insertion drives out the last element or changes nothing. -/
theorem take_insertBehind_append {a b : α} {s : List α}
    (hs : (s ++ [b]).Pairwise fun a b => (cmp a b).isLE) :
    (insertBehind cmp a (s ++ [b])).take (s.length + 1) =
      if cmp a b = .lt then insertBehind cmp a s else s ++ [b] := by
  split
  · rename_i hlt
    have hlength : (insertBehind cmp a s).length = s.length + 1 := length_insertBehind a s
    rw [insertBehind_append hlt, ← hlength, List.take_left]
  · rename_i hlt
    -- What is not less than the last one is not less than any.
    have hnone : ∀ c ∈ s ++ [b], cmp a c ≠ .lt := by
      intro c hc hac
      rcases List.mem_append.1 hc with hc | hc
      · have hcb := (List.pairwise_append.1 hs).2.2 c hc b (List.mem_singleton.2 rfl)
        exact hlt (TransCmp.lt_of_lt_of_isLE hac hcb)
      · exact hlt (List.mem_singleton.1 hc ▸ hac)
    have hlength : s.length + 1 = (s ++ [b]).length := by simp
    rw [insertBehind_eq_append hnone, hlength, List.take_left]


/-! ## By merging runs -/

/-- Of sorted runs, the least first element comes first; of equals the one of the first run. -/
theorem next {runs : List (List α)} {i : Nat} {a : α} {rest : List α}
    (hrun : runs[i]? = some (a :: rest)) (hleast : ∀ run ∈ runs, ∀ b ∈ run, (cmp a b).isLE)
    (hfirst : ∀ j < i, ∀ run, runs[j]? = some run → ∀ b ∈ run, cmp a b = .lt)
    (h : StableSort cmp (runs.set i rest).flatten s) : StableSort cmp runs.flatten (a :: s) := by
  obtain ⟨hi, hget⟩ := List.getElem?_eq_some_iff.1 hrun
  have hsplit : runs = runs.take i ++ (a :: rest) :: runs.drop (i + 1) := by
    rw [← hget, ← List.drop_eq_getElem_cons hi, List.take_append_drop]
  have hset : runs.set i rest = runs.take i ++ rest :: runs.drop (i + 1) :=
    List.set_eq_take_append_cons_drop.trans (if_pos hi)
  have hflat : runs.flatten = (runs.take i).flatten ++ a :: (rest ++ (runs.drop (i + 1)).flatten) := by
    conv_lhs => rw [hsplit]
    simp
  have hflat' : (runs.set i rest).flatten =
      (runs.take i).flatten ++ (rest ++ (runs.drop (i + 1)).flatten) := by
    rw [hset]
    simp
  constructor
  · refine List.pairwise_cons.2 ⟨fun b hb => ?_, h.ascending⟩
    have hmem := h.mem_iff.1 hb
    have hmem' : b ∈ runs.flatten := by
      rw [hflat'] at hmem
      rw [hflat]
      simp only [List.mem_append, List.mem_cons] at hmem ⊢
      tauto
    obtain ⟨run, hrun, hb⟩ := List.mem_flatten.1 hmem'
    exact hleast run hrun b hb
  · intro x
    rw [equals_cons, h.equals, hflat, hflat', equals_append, equals_append x _ (a :: _), equals_cons]
    split
    · rename_i hx
      -- Earlier runs have nothing that is equal to the element.
      have hnone : QueryEngine.equals cmp x (runs.take i).flatten = [] := by
        refine equals_eq_nil fun b hb hxb => ?_
        obtain ⟨run, hrun, hb⟩ := List.mem_flatten.1 hb
        obtain ⟨j, hj, hget⟩ := List.mem_iff_getElem.1 hrun
        rw [List.length_take] at hj
        have hjrun : runs[j]? = some run := by
          rw [List.getElem?_eq_some_iff]
          exact ⟨by omega, by rw [← hget, List.getElem_take]⟩
        have hlt := hfirst j (by omega) run hjrun b hb
        rw [← TransCmp.congr_left hx, hxb] at hlt
        cases hlt
      rw [hnone]
      rfl
    · rfl

/-! ## The first elements -/

/-- An element that is not less than `n` others leaves the first `n` as they are. -/
theorem take_insertBehind_of_le {a : α} {n : Nat} {s : List α}
    (hs : s.Pairwise fun a b => (cmp a b).isLE) (hn : n ≤ s.countP fun b => cmp a b ≠ .lt) :
    (insertBehind cmp a s).take n = s.take n := by
  induction s generalizing n with
  | nil => rw [Nat.le_zero.1 hn, List.take_zero, List.take_zero]
  | cons b rest ih =>
    obtain ⟨hb, hrest⟩ := List.pairwise_cons.1 hs
    cases n with
    | zero => rfl
    | succ n =>
      rw [insertBehind]
      split
      · rename_i hlt
        have hnone : (b :: rest).countP (fun b => cmp a b ≠ .lt) = 0 := by
          rw [List.countP_eq_zero]
          intro c hc
          have hac : cmp a c = .lt := by
            rcases List.mem_cons.1 hc with rfl | hc
            · exact hlt
            · exact TransCmp.lt_of_lt_of_isLE hlt (hb c hc)
          simp [hac]
        omega
      · rename_i hnot
        rw [List.countP_cons_of_pos (by simpa using hnot)] at hn
        rw [List.take_succ_cons, List.take_succ_cons, ih hrest (Nat.le_of_succ_le_succ hn)]

theorem take_insertAll_of_le {n : Nat} {l' : List α} (h : StableSort cmp l s)
    (hn : ∀ a ∈ l', n ≤ l.countP fun b => cmp a b ≠ .lt) :
    (QueryEngine.insertAll cmp l' s).take n = s.take n := by
  induction l' generalizing l s with
  | nil => rfl
  | cons a l' ih =>
    obtain ⟨ha, hl'⟩ := List.forall_mem_cons.1 hn
    have hfirst : (insertBehind cmp a s).take n = s.take n :=
      take_insertBehind_of_le h.ascending (by rwa [h.perm.countP_eq])
    refine (ih (h.insert a) fun b hb => ?_).trans hfirst
    rw [List.countP_append]
    exact Nat.le_add_right_of_le (hl' b hb)

/-- Of a sorted run only the first `n` elements can be among the first `n`. -/
theorem take_insertAll_take {n : Nat} {run : List α}
    (hrun : run.Pairwise fun a b => (cmp a b).isLE) (h : StableSort cmp l s) :
    (QueryEngine.insertAll cmp run s).take n = (QueryEngine.insertAll cmp (run.take n) s).take n := by
  have hsplit : QueryEngine.insertAll cmp run s =
      QueryEngine.insertAll cmp (run.drop n) (QueryEngine.insertAll cmp (run.take n) s) := by
    rw [QueryEngine.insertAll, QueryEngine.insertAll, QueryEngine.insertAll, ← List.foldl_append,
      List.take_append_drop]
  rw [hsplit]
  refine take_insertAll_of_le (h.insertAll _) fun d hd => ?_
  have hlong : n < run.length := by
    have hpos := List.length_pos_of_mem hd
    rw [List.length_drop] at hpos
    omega
  have hall : (run.take n).countP (fun b => cmp d b ≠ .lt) = n := by
    have hle : ∀ b ∈ run.take n, (cmp b d).isLE := by
      rw [← run.take_append_drop n] at hrun
      exact fun b hb => (List.pairwise_append.1 hrun).2.2 b hb d hd
    rw [List.countP_eq_length.2, List.length_take_of_le (Nat.le_of_lt hlong)]
    intro b hb
    have hbd := hle b hb
    have hswap : cmp b d = (cmp d b).swap := OrientedCmp.eq_swap
    rw [hswap] at hbd
    revert hbd
    cases cmp d b <;> simp
  rw [List.countP_append, hall]
  exact Nat.le_add_left _ _

/-- The first elements of all sorted runs are among the first elements of each. -/
theorem take_runs {n : Nat} {runs : List (List α)}
    (hruns : ∀ run ∈ runs, run.Pairwise fun a b => (cmp a b).isLE)
    (h : StableSort cmp runs.flatten s) (h' : StableSort cmp (runs.map (·.take n)).flatten s') :
    s'.take n = s.take n := by
  suffices hfrom : ∀ {l l' t t'}, StableSort cmp l t → StableSort cmp l' t' →
      t'.take n = t.take n → StableSort cmp (l ++ runs.flatten) s →
      StableSort cmp (l' ++ (runs.map (·.take n)).flatten) s' → s'.take n = s.take n from
    hfrom .nil .nil rfl h h'
  clear h h'
  induction runs with
  | nil =>
    intro l l' t t' ht ht' htake h h'
    rw [List.flatten_nil, List.append_nil] at h
    rw [List.map_nil, List.flatten_nil, List.append_nil] at h'
    rwa [h.unique ht, h'.unique ht']
  | cons run runs ih =>
    intro l l' t t' ht ht' htake h h'
    obtain ⟨hrun, hruns⟩ := List.forall_mem_cons.1 hruns
    rw [List.flatten_cons, ← List.append_assoc] at h
    rw [List.map_cons, List.flatten_cons, ← List.append_assoc] at h'
    refine ih hruns (ht.insertAll run) (ht'.insertAll (run.take n)) ?_ h h'
    rw [take_insertAll_take hrun ht, QueryEngine.take_insertAll, htake, ← QueryEngine.take_insertAll]

end StableSort

end QueryEngine
