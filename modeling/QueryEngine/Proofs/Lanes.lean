import Mathlib.Algebra.BigOperators.Group.List.Basic
import Mathlib.Algebra.Order.Field.Rat
import Mathlib.Data.Rat.Sqrt
import QueryEngine.Function.Distance

/-!
# Kernels of distances

Where sums are exact, it does not matter in which order they are taken. Running sums then form a
commutative monoid, and both kernels come to the sum of what the pairs of components contribute: in
the wide kernel the sum of all lanes grows by one chunk at a time, whatever lane a pair falls to.
-/

set_option autoImplicit false

namespace QueryEngine

/-- Numbers whose sums are exact. -/
class ExactScalar (α : Type) [Scalar α] : Prop where
  add_assoc (a b c : α) : a + b + c = a + (b + c)
  add_comm (a b : α) : a + b = b + a
  zero_add (a : α) : Scalar.zero + a = a

/-! ## Chunks -/

section

variable {α β : Type}

theorem chunksOfEight_flatten (xs : List α) :
    (chunksOfEight xs).1.flatten ++ (chunksOfEight xs).2 = xs := by
  fun_induction chunksOfEight xs with
  | case1 a b c d e f g h rest cut ih =>
    show [a, b, c, d, e, f, g, h] ++ cut.1.flatten ++ cut.2 = _
    rw [List.append_assoc, ih]
    rfl
  | case2 => rfl

theorem length_of_mem_chunksOfEight {xs c : List α} (h : c ∈ (chunksOfEight xs).1) :
    c.length = 8 := by
  fun_induction chunksOfEight xs with
  | case1 _ _ _ _ _ _ _ _ rest cut ih =>
    rcases List.mem_cons.1 h with rfl | hc
    · rfl
    · exact ih hc
  | case2 => cases h

theorem length_rest_chunksOfEight_lt (xs : List α) : (chunksOfEight xs).2.length < 8 := by
  fun_induction chunksOfEight xs with
  | case1 _ _ _ _ _ _ _ _ rest cut ih => exact ih
  | case2 xs hshort =>
    by_contra hlong
    match xs, hshort, hlong with
    | a :: b :: c :: d :: e :: f :: g :: h :: rest, hshort, _ =>
      exact hshort a b c d e f g h rest rfl
    | [], _, hlong | [_], _, hlong | [_, _], _, hlong | [_, _, _], _, hlong
    | [_, _, _, _], _, hlong | [_, _, _, _, _], _, hlong | [_, _, _, _, _, _], _, hlong
    | [_, _, _, _, _, _, _], _, hlong =>
      exact hlong (by simp)

theorem length_chunksOfEight (xs : List α) :
    xs.length = 8 * (chunksOfEight xs).1.length + (chunksOfEight xs).2.length := by
  fun_induction chunksOfEight xs with
  | case1 _ _ _ _ _ _ _ _ rest cut ih =>
    simp only [List.length_cons, cut]
    omega
  | case2 => simp

/-- Lists of one length are cut into as many chunks, and as much is left of them. -/
theorem chunksOfEight_alike {xs : List α} {ys : List β} (h : xs.length = ys.length) :
    (chunksOfEight xs).1.length = (chunksOfEight ys).1.length ∧
      (chunksOfEight xs).2.length = (chunksOfEight ys).2.length := by
  have hxs := length_chunksOfEight xs
  have hys := length_chunksOfEight ys
  have hx := length_rest_chunksOfEight_lt xs
  have hy := length_rest_chunksOfEight_lt ys
  omega

theorem zip_flatten {n : Nat} {cs : List (List α)} {ds : List (List β)}
    (h : cs.length = ds.length) (hcs : ∀ c ∈ cs, c.length = n) (hds : ∀ d ∈ ds, d.length = n) :
    cs.flatten.zip ds.flatten = (cs.zip ds).flatMap fun p => p.1.zip p.2 := by
  induction cs generalizing ds with
  | nil => rfl
  | cons c cs ih =>
    cases ds with
    | nil => cases h
    | cons d ds =>
      obtain ⟨hc, hcs⟩ := List.forall_mem_cons.1 hcs
      obtain ⟨hd, hds⟩ := List.forall_mem_cons.1 hds
      rw [List.flatten_cons, List.flatten_cons, List.zip_append (hc.trans hd.symm),
        List.zip_cons_cons, List.flatMap_cons, ih (Nat.succ.inj h) hcs hds]

/-- The chunks and what is left hold every pair of components once, in order. -/
theorem zip_chunksOfEight {xs : List α} {ys : List β} (h : xs.length = ys.length) :
    ((chunksOfEight xs).1.zip (chunksOfEight ys).1).flatMap (fun p => p.1.zip p.2) ++
      (chunksOfEight xs).2.zip (chunksOfEight ys).2 = xs.zip ys := by
  have halike := (chunksOfEight_alike h).1
  have hx := @length_of_mem_chunksOfEight α xs
  have hy := @length_of_mem_chunksOfEight β ys
  have hflat : (chunksOfEight xs).1.flatten.length = (chunksOfEight ys).1.flatten.length := by
    rw [List.length_flatten, List.length_flatten, List.map_congr_left fun c hc => hx hc,
      List.map_congr_left fun d hd => hy hd, List.map_const', List.map_const', halike]
  conv_rhs => rw [← chunksOfEight_flatten xs, ← chunksOfEight_flatten ys]
  rw [List.zip_append hflat, zip_flatten halike (fun _ => hx) (fun _ => hy)]

end

/-! ## Running sums -/

namespace Accumulators

variable {α : Type} [Scalar α]

/-- What one pair of components contributes. -/
def term (kind : DistanceKind) (x y : α) : Accumulators α :=
  match kind with
  | .manhattan => ⟨Scalar.abs (x - y), Scalar.zero, Scalar.zero⟩
  | .euclidean | .squaredEuclidean => ⟨(x - y) * (x - y), Scalar.zero, Scalar.zero⟩
  | .innerProduct => ⟨x * y, Scalar.zero, Scalar.zero⟩
  | .cosine => ⟨x * y, x * x, y * y⟩

instance : Add (Accumulators α) := ⟨add⟩

instance : Zero (Accumulators α) := ⟨zero⟩

variable [ExactScalar α]

instance : AddCommMonoid (Accumulators α) where
  add_assoc a b c := by
    show add (add a b) c = add a (add b c)
    simp only [add, ExactScalar.add_assoc]
  zero_add a := by
    show add zero a = a
    simp only [add, zero, ExactScalar.zero_add]
  add_zero a := by
    show add a zero = a
    simp only [add, zero, ExactScalar.add_comm _ Scalar.zero, ExactScalar.zero_add]
  add_comm a b := by
    show add a b = add b a
    simp only [add, ExactScalar.add_comm b.first, ExactScalar.add_comm b.second,
      ExactScalar.add_comm b.third]
  nsmul := nsmulRec

variable (kind : DistanceKind)

/-- What pairs of components contribute together. -/
def total (pairs : List (α × α)) : Accumulators α := (pairs.map fun p => term kind p.1 p.2).sum

theorem total_append (pairs others : List (α × α)) :
    total kind (pairs ++ others) = total kind pairs + total kind others := by
  rw [total, List.map_append, List.sum_append, total, total]

theorem step_eq (a : Accumulators α) (p : α × α) : step kind a p = a + term kind p.1 p.2 := by
  have hzero (x : α) : x + Scalar.zero = x := by
    rw [ExactScalar.add_comm, ExactScalar.zero_add]
  show step kind a p = add a (term kind p.1 p.2)
  cases kind <;> simp only [step, add, term, hzero]

theorem foldl_step (a : Accumulators α) (pairs : List (α × α)) :
    pairs.foldl (step kind) a = a + total kind pairs := by
  induction pairs generalizing a with
  | nil => exact (add_zero a).symm
  | cons p pairs ih => rw [List.foldl_cons, ih, step_eq, add_assoc, total, total, List.map_cons,
      List.sum_cons]

theorem narrow_eq (xs ys : List α) : narrow kind xs ys = total kind (xs.zip ys) :=
  (foldl_step kind zero _).trans (zero_add _)

/-! ## Lanes -/

/-- One step of every lane: it does not matter to which lane a pair goes. -/
theorem sum_zipWith_step {lanes : List (Accumulators α)} {pairs : List (α × α)}
    (h : lanes.length = pairs.length) :
    (List.zipWith (step kind) lanes pairs).sum = lanes.sum + total kind pairs := by
  induction lanes generalizing pairs with
  | nil =>
    cases List.length_eq_zero_iff.1 h.symm
    exact (add_zero _).symm
  | cons a lanes ih =>
    cases pairs with
    | nil => cases h
    | cons p pairs =>
      rw [List.zipWith_cons_cons, List.sum_cons, ih (Nat.succ.inj h), step_eq, List.sum_cons,
        add_add_add_comm, total, total, List.map_cons, List.sum_cons]

/-- The lanes stay as many as they are, and together they hold what all chunks contribute. -/
theorem foldl_stepLanes {chunks : List (List α × List α)} {lanes : List (Accumulators α)}
    (h : ∀ c ∈ chunks, (c.1.zip c.2).length = lanes.length) :
    (chunks.foldl (stepLanes kind) lanes).sum =
      lanes.sum + total kind (chunks.flatMap fun c => c.1.zip c.2) := by
  induction chunks generalizing lanes with
  | nil => exact (add_zero _).symm
  | cons c chunks ih =>
    obtain ⟨hc, hchunks⟩ := List.forall_mem_cons.1 h
    have hlength : (stepLanes kind lanes c).length = lanes.length := by
      rw [stepLanes, List.length_zipWith, hc, Nat.min_self]
    rw [List.foldl_cons, ih (hlength ▸ hchunks), stepLanes, sum_zipWith_step kind hc.symm,
      List.flatMap_cons, total_append, add_assoc]

theorem wide_eq {xs ys : List α} (h : xs.length = ys.length) :
    wide kind xs ys = total kind (xs.zip ys) := by
  have hchunks : ∀ c ∈ (chunksOfEight xs).1.zip (chunksOfEight ys).1,
      (c.1.zip c.2).length = (List.replicate 8 (zero : Accumulators α)).length := by
    intro c hc
    obtain ⟨hx, hy⟩ := List.of_mem_zip hc
    rw [List.length_zip, length_of_mem_chunksOfEight hx, length_of_mem_chunksOfEight hy]
    rfl
  have hstart : (List.replicate 8 (zero : Accumulators α)).sum = 0 := by
    rw [List.sum_replicate]
    exact nsmul_zero 8
  have hlanes (lanes : List (Accumulators α)) : lanes.foldl add zero = lanes.sum :=
    List.sum_eq_foldl.symm
  rw [wide, foldl_step, hlanes, foldl_stepLanes kind hchunks, hstart, zero_add, ← total_append,
    zip_chunksOfEight h]

end Accumulators

/-! ## Distances -/

namespace DistanceKind

theorem checked_eq {α : Type} [RootScalar α] [ExactScalar α] (kind : DistanceKind) (wide : Bool)
    {xs ys : List α} (h : xs.length = ys.length) :
    kind.checked wide xs ys = .ok (kind.finish (Accumulators.total kind (xs.zip ys))) := by
  rw [checked, if_pos h, distance]
  cases wide with
  | false => rw [if_neg Bool.false_ne_true, Accumulators.narrow_eq]
  | true => rw [if_pos rfl, Accumulators.wide_eq kind h]

end DistanceKind

instance : Scalar ℚ where
  zero := 0
  abs x := |x|

instance : ExactScalar ℚ where
  add_assoc := add_assoc
  add_comm := add_comm
  zero_add := zero_add

/-- Exact arithmetic, with any reading of the square root. -/
@[reducible] def RootScalar.exact (root : ℚ → ℚ) : RootScalar ℚ where
  one := 1
  sqrt := root
  isZero x := x = 0

namespace DistanceKind

open Accumulators in
/-- On exact numbers both kernels come to the same sums, in which every pair of components counts
once, and so to the same distance. -/
theorem exact_kernels_agree (kind : DistanceKind) {xs ys : List ℚ} (h : xs.length = ys.length) :
    wide kind xs ys = narrow kind xs ys ∧
    narrow kind xs ys = (List.zipWith (term kind) xs ys).sum ∧
    ∀ root : ℚ → ℚ, letI := RootScalar.exact root
      ∃ d, d = kind.finish (narrow kind xs ys) ∧
        kind.checked false xs ys = .ok d ∧ kind.checked true xs ys = .ok d := by
  have hnarrow := narrow_eq kind xs ys
  have hsum : total kind (xs.zip ys) = (List.zipWith (term kind) xs ys).sum := by
    rw [total, List.zip, List.map_zipWith]
  refine ⟨(wide_eq kind h).trans hnarrow.symm, hnarrow.trans hsum, ?_⟩
  intro root
  let _ := RootScalar.exact root
  refine ⟨kind.finish (total kind (xs.zip ys)), ?_, checked_eq kind false h, checked_eq kind true h⟩
  exact congrArg kind.finish hnarrow.symm

open Accumulators in
/-- Nine components: one for every lane, and one that is left. -/
theorem exact_kernels_agree_nine :
    let xs : List ℚ := [1, 1, 1, 1, 1, 1, 1, 1, 1]
    let ys : List ℚ := [2, 2, 2, 2, 2, 2, 2, 2, -2]
    let _ := RootScalar.exact Rat.sqrt
    xs.length = ys.length ∧ wide .cosine xs ys = ⟨14, 9, 36⟩ ∧ narrow .cosine xs ys = ⟨14, 9, 36⟩ ∧
      cosine.checked false xs ys = .ok (2 / 9) ∧ cosine.checked true xs ys = .ok (2 / 9) := by
  intro xs ys _
  have hlength : xs.length = ys.length := rfl
  obtain ⟨hwide, hnarrow, hchecked⟩ := exact_kernels_agree cosine hlength
  have hsum : (List.zipWith (term cosine) xs ys).sum = ⟨14, 9, 36⟩ := by decide +kernel
  obtain ⟨d, hd, hnarrowly, hwidely⟩ := hchecked Rat.sqrt
  have hd : d = 2 / 9 := hd.trans (by decide +kernel)
  rw [hd] at hnarrowly hwidely
  exact ⟨hlength, hwide.trans (hnarrow.trans hsum), hnarrow.trans hsum, hnarrowly, hwidely⟩

end DistanceKind

end QueryEngine
