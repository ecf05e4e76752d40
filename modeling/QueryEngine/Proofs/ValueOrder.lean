import QueryEngine.Proofs.KeyOrder
import QueryEngine.Proofs.Rounding

/-!
# The order of values

Values of all kinds are compared in two stages: by their kinds and their numbers in double precision,
which is an order with ties, and then integers exactly. The second stage tears ties apart. Where
different integers are rounded to a number that stands among the values itself, this number ties with
both, and the comparison is not transitive. Wherever this does not happen it is an order with ties,
and so is the comparison of tuples by any keys.
-/

set_option autoImplicit false

namespace QueryEngine

open Std

/-! ## Orders with ties -/

/-- Whether a comparison orders the things with a property, up to ties. -/
structure OrdersOn {α : Type} (P : α → Prop) (cmp : α → α → Ordering) : Prop where
  refl : ∀ a, P a → cmp a a = .eq
  swap : ∀ a b, P a → P b → cmp b a = (cmp a b).swap
  trans : ∀ a b c, P a → P b → P c → cmp a b ≠ .gt → cmp b c ≠ .gt →
    cmp a c ≠ .gt ∧ (cmp a c = .eq → cmp a b = .eq ∧ cmp b c = .eq)

namespace OrdersOn

variable {α β : Type} {P : α → Prop} {Q : β → Prop} {cmp cmp' : α → α → Ordering}

theorem comap {f : β → α} (hf : ∀ b, Q b → P (f b)) (h : OrdersOn P cmp) :
    OrdersOn Q fun a b => cmp (f a) (f b) where
  refl a ha := h.refl (f a) (hf a ha)
  swap a b ha hb := h.swap (f a) (f b) (hf a ha) (hf b hb)
  trans a b c ha hb hc := h.trans (f a) (f b) (f c) (hf a ha) (hf b hb) (hf c hc)

theorem reverse (h : OrdersOn P cmp) : OrdersOn P fun a b => cmp b a where
  refl := h.refl
  swap a b ha hb := h.swap b a hb ha
  trans a b c ha hb hc hab hbc :=
    have ⟨hle, hties⟩ := h.trans c b a hc hb ha hbc hab
    ⟨hle, fun heq => (hties heq).symm⟩

/-- One comparison, and another one where it ties. -/
theorem lex (h : OrdersOn P cmp) (h' : OrdersOn P cmp') : OrdersOn P (compareLex cmp cmp') where
  refl a ha := by rw [compareLex, h.refl a ha, h'.refl a ha]; rfl
  swap a b ha hb := by
    rw [compareLex, compareLex, h.swap a b ha hb, h'.swap a b ha hb, Ordering.swap_then]
  trans a b c ha hb hc hab hbc := by
    have hfirst {x y : α} (hxy : compareLex cmp cmp' x y ≠ .gt) : cmp x y ≠ .gt := by
      intro hgt
      rw [compareLex, hgt] at hxy
      exact hxy rfl
    have hrest {x y : α} (heq : cmp x y = .eq) : compareLex cmp cmp' x y = cmp' x y := by
      rw [compareLex, heq]
      rfl
    obtain ⟨hle, hties⟩ := h.trans a b c ha hb hc (hfirst hab) (hfirst hbc)
    cases hac : cmp a c with
    | gt => exact absurd hac hle
    | lt =>
      rw [compareLex, hac]
      exact ⟨nofun, nofun⟩
    | eq =>
      obtain ⟨hab', hbc'⟩ := hties hac
      rw [hrest hab'] at hab ⊢
      rw [hrest hbc'] at hbc ⊢
      rw [hrest hac]
      exact h'.trans a b c ha hb hc hab hbc

end OrdersOn

/-! ## Values -/

namespace Value

/-- The kind of a value, the numbers in double precision being of one kind, and what is compared
within it. -/
def roughPlace : Value → Nat × List Int × String
  | null => (0, [], "")
  | bool b => (1, [(Binary.ofNat b.toNat : Binary64).rank], "")
  | long n => (1, [(Binary.ofInt n.toInt : Binary64).rank], "")
  | float x => (1, [x.widen.rank], "")
  | double x => (1, [x.rank], "")
  | text s => (2, [], s)
  | floatVector xs => (3, xs.map Binary.rank, "")
  | doubleVector xs => (4, xs.map Binary.rank, "")

def compareRough : Value → Value → Ordering :=
  compareLex (compareOn fun v => v.roughPlace.1)
    (compareLex (compareOn fun v => v.roughPlace.2.1) (compareOn fun v => v.roughPlace.2.2))

instance : TransCmp compareRough :=
  inferInstanceAs (TransCmp (compareLex (compareOn fun v : Value => v.roughPlace.1)
    (compareLex (compareOn fun v => v.roughPlace.2.1) (compareOn fun v => v.roughPlace.2.2))))

/-- Integers exactly; everything else ties. -/
def compareExact : Value → Value → Ordering
  | long m, long n => compare m.toInt n.toInt
  | _, _ => .eq

theorem compare_rank_then (m n : Int) :
    (compare (Binary.ofInt m : Binary64).rank (Binary.ofInt n : Binary64).rank).then (compare m n) =
      compare m n := by
  rcases Int.lt_trichotomy m n with h | rfl | h
  · have hle : (Binary.ofInt m : Binary64).rank ≤ (Binary.ofInt n : Binary64).rank :=
      Binary.rank_ofInt_le (Int.le_of_lt h)
    rw [Int.compare_eq_lt.2 h]
    rcases Int.lt_or_eq_of_le hle with hlt | heq
    · rw [Int.compare_eq_lt.2 hlt]
      rfl
    · rw [Int.compare_eq_eq.2 heq]
      rfl
  · rw [Int.compare_eq_eq.2 rfl, Int.compare_eq_eq.2 rfl]
    rfl
  · have hle : (Binary.ofInt n : Binary64).rank ≤ (Binary.ofInt m : Binary64).rank :=
      Binary.rank_ofInt_le (Int.le_of_lt h)
    rw [Int.compare_eq_gt.2 h]
    rcases Int.lt_or_eq_of_le hle with hlt | heq
    · rw [Int.compare_eq_gt.2 hlt]
      rfl
    · rw [Int.compare_eq_eq.2 heq.symm]
      rfl

theorem sortCompare_eq_then (a b : Value) :
    a.sortCompare b = (a.compareRough b).then (a.compareExact b) := by
  cases a <;> cases b
  case bool.bool x y => cases x <;> cases y <;> decide +kernel
  case long.long m n =>
    rw [sortCompare, compareExact]
    simp [compareRough, compareLex, compareOn, roughPlace, compare_rank_then]
  case floatVector.floatVector xs ys =>
    rw [sortCompare, compareLists_rank]
    simp [compareRough, compareExact, compareLex, compareOn, roughPlace]
  case doubleVector.doubleVector xs ys =>
    rw [sortCompare, compareLists_rank]
    simp [compareRough, compareExact, compareLex, compareOn, roughPlace]
  all_goals simp [sortCompare, compareRough, compareExact, compareLex, compareOn, roughPlace, number?,
    kindRank, Binary.totalCompare]
  all_goals rfl

theorem sortCompare_swap (a b : Value) : b.sortCompare a = (a.sortCompare b).swap := by
  have hrough : b.compareRough a = (a.compareRough b).swap := OrientedCmp.eq_swap
  have hexact : b.compareExact a = (a.compareExact b).swap := by
    cases a <;> cases b <;> first | rfl | exact (Int.compare_swap _ _).symm
  rw [sortCompare_eq_then, sortCompare_eq_then a b, hrough, hexact, Ordering.swap_then]

theorem sortCompare_self (a : Value) : a.sortCompare a = .eq := by
  have hswap := a.sortCompare_swap a
  cases h : a.sortCompare a <;> simp_all

/-! ### Ties -/

/-- Whether two different integers are rounded to a number that is among the values itself. -/
def Torn (P : Value → Prop) : Prop :=
  ∃ (m n : Int64) (x : Value), m ≠ n ∧ P (long m) ∧ P (long n) ∧ P x ∧ (∀ k, x ≠ long k) ∧
    x.number? = some (.ofInt m.toInt) ∧ x.number? = some (.ofInt n.toInt)

section

variable {P : Value → Prop} {a b x : Value} {m n : Int64}

theorem number?_of_compareRough (h : x.compareRough (long m) = .eq) :
    x.number? = some (.ofInt m.toInt) := by
  have hplace : x.roughPlace = (long m).roughPlace := eq_of_compareLex h
  cases x <;> simp_all [roughPlace, number?]
  all_goals exact Binary.rank_inj hplace

theorem compareRough_of_number? (h : x.number? = some (.ofInt m.toInt)) :
    x.compareRough (long m) = .eq := by
  have hplace : x.roughPlace = (long m).roughPlace := by
    cases x <;> simp_all [roughPlace, number?]
  rw [compareRough, compareLex, compareLex, compareOn, compareOn, compareOn, hplace]
  simp

theorem compareExact_of_not_long (hx : ∀ k, x ≠ long k) (a : Value) : x.compareExact a = .eq := by
  cases x <;> first | rfl | exact absurd rfl (hx _)

/-- Integers that tie with something else are the same unless values are torn. -/
theorem compareExact_eq (h : ¬ Torn P) (ha : P a) (hb : P b) (hx : P x) (hlong : ∀ k, x ≠ long k)
    (hxa : x.compareRough a = .eq) (hxb : x.compareRough b = .eq) : a.compareExact b = .eq := by
  cases a with
  | long m =>
    cases b with
    | long n =>
      by_cases hmn : m = n
      · rw [hmn, compareExact, Int.compare_eq_eq.2 rfl]
      · exact absurd ⟨m, n, x, hmn, ha, hb, hx, hlong, number?_of_compareRough hxa,
          number?_of_compareRough hxb⟩ h
    | _ => rfl
  | _ => rfl

theorem ordersOn_of_not_torn (h : ¬ Torn P) : OrdersOn P sortCompare where
  refl a _ := a.sortCompare_self
  swap a b _ _ := a.sortCompare_swap b
  trans a b c ha hb hc hab hbc := by
    rw [sortCompare_eq_then] at hab hbc
    rw [sortCompare_eq_then a c, sortCompare_eq_then a b, sortCompare_eq_then b c]
    have hrough {x y : Value} (hxy : (x.compareRough y).then (x.compareExact y) ≠ .gt) :
        (x.compareRough y).isLE = true := by
      cases ho : x.compareRough y <;> simp_all
    have hab' := hrough hab
    have hbc' := hrough hbc
    have hac := TransCmp.isLE_trans hab' hbc'
    cases ho : a.compareRough c with
    | gt => simp [ho] at hac
    | lt => exact ⟨nofun, nofun⟩
    | eq =>
      have hca : c.compareRough a = .eq := OrientedCmp.eq_comm.1 ho
      have hba : (b.compareRough a).isLE = true := TransCmp.isLE_trans hbc' (by rw [hca]; rfl)
      have hcb : (c.compareRough b).isLE = true := TransCmp.isLE_trans (by rw [hca]; rfl) hab'
      have heab : a.compareRough b = .eq := OrientedCmp.isLE_antisymm hab' hba
      have hebc : b.compareRough c = .eq := OrientedCmp.isLE_antisymm hbc' hcb
      rw [heab] at hab ⊢
      rw [hebc] at hbc ⊢
      simp only [Ordering.eq_then] at hab hbc ⊢
      by_cases hother : ∃ x, (x = a ∨ x = b ∨ x = c) ∧ ∀ k, x ≠ long k
      · obtain ⟨x, hx, hlong⟩ := hother
        have hties : P x ∧ x.compareRough a = .eq ∧ x.compareRough b = .eq ∧
            x.compareRough c = .eq := by
          rcases hx with rfl | rfl | rfl
          · exact ⟨ha, ReflCmp.compare_self, heab, ho⟩
          · exact ⟨hb, OrientedCmp.eq_comm.1 heab, ReflCmp.compare_self, hebc⟩
          · exact ⟨hc, hca, OrientedCmp.eq_comm.1 hebc, ReflCmp.compare_self⟩
        obtain ⟨hx, hxa, hxb, hxc⟩ := hties
        rw [compareExact_eq h ha hb hx hlong hxa hxb, compareExact_eq h hb hc hx hlong hxb hxc,
          compareExact_eq h ha hc hx hlong hxa hxc]
        exact ⟨nofun, fun _ => ⟨rfl, rfl⟩⟩
      · have hlong (x : Value) (hx : x = a ∨ x = b ∨ x = c) : ∃ k, x = long k := by
          by_contra hnone
          exact hother ⟨x, hx, fun k hk => hnone ⟨k, hk⟩⟩
        obtain ⟨k, rfl⟩ := hlong a (.inl rfl)
        obtain ⟨l, rfl⟩ := hlong b (.inr (.inl rfl))
        obtain ⟨m, rfl⟩ := hlong c (.inr (.inr rfl))
        simp only [compareExact, Int.compare_ne_gt, Int.compare_eq_eq] at hab hbc ⊢
        omega

/-- A number that ties with two different integers lies between the greater one and the lesser. -/
theorem not_torn_of_ordersOn (h : OrdersOn P sortCompare) : ¬ Torn P := by
  rintro ⟨m, n, x, hne, hm, hn, hx, hlong, hxm, hxn⟩
  have hties {k : Int64} (hk : x.number? = some (.ofInt k.toInt)) : x.sortCompare (long k) = .eq := by
    rw [sortCompare_eq_then, compareRough_of_number? hk, compareExact_of_not_long hlong]
    rfl
  have hle {k l : Int64} (hk : P (long k)) (hl : P (long l))
      (hxk : x.sortCompare (long k) = .eq) (hxl : x.sortCompare (long l) = .eq) :
      k.toInt ≤ l.toInt := by
    have hkx : (long k).sortCompare x = .eq := by rw [sortCompare_swap, hxk]; rfl
    have hkl := (h.trans (long k) x (long l) hk hx hl (by rw [hkx]; nofun) (by rw [hxl]; nofun)).1
    exact Int.compare_ne_gt.1 hkl
  have hmn := hle hm hn (hties hxm) (hties hxn)
  have hnm := hle hn hm (hties hxn) (hties hxm)
  exact hne (Int64.toInt_inj.1 (Int.le_antisymm hmn hnm))

theorem ordersOn_iff : OrdersOn P sortCompare ↔ ¬ Torn P := ⟨not_torn_of_ordersOn, ordersOn_of_not_torn⟩

end

end Value

/-! ## Tuples -/

namespace SortOrder

variable {order : SortOrder} {U : Tuple → Prop} {u v : Tuple}

/-- The comparison of tuples column by column; a value that cannot be read counts as null. -/
def compareRows : SortOrder → Tuple → Tuple → Ordering
  | [] => fun _ _ => .eq
  | (c, d) :: rest =>
    compareLex (fun u v => compareValues d (u.valueOf c) (v.valueOf c)) (compareRows rest)

theorem compareTuples_eq_compareRows (hu : u.Laid u.columns) (hv : v.Laid v.columns) :
    order.compareTuples u v = .ok (order.compareRows u v) := by
  induction order with
  | nil => rfl
  | cons key rest ih =>
    obtain ⟨c, d⟩ := key
    rw [compareTuples, hu.getOrNull_eq, hv.getOrNull_eq]
    simp only [bind, Except.bind, pure, Except.pure, ih, compareRows, compareLex]
    cases compareValues d (u.valueOf c) (v.valueOf c) <;> rfl

theorem compareValues_swap (d : Direction) (a b : Value) :
    compareValues d b a = (compareValues d a b).swap := by
  cases d with
  | ascending => exact a.sortCompare_swap b
  | descending => exact b.sortCompare_swap a

theorem compareRows_swap (order : SortOrder) (u v : Tuple) :
    order.compareRows v u = (order.compareRows u v).swap := by
  induction order with
  | nil => rfl
  | cons key rest ih =>
    rw [compareRows, compareLex, compareLex, ih, compareValues_swap, Ordering.swap_then]

/-- The values of a column. -/
def valuesIn (U : Tuple → Prop) (c : Column) (v : Value) : Prop := ∃ u, U u ∧ u.valueOf c = v

theorem ordersOn_key {c : Column} (h : OrdersOn (valuesIn U c) Value.sortCompare) (d : Direction) :
    OrdersOn U fun u v => compareValues d (u.valueOf c) (v.valueOf c) := by
  have hcolumn : OrdersOn U fun u v => (u.valueOf c).sortCompare (v.valueOf c) :=
    h.comap fun u hu => ⟨u, hu, rfl⟩
  cases d with
  | ascending => exact hcolumn
  | descending => exact hcolumn.reverse

theorem ordersOn_compareRows
    (h : ∀ key ∈ order, OrdersOn (valuesIn U key.1) Value.sortCompare) :
    OrdersOn U order.compareRows := by
  induction order with
  | nil => exact ⟨fun _ _ => rfl, fun _ _ _ _ => rfl, fun _ _ _ _ _ _ _ _ => ⟨nofun, fun _ => ⟨rfl, rfl⟩⟩⟩
  | cons key rest ih =>
    obtain ⟨hkey, hrest⟩ := List.forall_mem_cons.1 h
    exact (ordersOn_key hkey key.2).lex (ih hrest)

theorem ordersOn_of_single {c : Column} {d : Direction}
    (h : OrdersOn U (compareRows [(c, d)])) : OrdersOn (valuesIn U c) Value.sortCompare := by
  have hkey (u v : Tuple) :
      compareRows [(c, d)] u v = compareValues d (u.valueOf c) (v.valueOf c) := by
    simp [compareRows, compareLex]
  refine ⟨fun a _ => a.sortCompare_self, fun a b _ _ => a.sortCompare_swap b, ?_⟩
  rintro _ _ _ ⟨u, hu, rfl⟩ ⟨v, hv, rfl⟩ ⟨w, hw, rfl⟩ huv hvw
  cases d with
  | ascending =>
    have htrans := h.trans u v w hu hv hw
    rw [hkey, hkey, hkey] at htrans
    exact htrans huv hvw
  | descending =>
    have htrans := h.trans w v u hw hv hu
    rw [hkey, hkey, hkey] at htrans
    obtain ⟨hle, hties⟩ := htrans hvw huv
    exact ⟨hle, fun heq => (hties heq).symm⟩

theorem compareRows_self (order : SortOrder) (u : Tuple) : order.compareRows u u = .eq := by
  have hswap := order.compareRows_swap u u
  cases h : order.compareRows u u <;> simp_all

end SortOrder

open Value SortOrder in
/-- Comparing a value with itself or the other way around goes as in an order. Exactly where no
values are torn the comparison orders them up to ties, and exactly then the comparison of tuples by
one key does; by several keys it does if no values of any key are torn. -/
theorem comparisons_order_iff (P : Value → Prop) (order : SortOrder) (U : Tuple → Prop)
    (hU : ∀ u, U u → u.Laid u.columns) :
    (∀ a : Value, a.sortCompare a = .eq) ∧
      (∀ a b : Value, b.sortCompare a = (a.sortCompare b).swap) ∧
      (OrdersOn P sortCompare ↔ ¬ Torn P) ∧
      (∀ u v : Tuple, order.compareRows u u = .eq ∧
        order.compareRows v u = (order.compareRows u v).swap) ∧
      (∀ u v : Tuple, U u → U v → order.compareTuples u v = .ok (order.compareRows u v)) ∧
      ((∀ key ∈ order, ¬ Torn (valuesIn U key.1)) → OrdersOn U order.compareRows) ∧
      ∀ (c : Column) (d : Direction), OrdersOn U (compareRows [(c, d)]) ↔ ¬ Torn (valuesIn U c) := by
  refine ⟨sortCompare_self, sortCompare_swap, ordersOn_iff,
    fun u v => ⟨order.compareRows_self u, order.compareRows_swap u v⟩, ?_, ?_, ?_⟩
  · exact fun u v hu hv => compareTuples_eq_compareRows (hU u hu) (hU v hv)
  · exact fun h => ordersOn_compareRows fun key hkey => ordersOn_iff.2 (h key hkey)
  · intro c d
    refine ⟨fun h => ordersOn_iff.1 (ordersOn_of_single h), fun h => ordersOn_compareRows ?_⟩
    exact List.forall_mem_singleton.2 (ordersOn_iff.2 h)

namespace Mixed

def key : Column := ⟨"t.k", .double, true⟩

def order : SortOrder := [(key, .descending)]

def tuple (id : RowId) (v : Value) : Tuple := ⟨id, [key], [v]⟩

/-- Keys of several kinds, one of them an integer that double precision does not have. -/
def tuples : List Tuple :=
  [tuple 0 (.long 9007199254740993), tuple 1 (.double .invalid), tuple 2 .null, tuple 3 (.text "a")]

theorem laid : ∀ u ∈ tuples, u.Laid u.columns := by
  simp [tuples, tuple, Tuple.Laid]

theorem not_torn : ¬ Value.Torn (SortOrder.valuesIn (· ∈ tuples) key) := by
  have hinteger {k : Int64} (h : SortOrder.valuesIn (· ∈ tuples) key (.long k)) :
      k = 9007199254740993 := by
    obtain ⟨u, hu, hvalue⟩ := h
    have hvalues : u.valueOf key ∈ tuples.map (·.valueOf key) := List.mem_map_of_mem hu
    rw [hvalue] at hvalues
    have htable : tuples.map (·.valueOf key) =
      [.long 9007199254740993, .double .invalid, .null, .text "a"] := by decide
    simpa [htable] using hvalues
  rintro ⟨m, n, _, hne, hm, hn, _⟩
  exact hne ((hinteger hm).trans (hinteger hn).symm)

end Mixed

open Mixed in
theorem comparisons_order_iff_mixed :
    (∀ u ∈ tuples, u.Laid u.columns) ∧ OrdersOn (· ∈ tuples) order.compareRows ∧
      order.compareRows (tuple 0 (.long 9007199254740993)) (tuple 1 (.double .invalid)) = .lt := by
  obtain ⟨_, _, _, _, _, _, hkey⟩ :=
    comparisons_order_iff (fun _ => True) order (· ∈ tuples) laid
  exact ⟨laid, (hkey key .descending).2 not_torn, by decide +kernel⟩

/-- The number 2^53 ties with the integers 2^53 and 2^53 + 1. -/
theorem sortCompare_torn :
    let x : Value := .double (.ofNat 9007199254740992)
    (Value.long 9007199254740993).sortCompare x = .eq ∧
      x.sortCompare (.long 9007199254740992) = .eq ∧
      (Value.long 9007199254740993).sortCompare (.long 9007199254740992) = .gt := by
  decide +kernel

end QueryEngine
