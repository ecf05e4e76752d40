import Mathlib.Data.List.Perm.Basic
import QueryEngine.Proofs.Emission
import QueryEngine.Proofs.Rows
import QueryEngine.Rewrite.Rule

/-!
# Index look-ups in place of filters

A look-up in an index finds the rows whose value is, bit for bit, one of the keys, once for every key
that it is. A filter over a scan keeps the rows whose value compares as equal to one of the keys. The
two agree just where both ways of matching do.
-/

set_option autoImplicit false

namespace QueryEngine

/-! ## What a look-up finds -/

namespace HashIndex

variable {t : Table} {x : HashIndex}

/-- The rows listed under a key are those that have it. -/
theorem lookup_perm (h : t.Sound) (hx : x ∈ t.indexes) (key : Value) :
    (x.lookup key).Perm ((t.rows.filter fun row => t.value row.2 x.column = key).map (·.1)) := by
  obtain ⟨place, hp, hlists⟩ := h.mirrored x hx
  have hvalue (row : List Value) : t.value row x.column = row.getD place .null := by
    rw [Table.value, hp]
    rfl
  have hnodup : ((t.rows.filter fun row => t.value row.2 x.column = key).map (·.1)).Nodup :=
    (List.filter_sublist.map _).nodup h.nodup
  refine (List.perm_ext_iff_of_nodup (hlists.nodup key) hnodup).2 fun id => ?_
  rw [hlists.mem]
  constructor
  · rintro ⟨row, hrow, hv⟩
    exact List.mem_map.2 ⟨(id, row), List.mem_filter.2 ⟨hrow, decide_eq_true ((hvalue row).trans hv)⟩, rfl⟩
  · intro hm
    obtain ⟨row, hrow, rfl⟩ := List.mem_map.1 hm
    obtain ⟨hrow, hv⟩ := List.mem_filter.1 hrow
    exact ⟨row.2, hrow, (hvalue row.2).symm.trans (of_decide_eq_true hv)⟩

/-- A look-up gives every row once for each key that is its value. -/
theorem found_eq (h : t.Sound) (hx : x ∈ t.indexes) (keys : List Value) :
    x.found keys = t.copies [x.column] fun row => keys.count (t.value row x.column) := by
  have hperm : (keys.flatMap fun key =>
      (x.lookup key).map fun row => (⟨row, [x.column], [key]⟩ : Tuple)).Perm
      (t.copies [x.column] fun row => keys.count (t.value row x.column)) := by
    unfold Table.copies
    induction keys with
    | nil => simp
    | cons key keys ih =>
      have hfirst : ((x.lookup key).map fun row => (⟨row, [x.column], [key]⟩ : Tuple)).Perm
          (t.rows.flatMap fun row =>
            if t.value row.2 x.column = key then [t.tuple [x.column] row] else []) := by
        refine ((lookup_perm h hx key).map _).trans (List.Perm.of_eq ?_)
        rw [List.map_map]
        induction t.rows with
        | nil => rfl
        | cons row rest ih =>
          by_cases hv : t.value row.2 x.column = key
          · simp [hv, ih, Table.tuple, Tuple.ofValues]
          · simp [hv, ih]
      rw [List.flatMap_cons]
      refine (hfirst.append ih).trans ((List.flatMap_append_perm _ _ _).trans (List.Perm.of_eq ?_))
      refine List.flatMap_congr fun row _ => ?_
      by_cases hv : t.value row.2 x.column = key
      · simp [hv, List.replicate_succ]
      · have hv' : key ≠ t.value row.2 x.column := fun he => hv he.symm
        simp [hv, hv']
  have htrans : ∀ a b c : Tuple, decide (a.row ≤ b.row) = true → decide (b.row ≤ c.row) = true →
      decide (a.row ≤ c.row) = true := fun a b c hab hbc =>
    decide_eq_true (Int.le_trans (of_decide_eq_true hab) (of_decide_eq_true hbc))
  have htotal : ∀ a b : Tuple, (decide (a.row ≤ b.row) || decide (b.row ≤ a.row)) = true :=
    fun a b => by simpa using Int.le_total a.row b.row
  have hascending : (t.copies [x.column] fun row => keys.count (t.value row x.column)).Pairwise
        fun a b => decide (a.row ≤ b.row) = true := by
    refine List.pairwise_flatMap.2 ⟨fun row _ => ?_, h.ascending.imp fun {row row'} hlt u hu v hv => ?_⟩
    · exact List.pairwise_replicate.2 (.inr (by simp))
    · rw [List.eq_of_mem_replicate hu, List.eq_of_mem_replicate hv]
      exact decide_eq_true (Int.le_of_lt hlt)
  have hsort := List.mergeSort_perm
    (keys.flatMap fun key => (x.lookup key).map fun row => (⟨row, [x.column], [key]⟩ : Tuple))
    fun a b => decide (a.row ≤ b.row)
  have hsorted := List.pairwise_mergeSort htrans htotal (keys.flatMap fun key =>
    (x.lookup key).map fun row => (⟨row, [x.column], [key]⟩ : Tuple))
  -- Tuples with the same row number come from the same row.
  refine List.Perm.eq_of_pairwise (fun u v hu hv huv hvu => ?_) hsorted hascending
    (hsort.trans hperm)
  obtain ⟨row, hrow, rfl⟩ := Table.mem_copies ((hsort.trans hperm).mem_iff.1 hu)
  obtain ⟨row', hrow', rfl⟩ := Table.mem_copies hv
  have hid : row.1 = row'.1 := Int.le_antisymm (of_decide_eq_true huv) (of_decide_eq_true hvu)
  have hrows : row.2 = row'.2 := by
    have h₁ := h.row?_eq_some.2 hrow
    rw [hid, h.row?_eq_some.2 hrow'] at h₁
    exact (Option.some.inj h₁).symm
  rw [Prod.ext hid hrows]

end HashIndex

/-! ## What a filter keeps -/

namespace Bindings

/-- Literals are resolved from the slots alone. -/
theorem resolve_literal {b b' : Bindings} (hslots : b.slots = b'.slots) (tuple tuple' : Option Tuple)
    {v : Binding} (hv : v.isLiteral = true) : b.resolve tuple v = b'.resolve tuple' v := by
  cases v with
  | literal slot type => simp only [resolve, literal, hslots]
  | _ => cases hv

theorem resolveAll_literal (b : Bindings) (tuple : Option Tuple) {v : Binding}
    (hv : v.isLiteral = true) :
    b.resolveAll tuple v = (b.resolve none v).map fun value => [value] := by
  cases v with
  | literal slot type => rfl
  | _ => cases hv

theorem resolveEach_eq_ok {b : Bindings} {tuple : Option Tuple} {list : List Binding}
    {values : List Value} :
    b.resolveEach tuple list = .ok values ↔
      List.Forall₂ (fun a v => b.resolve tuple a = .ok v) list values := by
  induction list generalizing values with
  | nil => simp [resolveEach, eq_comm]
  | cons a rest ih =>
    rw [resolveEach, List.forall₂_cons_left_iff]
    cases ha : b.resolve tuple a with
    | error e => simp
    | ok v =>
      rw [Except.map_eq_ok]
      constructor
      · rintro ⟨found, hfound, rfl⟩
        exact ⟨v, found, rfl, ih.1 hfound, rfl⟩
      · rintro ⟨w, found, hw, hfound, rfl⟩
        cases hw
        exact ⟨found, ih.2 hfound, rfl⟩

theorem resolveEach_literals {b b' : Bindings} (hslots : b.slots = b'.slots) {list : List Binding}
    (hl : list.all Binding.isLiteral = true) {keys : List Value}
    (h : b.resolveEach none list = .ok keys) : b'.resolveEach none list = .ok keys := by
  rw [List.all_eq_true] at hl
  rw [resolveEach_eq_ok] at h ⊢
  refine (List.forall₂_iff_zip.2 ⟨h.length_eq, fun {a v} hav => ?_⟩)
  rw [← resolve_literal hslots none none (hl a (List.of_mem_zip hav).1)]
  exact (List.forall₂_iff_zip.1 h).2 hav

/-- Literals that have been given have values. -/
theorem resolveEach_of_checkAll {b : Bindings} {list : List Binding}
    (hl : list.all Binding.isLiteral = true) (h : b.checkAll list = .ok ()) :
    ∃ keys, b.resolveEach none list = .ok keys := by
  induction list with
  | nil => exact ⟨[], rfl⟩
  | cons v rest ih =>
    rw [List.all_cons, Bool.and_eq_true] at hl
    rw [checkAll] at h
    cases v with
    | literal slot type =>
      rw [check] at h
      cases hv : b.literal slot with
      | error e => simp [hv, Except.map] at h
      | ok value =>
        simp only [hv, Except.map] at h
        obtain ⟨keys, hkeys⟩ := ih hl.2 h
        exact ⟨value :: keys, by simp [resolveEach, resolve, hv, lifted, Except.mapError, hkeys, Except.map]⟩
    | _ => cases hl.1

end Bindings

namespace Predicate

variable {p : Predicate} {c : Column} {list : List Binding}

/-- The literals that are looked up are among the bindings of the predicate. -/
theorem checkAll_of_lookups? (h : p.lookups? c = some list) {b : Bindings}
    (hb : b.checkAll p.bindings = .ok ()) : b.checkAll list = .ok () := by
  have htail {c : Column} {list : List Binding} (h : b.checkAll (.column c :: list) = .ok ()) :
      b.checkAll list = .ok () := h
  obtain ⟨-, ⟨v, rfl, rfl⟩ | rfl⟩ := lookups?_cases h
  · refine htail (c := c) ?_
    simpa [bindings, atoms, Comparison.bindings] using hb
  · refine htail (c := c) ?_
    simpa [bindings, atoms, Comparison.bindings] using hb

theorem columns_of_lookups? (h : p.lookups? c = some list) : p.columns = [c] := by
  have hnone : ∀ l : List Binding, l.all Binding.isLiteral = true → l.flatMap Binding.columns = [] := by
    intro l hl
    rw [List.flatMap_eq_nil_iff]
    intro v hv
    cases v with
    | literal slot type => rfl
    | _ => exact absurd (List.all_eq_true.1 hl _ hv) (by simp [Binding.isLiteral])
  obtain ⟨hl, ⟨v, rfl, rfl⟩ | rfl⟩ := lookups?_cases h
  · have hv := hnone [v] hl
    simp only [List.flatMap_cons, List.flatMap_nil, List.append_nil] at hv
    simp [columns, atoms, Comparison.columns, Comparison.bindings, Binding.columns, hv,
      Column.sortedSet, Column.insertSorted]
  · simp [columns, atoms, Comparison.columns, Comparison.bindings, Binding.columns, hnone list hl,
      Column.sortedSet, Column.insertSorted]

/-- The filter keeps a tuple whose value equals one of the keys. -/
theorem holds_of_lookups? (h : p.lookups? c = some list) {b : Bindings} {keys : List Value}
    (hk : b.resolveEach none list = .ok keys) {u : Tuple} {v : Value} (hu : u.get? c = .ok (some v)) :
    p.holds b u = .ok (keys.any fun key => v.compare? key == some .eq) := by
  have hcolumn : b.resolve (some u) (.column c) = .ok v := by
    simp [Bindings.resolve, Bindings.columnValue, hu, Crash.lifted, Except.mapError, bind, Except.bind]
  obtain ⟨hl, ⟨w, rfl, rfl⟩ | rfl⟩ := lookups?_cases h
  · rw [Bindings.resolveEach_eq_ok, List.forall₂_cons_left_iff] at hk
    obtain ⟨key, rest, hkey, hrest, rfl⟩ := hk
    cases hrest
    rw [List.all_cons, Bool.and_eq_true] at hl
    rw [Bindings.resolve_literal rfl none (some u) hl.1] at hkey
    have hholds : Relation.equal.holds (v.compare? key) = (v.compare? key == some .eq) := by
      cases v.compare? key with
      | none => rfl
      | some o => cases o <;> rfl
    simp [holds, Comparison.holds, hcolumn, hkey, hholds, bind, Except.bind, pure, Except.pure,
      Except.map]
  · have hamong : Comparison.isAmong b u v list =
        .ok (keys.any fun key => v.compare? key == some .eq) := by
      rw [Bindings.resolveEach_eq_ok] at hk
      clear h
      induction hk with
      | nil => rfl
      | @cons w key rest keys hkey _ ih =>
        rw [List.all_cons, Bool.and_eq_true] at hl
        rw [Comparison.isAmong, Bindings.resolveAll_literal b _ hl.1, hkey]
        simp only [Except.map, List.any_cons, List.any_nil, Bool.or_false]
        cases hc : v.compare? key == some .eq with
        | true => simp
        | false => simpa using ih hl.2
    simp [holds, Comparison.holds, hcolumn, hamong, bind, Except.bind, Except.map]

end Predicate

/-- How often a filter by keys keeps a row, by the value that is compared. -/
def timesKept (keys : List Value) (v : Value) : Nat :=
  if keys.any fun key => v.compare? key == some .eq then 1 else 0

/-! ## Streams of stored rows -/

namespace TupleStream.Emits

variable {others own : Groups} {complete : Bool} {v : TupleStream} {s : RunState} {h : TableHandle}
  {cs ds : List Column} {n : List Value → Nat}

theorem select_copies (hds : ∀ d ∈ ds, d ∈ cs)
    (hv : v.Emits others own complete ((s.table h).copies cs n) s) :
    (v.select ds).Emits others own complete ((s.table h).copies ds n) s := by
  have hproject (row : RowId × List Value) :
      ((s.table h).tuple cs row).project ds = .ok ((s.table h).tuple ds row) :=
    Tuple.project_ofValues hds
  rw [← Table.filterMap_copies (f := fun u => (u.project ds).toOption) fun row _ => by
    rw [hproject row]; rfl]
  refine hv.stateless fun u hu s₁ _ => ⟨?_, .refl _ _⟩
  obtain ⟨row, _, rfl⟩ := Table.mem_copies hu
  simp only [hproject row]
  rfl

/-- Columns that are read by row number complete the rows. -/
theorem fetch_copies (hsound : (s.table h).Sound) (hds : ∀ d ∈ ds, d ∈ (s.table h).columns)
    (hnew : ∀ d ∈ ds, d ∉ cs) (hne : ds ≠ [])
    (hv : v.Emits others own complete ((s.table h).copies cs n) s) :
    (v.fetch h ds (cs ++ ds)).Emits others own complete ((s.table h).copies (cs ++ ds) n) s := by
  have hmissing (row : RowId × List Value) :
      (ds.filterM fun c => return (← ((s.table h).tuple cs row).get? c).isNone :
        Except Crash (List Column)) = .ok ds := by
    refine (Except.filterM_ok (q := fun c => decide (c ∉ cs)) fun d hd => ?_).trans ?_
    · by_cases hc : d ∈ cs <;>
        simp [Table.tuple, Tuple.get?_ofValues, hc, bind, Except.bind, pure, Except.pure]
    · rw [List.filter_eq_self.2 fun d hd => decide_eq_true (hnew d hd)]
  have hcomplete (row : RowId × List Value) :
      TupleStream.complete (cs ++ ds) ((s.table h).tuple cs row) ((s.table h).tuple ds row) =
        .ok ((s.table h).tuple (cs ++ ds) row) :=
    Tuple.complete_ofValues fun d hd => List.mem_append.1 hd
  obtain ⟨d, rest, rfl⟩ := List.exists_cons_of_ne_nil hne
  rw [← Table.filterMap_copies (f := fun u => some ⟨u.row, cs ++ d :: rest,
    (cs ++ d :: rest).map ((s.table h).value (((s.table h).row? u.row).getD []))⟩)
    fun row hrow => by
      rw [show ((s.table h).tuple cs row).row = row.1 from rfl, hsound.row?_eq_some.2 hrow]
      rfl]
  refine hv.stateless fun u hu s₁ hs₁ => ?_
  obtain ⟨row, hrow, rfl⟩ := Table.mem_copies hu
  have hread := Table.read_eq hsound hrow hds
  obtain ⟨e, hr, _⟩ | ⟨found, table, table', hr, hr', _, htable⟩ :=
    Table.read_of_unread (hs₁.symm.table_unread h) row.1 (d :: rest)
  · rw [hread] at hr
    cases hr
  · rw [hread] at hr
    cases hr
    simp only [hmissing row, show ((s.table h).tuple cs row).row = row.1 from rfl, hr',
      hcomplete row, hsound.row?_eq_some.2 hrow]
    exact ⟨rfl, .setTable _ _ htable⟩

/-- A filter that an index could answer, over all rows of a table. -/
theorem filter_rows {p : Predicate} {c : Column} {list : List Binding} {keys : List Value}
    (hc : c ∈ cs) (hp : p.lookups? c = some list)
    (hk : s.bindings.resolveEach none list = .ok keys)
    (hv : v.Emits others own complete ((s.table h).rows.map ((s.table h).tuple cs)) s) :
    (v.filter p).Emits others own complete
      ((s.table h).copies cs fun row => timesKept keys ((s.table h).value row c)) s := by
  have hholds {row : RowId × List Value} {s₁ : RunState}
      (hslots : s.bindings.slots = s₁.bindings.slots) :
      p.holds s₁.bindings ((s.table h).tuple cs row) =
        .ok (keys.any fun key => ((s.table h).value row.2 c).compare? key == some .eq) := by
    refine Predicate.holds_of_lookups? hp
      (Bindings.resolveEach_literals hslots (Predicate.lookups?_cases hp).1 hk) ?_
    rw [Table.tuple, Tuple.get?_ofValues, if_pos hc]
  have hcopies : ((s.table h).copies cs fun row => timesKept keys ((s.table h).value row c)) =
      ((s.table h).rows.map ((s.table h).tuple cs)).filterMap fun u =>
        if p.holds s.bindings u = .ok true then some u else none := by
    rw [Table.copies, List.filterMap_map]
    induction (s.table h).rows with
    | nil => rfl
    | cons row rest ih =>
      rw [List.flatMap_cons, List.filterMap_cons, ih, Function.comp_apply, hholds rfl, timesKept]
      cases keys.any fun key => ((s.table h).value row.2 c).compare? key == some .eq <;> rfl
  rw [hcopies]
  refine hv.stateless fun u hu s₁ hs₁ => ?_
  obtain ⟨row, _, rfl⟩ := List.mem_map.1 hu
  rw [hholds rfl, hholds hs₁.slots.symm]
  cases keys.any fun key => ((s.table h).value row.2 c).compare? key == some .eq with
  | false => exact ⟨rfl, .count _ _ _⟩
  | true => exact ⟨rfl, .count _ _ _⟩

end TupleStream.Emits

/-! ## Plans -/

theorem TableHandle.index?_of_mem {t : TableHandle} {store : Store} {x : IndexHandle}
    (hx : x ∈ t.indexes store) :
    x.table = t.number ∧ ∃ y, store.index? x = some y ∧ y.column = x.column := by
  obtain ⟨⟨y, i⟩, hy, rfl⟩ := List.mem_map.1 hx
  exact ⟨rfl, y, List.mem_zipIdx_iff_getElem?.1 hy, rfl⟩

namespace Rule

variable {s : RunState} {h : TableHandle} {cs : List Column} {p : Predicate}

/-- Filtering a scan keeps a row at most once. -/
theorem filter_scan_gives (hfaults : h.faults.scanFailure = none) (hsound : (s.table h).Sound)
    (hcs : ∀ c ∈ cs, c ∈ (s.table h).columns) {c : Column} {list : List Binding}
    {keys : List Value} (hc : c ∈ cs) (hp : p.lookups? c = some list)
    (hk : s.bindings.resolveEach none list = .ok keys) (g g' : GroupId) :
    PhysicalPlan.Gives (.node g (.filter p) [.node g' (.scan h cs 0 1) []]) s
      ((s.table h).copies cs fun row => timesKept keys ((s.table h).value row c)) := by
  obtain ⟨places, hplaces⟩ := Table.positions_ok hcs
  refine fun canSpill => ⟨(TupleStream.ofCursor h TupleStream.unbounded
    ⟨cs, places, 0, 1, none⟩).filter p, ?_, ?_⟩
  · have hstream := TupleStream.scan_whole (s := s.store) hfaults hplaces
    rw [PhysicalPlan.inline_node, List.mapM_cons, List.mapM_nil, PhysicalPlan.inline_node]
    simp only [List.mapM_nil, Lowering.stream, pure, Except.pure, Except.bind, bind, hstream]
    rfl
  · refine TupleStream.Emits.filter_rows hc hp hk ?_
    rw [← Table.remaining_whole hplaces]
    refine .ofCursor h _ hsound.ascending ?_
    have hlength := hsound.length_le
    have hremaining := Cursor.remaining_length_le ⟨cs, places, 0, 1, none⟩ (s.table h)
    exact Nat.le_trans hremaining (Nat.le_trans hlength (by decide))

variable {x : IndexHandle} {keys : List Value}

/-- How often a look-up gives a row. -/
def timesFound (s : RunState) (h : TableHandle) (x : IndexHandle) (keys : List Value)
    (row : List Value) : Nat :=
  keys.count ((s.table h).value row x.column)

theorem lookupPlan_gives (hsound : (s.table h).Sound)
    (hx : s.store.index x ∈ (s.table h).indexes) (hcolumn : (s.store.index x).column = x.column)
    (hk : (s.store.index x).keys p s.bindings = .ok keys) (g : GroupId) :
    (lookupPlan g h p x).Gives s ((s.table h).copies [x.column] (timesFound s h x keys)) := by
  refine fun canSpill => ⟨.ofList ((s.store.index x).found keys), ?_, ?_⟩
  · rw [lookupPlan, PhysicalPlan.inline_node, List.mapM_nil]
    simp only [Lowering.stream, pure, Except.pure, Except.bind, HashIndex.filter, hk, Except.map]
  · rw [HashIndex.found_eq hsound hx, hcolumn]
    exact .ofList _ s

/-- The fetch completes the columns that the index lacks. -/
theorem fetchPlan_gives (hsound : (s.table h).Sound) (hcs : ∀ c ∈ cs, c ∈ (s.table h).columns)
    (hx : s.store.index x ∈ (s.table h).indexes) (hcolumn : (s.store.index x).column = x.column)
    (hk : (s.store.index x).keys p s.bindings = .ok keys) (g : GroupId) :
    (fetchPlan g h cs p x).Gives s
      ((s.table h).copies (fetchPlan g h cs p x).columns (timesFound s h x keys)) := by
  have hlookup := lookupPlan_gives hsound hx hcolumn hk g
  have hcolumns : (lookupPlan g h p x).columns = [x.column] := PhysicalPlan.columns_node _ _ _
  unfold fetchPlan
  split
  · rw [hcolumns]
    exact hlookup
  · rename_i hne
    have hnew : ∀ d ∈ Operator.missing cs [x.column], d ∉ [x.column] := fun d hd =>
      of_decide_eq_true (List.mem_filter.1 hd).2
    have hfetched : (Operator.fetch h (Operator.missing cs [x.column])).columns [x.column] =
        [x.column] ++ Operator.missing cs [x.column] :=
      congrArg ([x.column] ++ ·) (List.filter_eq_self.2 fun d hd => decide_eq_true (hnew d hd))
    rw [PhysicalPlan.columns_unary, hcolumns, hfetched]
    intro canSpill
    obtain ⟨v, hv, hemits⟩ := hlookup canSpill
    refine ⟨v.fetch h (Operator.missing cs [x.column]) ([x.column] ++ Operator.missing cs [x.column]),
      ?_, ?_⟩
    · rw [PhysicalPlan.inline_unary, hv, hcolumns, hfetched]
      rfl
    · exact hemits.fetch_copies hsound (fun d hd => hcs d (List.mem_filter.1 hd).1) hnew
        fun hnil => hne (by simp [hnil])

theorem mem_columns_fetchPlan {c : Column} (hc : c ∈ cs) (g : GroupId) :
    c ∈ (fetchPlan g h cs p x).columns := by
  have hcolumns : (lookupPlan g h p x).columns = [x.column] := PhysicalPlan.columns_node _ _ _
  unfold fetchPlan
  split
  · rename_i hnil
    rw [hcolumns]
    by_contra hnew
    have hmissing : c ∈ Operator.missing cs [x.column] :=
      List.mem_filter.2 ⟨hc, decide_eq_true hnew⟩
    rw [List.isEmpty_iff.1 hnil] at hmissing
    cases hmissing
  · rw [PhysicalPlan.columns_unary, hcolumns]
    simp only [Operator.columns, Operator.missing, List.mem_append, List.mem_filter]
    by_cases hx : c ∈ [x.column]
    · exact .inl hx
    · exact .inr ⟨⟨hc, decide_eq_true hx⟩, decide_eq_true hx⟩

/-- A look-up gives a row once for each key that is its value, with the columns of the scan. -/
theorem indexPlan_gives (hsound : (s.table h).Sound) (hcs : ∀ c ∈ cs, c ∈ (s.table h).columns)
    (hx : s.store.index x ∈ (s.table h).indexes) (hcolumn : (s.store.index x).column = x.column)
    (hk : (s.store.index x).keys p s.bindings = .ok keys) (g : GroupId) :
    (indexPlan g h cs p x).Gives s ((s.table h).copies cs (timesFound s h x keys)) := by
  have hfetch := fetchPlan_gives hsound hcs hx hcolumn hk g
  unfold indexPlan
  split
  · rename_i hcolumns
    rwa [hcolumns] at hfetch
  · intro canSpill
    obtain ⟨v, hv, hemits⟩ := hfetch canSpill
    refine ⟨v.select cs, ?_, hemits.select_copies fun c hc => mem_columns_fetchPlan hc g⟩
    rw [PhysicalPlan.inline_unary, hv]
    rfl

/-- What takes the place of a filter over a scan looks up an index of the table. -/
theorem useIndex_cases {scope : RewriteScope} {g g' : GroupId} {i : Nat}
    {below : List PhysicalPlan} {u : PhysicalPlan}
    (hu : useIndex scope (.node g (.filter p) [.node g' (.scan h cs i 1) below]) = .ok (some u)) :
    ∃ x ∈ h.indexes scope.store, (scope.store.index x).canProcess p = true ∧
      u = indexPlan g h cs p x := by
  unfold useIndex at hu
  split at hu
  · rename_i he
    obtain ⟨rfl, hf, hin⟩ := PlanTree.node.inj he
    cases hf
    obtain ⟨rfl, hs, rfl⟩ := PlanTree.node.inj (List.cons.inj hin).1
    cases hs
    split at hu
    · cases hu
    · obtain ⟨present, _, hu⟩ := Except.bind_eq_ok.1 hu
      obtain ⟨best, hbest, hu⟩ := Except.bind_eq_ok.1 hu
      cases best with
      | none => cases hu
      | some b =>
        cases hu
        refine of_cheapest (P := fun u => ∃ x ∈ h.indexes scope.store,
          (scope.store.index x).canProcess p = true ∧ u = indexPlan g h cs p x)
          (by simp) (fun u hu => ?_) hbest b rfl
        obtain ⟨x, hx, rfl⟩ := List.mem_map.1 hu
        obtain ⟨hx, hp⟩ := List.mem_filter.1 hx
        exact ⟨x, hx, hp, rfl⟩
  · cases hu

/-- The handles of a table's indexes lead to its indexes. -/
theorem index_of_mem_indexes {store : Store} {n : Nat} {x : IndexHandle}
    (hx : x ∈ (store.handle n).indexes store) :
    store.index x ∈ (store.table n).indexes ∧ (store.index x).column = x.column := by
  obtain ⟨htable, y, hy, hcolumn⟩ := TableHandle.index?_of_mem hx
  have hindex : store.index x = y := by
    rw [Store.index, hy]
    rfl
  rw [hindex]
  refine ⟨?_, hcolumn⟩
  have htable : x.table = n := htable
  rw [← htable]
  exact List.mem_of_getElem? hy

/-! ## Filters that become look-ups -/

/-- A filter over a scan of a whole table. -/
def filteredScan (g g' : GroupId) (h : TableHandle) (cs : List Column) (p : Predicate) :
    PhysicalPlan :=
  .node g (.filter p) [.node g' (.scan h cs 0 1) []]

theorem bind_indexPlan {b : Bindings} (hp : b.checkAll p.bindings = .ok ()) (g : GroupId)
    (h : TableHandle) (cs : List Column) (x : IndexHandle) :
    (indexPlan g h cs p x).bind b = .ok () := by
  have hlookup : (lookupPlan g h p x).bind b = .ok () :=
    PhysicalPlan.bind_node.2 ⟨hp, fun _ ht => nomatch ht⟩
  have hunary {op : Operator} {t : PhysicalPlan} (hop : op.bindings = []) (ht : t.bind b = .ok ()) :
      PhysicalPlan.bind (.unary op t) b = .ok () := by
    refine PhysicalPlan.bind_node.2 ⟨by rw [hop]; rfl, fun u hu => ?_⟩
    rw [List.mem_singleton.1 hu]
    exact ht
  have hfetch : (fetchPlan g h cs p x).bind b = .ok () := by
    unfold fetchPlan
    split
    · exact hlookup
    · exact hunary rfl hlookup
  unfold indexPlan
  split
  · exact hfetch
  · exact hunary rfl hfetch

/-- A plan that takes the place of a filter over a scan gives the same tuples just where every row
is matched bit by bit as often as it is kept by comparison. -/
theorem booleanIndexScan_agrees_iff {e : EngineState} {n : Nat}
    (hreach : (e.store.table n).Reachable) {g g' : GroupId} {cs : List Column} {p : Predicate}
    (hvalid : (filteredScan g g' (e.store.handle n) cs p).validate = .ok ()) {q : QueryContext}
    (hbound : (filteredScan g g' (e.store.handle n) cs p).bind q.bindings = .ok ())
    (hlive : q.cancelled = false) {limits : RunLimits}
    (hroom : limits.channelCapacity < Lowering.channelBound) :
    (∀ scope u, scope.store = e.store →
      booleanIndexScan.apply scope (filteredScan g g' (e.store.handle n) cs p) = .ok (some u) →
      ∃ x ∈ (e.store.handle n).indexes e.store, (e.store.index x).canProcess p = true ∧
        u = indexPlan g (e.store.handle n) cs p x) ∧
    ∀ x ∈ (e.store.handle n).indexes e.store, (e.store.index x).canProcess p = true →
      ∃ keys r r', (e.store.index x).keys p q.bindings = .ok keys ∧
        (filteredScan g g' (e.store.handle n) cs p).execute limits q e = pure r ∧
        (indexPlan g (e.store.handle n) cs p x).execute limits q e = pure r' ∧
        r.ending = .finished ∧ r'.ending = .finished ∧
        (r'.rows = r.rows ↔ ∀ row ∈ (e.store.table n).rows,
          keys.count ((e.store.table n).value row.2 x.column) =
            timesKept keys ((e.store.table n).value row.2 x.column)) := by
  constructor
  · intro scope u hstore hu
    rw [← hstore] at hu ⊢
    exact useIndex_cases hu
  intro x hx hprocess
  have hsound := hreach.sound
  obtain ⟨hindex, hcolumn⟩ := index_of_mem_indexes hx
  obtain ⟨list, hlist⟩ := Option.isSome_iff_exists.1 hprocess
  obtain ⟨hcheck, hscan⟩ := PhysicalPlan.validate_node.1 hvalid
  obtain ⟨hbindings, -⟩ := PhysicalPlan.bind_node.1 hbound
  -- The scan has the column of the index, and the table those of the scan.
  have hc : x.column ∈ cs := by
    refine Operator.checkRequired_eq_ok.1 (Operator.check_eq_ok.1 hcheck).2.1 cs
      (by simp [PhysicalPlan.columns_node, Operator.columns]) _ ?_
    rw [Operator.requires, Predicate.columns_of_lookups? hlist, hcolumn]
    exact List.mem_singleton_self _
  have hcs : ∀ c ∈ cs, c ∈ (e.store.table n).columns := by
    obtain ⟨hscan, -⟩ := PhysicalPlan.validate_node.1 (hscan _ (List.mem_singleton_self _))
    exact Operator.checkColumns_eq_ok.1 (Operator.check_eq_ok.1 hscan).2.2
  -- The literals have values.
  have hkeys : ∃ keys, (e.store.index x).keys p q.bindings = .ok keys := by
    rw [HashIndex.keys, hlist]
    refine Bindings.resolveEach_of_checkAll (Predicate.lookups?_cases hlist).1 ?_
    exact Predicate.checkAll_of_lookups? hlist hbindings
  obtain ⟨keys, hkeys⟩ := hkeys
  have hresolved : q.bindings.resolveEach none list = .ok keys := by
    rwa [HashIndex.keys, hlist] at hkeys
  rw [hcolumn] at hlist
  obtain ⟨r, hr, hrows, hfinished⟩ := PhysicalPlan.Gives.execute
    (filter_scan_gives (s := q.runState e) (h := e.store.handle n) rfl hsound hcs hc hlist
      hresolved g g') hbound hlive hroom
  obtain ⟨r', hr', hrows', hfinished'⟩ := PhysicalPlan.Gives.execute
    (indexPlan_gives (s := q.runState e) (h := e.store.handle n) hsound hcs hindex hcolumn hkeys g)
    (bind_indexPlan hbindings g _ cs x) hlive hroom
  refine ⟨keys, r, r', hkeys, hr, hr', hfinished, hfinished', ?_⟩
  rw [hrows, hrows']
  exact Table.copies_inj hsound

/-! ### Doubles with an index -/

namespace Doubles

def column : Column := ⟨"t.x", .double, true⟩

def one : Value := .double ⟨0x3ff0000000000000⟩

def two : Value := .double ⟨0x4000000000000000⟩

/-- A table of two doubles with an index. -/
def table : Table :=
  ⟨"t", [column], [(0, [one]), (1, [two])], 2,
    [⟨"t.idx_x", column, [(one, [0]), (two, [1])], 2⟩], 0⟩

theorem table_reachable : table.Reachable := by
  have hempty := Table.Reachable.empty "t" [column]
  have hone : (Table.empty "t" [column]).insert [column] [one] =
      .ok (0, ⟨"t", [column], [(0, [one])], 1, [], 0⟩) := by decide
  have htwo : (⟨"t", [column], [(0, [one])], 1, [], 0⟩ : Table).insert [column] [two] =
      .ok (1, ⟨"t", [column], [(0, [one]), (1, [two])], 2, [], 0⟩) := by decide
  have hindex : (⟨"t", [column], [(0, [one]), (1, [two])], 2, [], 0⟩ : Table).createIndex column =
      .ok table := by decide
  exact .createIndex (.insert (.insert hempty (by decide) hone) (by decide) htwo) hindex

def engine : EngineState := ⟨⟨[table]⟩, .empty⟩

def handle : TableHandle := engine.store.handle 0

def index : IndexHandle := ⟨0, 0, "t.idx_x", column⟩

/-- A query with one literal. -/
def query (key : Value) : QueryContext := ⟨.none, .standard, ⟨[some key], []⟩, 0, false⟩

/-- The rows that equal the literal. -/
def filter (key : Value) : Predicate :=
  .atom (.relation .equal (.column column) (.literal 0 key.type?)) false

def limits : RunLimits := ⟨0, 0, true⟩

end Doubles

open Doubles in
/-- A double is found by the filter and by the look-up. -/
theorem booleanIndexScan_agrees_iff_double : ∃ r r',
    (filteredScan 0 0 handle [column] (filter one)).execute limits (query one) engine = pure r ∧
    (indexPlan 0 handle [column] (filter one) index).execute limits (query one) engine = pure r' ∧
    r'.rows = r.rows := by
  have hvalid : (filteredScan 0 0 handle [column] (filter one)).validate = .ok () := by decide
  have hbound : (filteredScan 0 0 handle [column] (filter one)).bind (query one).bindings =
      .ok () := by decide
  have hroom : limits.channelCapacity < Lowering.channelBound := by decide
  obtain ⟨-, hplans⟩ :=
    booleanIndexScan_agrees_iff (e := engine) (n := 0) table_reachable hvalid hbound rfl hroom
  obtain ⟨keys, r, r', hkeys, hr, hr', -, -, hiff⟩ := hplans index (by decide) (by decide)
  have hone : (engine.store.index index).keys (filter one) (query one).bindings = .ok [one] := by
    decide
  rw [hkeys] at hone
  cases hone
  exact ⟨r, r', hr, hr', hiff.2 (by decide)⟩

open Doubles in
/-- A whole number is equal to a double for the filter, but not for the only index. -/
theorem booleanIndexScan_misses_double : handle.indexes engine.store = [index] ∧
    (engine.store.index index).canProcess (filter (.long 1)) = true ∧ ∃ r r',
      (filteredScan 0 0 handle [column] (filter (.long 1))).execute limits (query (.long 1)) engine =
        pure r ∧
      (indexPlan 0 handle [column] (filter (.long 1)) index).execute limits (query (.long 1))
        engine = pure r' ∧
      r.rows = [⟨0, [column], [one]⟩] ∧ r'.rows = [] := by
  have hsound := table_reachable.sound
  have hkeys : (engine.store.index index).keys (filter (.long 1)) (query (.long 1)).bindings =
      .ok [.long 1] := by decide
  have hcolumns : ∀ c ∈ [column], c ∈ table.columns := fun _ hc => hc
  have hlist : (filter (.long 1)).lookups? column = some [.literal 0 (some .long)] := rfl
  have hresolved : (query (.long 1)).bindings.resolveEach none [.literal 0 (some .long)] =
      .ok [.long 1] := by decide
  have hroom : limits.channelCapacity < Lowering.channelBound := by decide
  have hscan := filter_scan_gives (s := (query (.long 1)).runState engine) (h := handle) rfl hsound
    hcolumns (List.mem_singleton_self column) hlist hresolved 0 0
  have hlookup := indexPlan_gives (s := (query (.long 1)).runState engine) (h := handle)
    (x := index) hsound hcolumns (List.mem_singleton_self _) rfl hkeys 0
  obtain ⟨r, hr, hrows, -⟩ := hscan.execute (by decide) rfl hroom
  obtain ⟨r', hr', hrows', -⟩ := hlookup.execute (by decide) rfl hroom
  exact ⟨by decide, by decide, r, r', hr, hr', hrows.trans (by decide), hrows'.trans (by decide)⟩

end Rule

end QueryEngine
