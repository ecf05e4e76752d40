import QueryEngine.Proofs.Emission
import QueryEngine.Proofs.Estimates
import QueryEngine.Proofs.Rounding
import QueryEngine.Proofs.Rows

/-!
# Samples

A sample draws one number for every row of the table, whether it keeps the row or not. So two samples
with one seed draw the same number for each row, and what the smaller probability keeps the larger one
keeps as well. Every number drawn is below one.
-/

set_option autoImplicit false

namespace QueryEngine

/-! ## Draws -/

theorem BinaryFormat.nearest_below_one {n : Nat} (h : n < 16777216) :
    BinaryFormat.single.nearest n 16777216 < BinaryFormat.single.nearest 1 1 := by
  have hlast : BinaryFormat.single.nearest n 16777216 ≤
      BinaryFormat.single.nearest 16777215 16777216 := by
    apply BinaryFormat.nearest_le
    · omega
    · omega
    · exact Nat.mul_le_mul_right _ (by omega)
  have hone : BinaryFormat.single.nearest 16777215 16777216 < BinaryFormat.single.nearest 1 1 := by
    decide
  omega

namespace Binary

variable {f : BinaryFormat} {x y z : Binary f}

theorem lt_of_lt_of_le (hxy : x.lt y = true) (hyz : y.le z = true) : x.lt z = true := by
  obtain ⟨hx, _, hlt⟩ := lt_iff.1 hxy
  obtain ⟨_, hz, hle⟩ := le_iff.1 hyz
  exact lt_iff.2 ⟨hx, hz, by omega⟩

theorem isNaN_ofQuotient (negative : Bool) (num den : Nat) :
    (ofQuotient negative num den : Binary f).isNaN = false := by
  have hle := f.nearest_le_infinity num den
  rw [isNaN, magnitude_ofQuotient]
  exact decide_eq_false (by omega)

theorem position_ofQuotient (num den : Nat) :
    (ofQuotient false num den : Binary f).position = f.nearest num den := by
  rw [position, isNegative_ofQuotient, magnitude_ofQuotient]
  rfl

end Binary

/-- Every draw from the unit interval is below one. -/
theorem RandomStream.nextUnit_lt_one (r : RandomStream) : r.nextUnit.1.lt (.ofNat 1) = true := by
  have hword : (r.next.1 >>> 8).toNat < 16777216 := by
    have hbound := r.next.1.toNat_lt
    rw [UInt32.toNat_shiftRight]
    change r.next.1.toNat >>> 8 < _
    rw [Nat.shiftRight_eq_div_pow]
    omega
  refine Binary.lt_iff.2 ⟨Binary.isNaN_ofQuotient _ _ _, Binary.isNaN_ofQuotient _ _ _, ?_⟩
  have hbelow := BinaryFormat.nearest_below_one hword
  rw [nextUnit, Binary.ofNat, Binary.position_ofQuotient, Binary.position_ofQuotient]
  exact Int.ofNat_lt.2 hbelow

/-! ## Samples of lists -/

/-- The tuples of a list that are kept, by one number drawn for each. -/
def sampleOf (p : Binary32) : RandomStream → List Tuple → List Tuple
  | _, [] => []
  | r, u :: us =>
    if r.nextUnit.1.lt p then u :: sampleOf p r.nextUnit.2 us else sampleOf p r.nextUnit.2 us

variable {p q : Binary32}

theorem sampleOf_sublist (p : Binary32) (r : RandomStream) (us : List Tuple) :
    (sampleOf p r us).Sublist us := by
  induction us generalizing r with
  | nil => exact .slnil
  | cons u us ih =>
    rw [sampleOf]
    split
    · exact (ih _).cons_cons u
    · exact (ih _).cons u

/-- The samples of two probabilities stay in step, since either draws once for every tuple. -/
theorem sampleOf_mono (hpq : p.le q = true) (r : RandomStream) (us : List Tuple) :
    (sampleOf p r us).Sublist (sampleOf q r us) := by
  induction us generalizing r with
  | nil => exact .slnil
  | cons u us ih =>
    have hrest := ih r.nextUnit.2
    rw [sampleOf, sampleOf]
    by_cases hp : r.nextUnit.1.lt p = true
    · have hq : r.nextUnit.1.lt q = true := Binary.lt_of_lt_of_le hp hpq
      rw [if_pos hp, if_pos hq]
      exact hrest.cons_cons u
    · rw [if_neg hp]
      split
      · exact hrest.cons u
      · exact hrest

theorem sampleOf_one (r : RandomStream) (us : List Tuple) : sampleOf (.ofNat 1) r us = us := by
  induction us generalizing r with
  | nil => rfl
  | cons u us ih => rw [sampleOf, if_pos r.nextUnit_lt_one, ih]

/-! ## Streams -/

/-- A sample of a stream gives the sample of what the stream gives. -/
theorem TupleStream.Emits.sample {others own : Groups} {us : List Tuple} {t : TupleStream}
    {s : RunState} (h : t.Emits others own true us s) (p : Binary32) (seed : UInt64) :
    (t.sample p seed).Emits others own true (sampleOf p (.ofSeed seed) us) s := by
  let judge (r : RandomStream) (u : Tuple) : Verdict RandomStream :=
    if r.nextUnit.1.lt p then .emit u r.nextUnit.2 else .drop r.nextUnit.2
  have hjudged (r : RandomStream) : ∀ us, judged judge r us = (sampleOf p r us, true) := by
    intro us
    induction us generalizing r with
    | nil => rfl
    | cons u us ih =>
      rw [judged, sampleOf]
      by_cases hp : r.nextUnit.1.lt p = true
      · simp only [judge, if_pos hp, ih]
      · simp only [judge, if_neg hp, ih]
  let step (r : RandomStream) (u : Tuple) (s : RunState) := (judge r u, s)
  have hsteady := @TupleStream.Emits.steady others own true us _ step judge t s h
    (fun _ _ _ s₁ _ => ⟨rfl, .refl _ s₁⟩) (.ofSeed seed)
  rw [hjudged] at hsteady
  exact hsteady

/-- With one seed the samples of a table are nested: what a probability emits is a part of what any
larger one emits. All are in the order of the rows, each of which is emitted at most once and with
probability one always. -/
theorem Lowering.samples_nested {h : TableHandle} {s : RunState} {cs : List Column}
    (htable : (s.table h).Reachable) (hfaults : h.faults.scanFailure = none)
    (hcs : ∀ c ∈ cs, c ∈ (s.table h).columns) (seed : UInt64) :
    ∃ sample : Binary32 → List Tuple,
      (∀ p limits groups, ∃ t, stream limits s (.sample h cs p seed) cs groups [] = .ok t ∧
        ∀ s', s'.SameBut (fun _ => True) s →
          (t.run s').rows = sample p ∧ (t.run s').ending = .finished) ∧
      (∀ p q, p.le q = true → (sample p).Sublist (sample q)) ∧
      (∀ p, (sample p).Pairwise (·.row < ·.row)) ∧
      sample (.ofNat 1) = (s.table h).rows.map ((s.table h).tuple cs) := by
  have hsound := htable.sound
  obtain ⟨places, hplaces⟩ := Table.positions_ok hcs
  let rows := (s.table h).rows.map ((s.table h).tuple cs)
  have hascending : rows.Pairwise (·.row < ·.row) := List.pairwise_map.2 hsound.ascending
  have hremaining : (Cursor.mk cs places 0 1 none).remaining (s.table h) = rows :=
    Table.remaining_whole hplaces
  have hlength : ((Cursor.mk cs places 0 1 none).remaining (s.table h)).length ≤
      TupleStream.unbounded := by
    have hrows := Cursor.remaining_length_le (Cursor.mk cs places 0 1 none) (s.table h)
    exact Nat.le_trans hrows (Nat.le_trans hsound.length_le (by decide))
  have hscan : (TupleStream.ofCursor h TupleStream.unbounded ⟨cs, places, 0, 1, none⟩).Emits
      (fun _ => True) (fun _ => False) true rows s := by
    rw [← hremaining]
    exact .ofCursor h _ hsound.ascending hlength
  refine ⟨fun p => sampleOf p (.ofSeed seed) rows, fun p limits groups => ?_, ?_, ?_, ?_⟩
  · have hset := TupleStream.scan_whole hfaults hplaces
    refine ⟨_, congrArg (Except.map (TupleStream.sample p seed)) hset, fun s' hs' => ?_⟩
    obtain ⟨hemitted, hends⟩ := ((hscan.sample p seed).resume hs').run
    exact ⟨hemitted, hends.2 rfl⟩
  · intro p q hpq
    exact sampleOf_mono hpq _ _
  · intro p
    exact hascending.sublist (sampleOf_sublist p _ _)
  · exact sampleOf_one _ _

namespace Samples

def key : Column := ⟨"t.k", .long, false⟩

def table : Table := ⟨"t", [key], [(0, [.long 4]), (2, [.long 6])], 3, [], 0⟩

/-- The second of three rows was deleted. -/
theorem table_reachable : table.Reachable := by
  have hempty := Table.Reachable.empty "t" [key]
  have hfirst : (Table.empty "t" [key]).insert [key] [.long 4] =
      .ok (0, ⟨"t", [key], [(0, [.long 4])], 1, [], 0⟩) := by decide
  have hsecond : (⟨"t", [key], [(0, [.long 4])], 1, [], 0⟩ : Table).insert [key] [.long 5] =
      .ok (1, ⟨"t", [key], [(0, [.long 4]), (1, [.long 5])], 2, [], 0⟩) := by decide
  have hthird : (⟨"t", [key], [(0, [.long 4]), (1, [.long 5])], 2, [], 0⟩ : Table).insert [key]
      [.long 6] = .ok (2, ⟨"t", [key], [(0, [.long 4]), (1, [.long 5]), (2, [.long 6])], 3, [], 0⟩) :=
    by decide
  have hthree := Table.Reachable.insert hempty (by decide) hfirst
  have hthree := Table.Reachable.insert hthree (by decide) hsecond
  have hthree := Table.Reachable.insert hthree (by decide) hthird
  exact Table.Reachable.delete 1 hthree

def state : RunState := ⟨⟨[table]⟩, .empty, .empty, 0⟩

def handle : TableHandle := state.store.handle 0

def half : Binary32 := ⟨0x3f000000⟩

end Samples

open Samples in
/-- What is sampled with a half is a part of what is sampled with one, which is both rows. -/
theorem Lowering.samples_nested_half :
    (state.table handle).Reachable ∧ ∃ t u,
      stream ⟨0, 0, true⟩ state (.sample handle [key] half 7) [key] [] [] = .ok t ∧
      stream ⟨0, 0, true⟩ state (.sample handle [key] (.ofNat 1) 7) [key] [] [] = .ok u ∧
      (t.run state).rows.Sublist (u.run state).rows ∧
      (u.run state).rows = [⟨0, [key], [.long 4]⟩, ⟨2, [key], [.long 6]⟩] := by
  have hcolumns : ∀ c ∈ [key], c ∈ (state.table handle).columns := fun c hc => hc
  obtain ⟨sample, hruns, hmono, _, hone⟩ :=
    samples_nested (h := handle) (s := state) table_reachable rfl hcolumns 7
  obtain ⟨t, ht, htrun⟩ := hruns half ⟨0, 0, true⟩ []
  obtain ⟨u, hu, hurun⟩ := hruns (.ofNat 1) ⟨0, 0, true⟩ []
  have hrows := (htrun state (.refl _ state)).1
  have hrows' := (hurun state (.refl _ state)).1
  refine ⟨table_reachable, t, u, ht, hu, ?_, ?_⟩
  · rw [hrows, hrows']
    exact hmono half (.ofNat 1) (by decide)
  · rw [hrows', hone]
    decide

end QueryEngine
