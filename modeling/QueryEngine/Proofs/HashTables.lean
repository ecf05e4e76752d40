import QueryEngine.Execution.Merging
import QueryEngine.Proofs.Run
import QueryEngine.Proofs.Tables
import QueryEngine.Value.Key

/-!
# Hash tables of rows

Keys are equal just if they are the same bit by bit, so equality of keys is an equivalence and equal
keys feed the same pieces to a hash function. Hash tables of such keys find what a search through a
list finds, whatever the hash function: unions, intersections and indexes that keep their rows in
hash tables do the same as those that keep them in lists.
-/

set_option autoImplicit false

namespace QueryEngine

/-! ## Keys -/

theorem agree_iff {α : Type} {eq : α → α → Bool} (h : ∀ x y, eq x y = true ↔ x = y)
    {xs ys : List α} : agree eq xs ys = true ↔ xs = ys := by
  induction xs generalizing ys with
  | nil => cases ys <;> simp [agree]
  | cons x xs ih =>
    cases ys with
    | nil => simp [agree]
    | cons y ys => rw [agree, Bool.and_eq_true, h, ih, List.cons_eq_cons]

theorem Binary.bits_beq_iff {f : BinaryFormat} (x y : Binary f) :
    (x.bits == y.bits) = true ↔ x = y := by
  rw [beq_iff_eq]
  refine ⟨?_, congrArg Binary.bits⟩
  intro h
  cases x
  cases y
  exact congrArg Binary.mk h

theorem Value.sameAs_iff (v w : Value) : v.sameAs w = true ↔ v = w := by
  cases v with
  | null => cases w <;> simp [sameAs, numericEq]
  | bool a => cases w <;> simp [sameAs, numericEq]
  | long a => cases w <;> simp [sameAs, numericEq]
  | text a => cases w <;> simp [sameAs, numericEq]
  | float a =>
    cases w with
    | float b => rw [sameAs, Binary.bits_beq_iff, float.injEq]
    | _ => simp [sameAs, numericEq]
  | double a =>
    cases w with
    | double b => rw [sameAs, Binary.bits_beq_iff, double.injEq]
    | _ => simp [sameAs, numericEq]
  | floatVector a =>
    cases w with
    | floatVector b => rw [sameAs, agree_iff Binary.bits_beq_iff, floatVector.injEq]
    | _ => simp [sameAs, numericEq]
  | doubleVector a =>
    cases w with
    | doubleVector b => rw [sameAs, agree_iff Binary.bits_beq_iff, doubleVector.injEq]
    | _ => simp [sameAs, numericEq]

namespace RowKey

theorem beq_iff (k l : RowKey) : (k == l) = true ↔ k = l := by
  cases k
  cases l
  exact (agree_iff Value.sameAs_iff).trans (RowKey.mk.injEq ..).to_iff.symm

instance : LawfulBEq RowKey where
  eq_of_beq := (beq_iff _ _).1
  rfl := (beq_iff _ _).2 rfl

end RowKey

theorem Hasher.lawfulHashable (H : Hasher) : @LawfulHashable RowKey _ H.hashable :=
  letI := H.hashable
  ⟨fun _ _ h => congrArg H.hash ((RowKey.beq_iff _ _).1 h)⟩

/-! ## Sets of rows -/

def Tuple.key (u : Tuple) : RowKey := ⟨u.values⟩

section

variable [Hashable RowKey]

/-- A hash table holds the rows of a list and no others. -/
def HoldsRows (set : Std.HashSet RowKey) (rows : List (List Value)) : Prop :=
  ∀ row, set.contains ⟨row⟩ = true ↔ row ∈ rows

namespace HoldsRows

variable {set : Std.HashSet RowKey} {rows : List (List Value)}

theorem empty : HoldsRows ∅ [] := by
  intro row
  rw [Std.HashSet.contains_empty]
  exact iff_of_false Bool.false_ne_true List.not_mem_nil

theorem key (h : HoldsRows set rows) (u : Tuple) :
    set.contains u.key = true ↔ u.values ∈ rows :=
  h u.values

theorem insert [LawfulHashable RowKey] (h : HoldsRows set rows) (row : List Value) :
    HoldsRows (set.insert ⟨row⟩) (row :: rows) := by
  intro other
  rw [Std.HashSet.contains_insert, Bool.or_eq_true, RowKey.beq_iff, RowKey.mk.injEq, h,
    List.mem_cons, eq_comm]

end HoldsRows

namespace TupleStream

/-- The first tuple of each row of values, found by its key. -/
def hashedDistinct (t : TupleStream) : TupleStream :=
  t.transduce (.steady fun (seen : Std.HashSet RowKey) u s =>
    (if seen.contains u.key then .drop seen else .emit u (seen.insert u.key), s)) ∅

def hashedUnion (distinct : Bool) (cs : List Column) (inputs : List TupleStream) : TupleStream :=
  if distinct then (merge cs inputs).hashedDistinct else merge cs inputs

/-- The keys of every stream, stream by stream. -/
def keysOf (cs : List Column) :
    List TupleStream → RunState → Attempt (List (Std.HashSet RowKey))
  | [], s => ⟨.ok [], [], s⟩
  | t :: rest, s =>
    let read := t.drain (fun keys u s =>
      ((Crash.lifted (align cs u)).map fun u => keys.insert u.key, s)) ∅ s
    match read.result with
    | .error f => ⟨.error f, read.rest :: rest, read.state⟩
    | .ok keys => ((keysOf cs rest read.state).map (keys :: ·)).after read.rest

/-- The first tuple of each row of values whose key is in all the sets. -/
def hashedWithin (sets : List (Std.HashSet RowKey)) (t : TupleStream) : TupleStream :=
  t.transduce (.steady fun (emitted : Std.HashSet RowKey) u s =>
    (if sets.all (·.contains u.key) && !emitted.contains u.key then .emit u (emitted.insert u.key)
      else .drop emitted, s)) ∅

def hashedIntersect (cs : List Column) : List TupleStream → TupleStream :=
  afterOthers (keysOf cs) fun sets first => (first.changeEach (align cs)).hashedWithin sets

end TupleStream

end

/-! ### Machines in step -/

/-- Streams read to related results, with the same left of them. -/
inductive Drained.Both {σ τ : Type} (ρ : σ → τ → Prop) : Drained σ → Drained τ → Prop
  | of (rest : TupleStream) (s : RunState) {r : Except Failure σ} {r' : Except Failure τ} :
    Except.Both ρ r r' → Both ρ ⟨r, rest, s⟩ ⟨r', rest, s⟩

/-- Attempts that come to related results, with the same left over. -/
inductive Attempt.Both {α β : Type} (ρ : α → β → Prop) : Attempt α → Attempt β → Prop
  | of (left : List TupleStream) (s : RunState) {r : Except Failure α} {r' : Except Failure β} :
    Except.Both ρ r r' → Both ρ ⟨r, left, s⟩ ⟨r', left, s⟩

namespace Attempt.Both

variable {α β γ δ : Type} {ρ : α → β → Prop} {ρ' : γ → δ → Prop}

theorem after {a : Attempt α} {b : Attempt β} (h : a.Both ρ b) (first : TupleStream) {f : α → γ}
    {g : β → δ} (hfg : ∀ x y, ρ x y → ρ' (f x) (g y)) :
    ((a.map f).after first).Both ρ' ((b.map g).after first) := by
  cases h with
  | of left s hresult => exact .of (first :: left) s (hresult.map hfg)

theorem eq {a b : Attempt α} (h : a.Both (· = ·) b) : a = b := by
  cases h with
  | of left s hresult =>
    cases hresult with
    | ok heq => rw [heq]
    | error f => rfl

end Attempt.Both

/-- Verdicts that differ in the next states only, which are related. -/
inductive Verdict.Alike {σ τ : Type} (ρ : σ → τ → Prop) : Verdict σ → Verdict τ → Prop
  | emit (u : Tuple) {a : σ} {b : τ} : ρ a b → Alike ρ (.emit u a) (.emit u b)
  | drop {a : σ} {b : τ} : ρ a b → Alike ρ (.drop a) (.drop b)
  | fail (f : Failure) : Alike ρ (.fail f) (.fail f)

namespace TupleStream

variable {σ τ : Type} {ρ : σ → τ → Prop} {a : σ} {b : τ}

/-- Machines that go from related states to related states make the same stream. -/
theorem steady_congr {judge : σ → Tuple → Verdict σ} {judge' : τ → Tuple → Verdict τ}
    (hjudge : ∀ a b u, ρ a b → (judge a u).Alike ρ (judge' b u)) (t : TupleStream) (h : ρ a b) :
    t.transduce (.steady fun a u s => (judge a u, s)) a =
      t.transduce (.steady fun b u s => (judge' b u, s)) b := by
  induction t using inductRests generalizing a b with
  | ended => rfl
  | of pull ih =>
    refine congrArg TupleStream.of (funext fun s => ?_)
    have rests := ih s
    -- neither machine looks at the run state, so that the same reply is judged by both
    show (pull s).transduce _ a = (pull s).transduce _ b
    generalize pull s = r at rests
    cases r with
    | failed e s' => rfl
    | finished s' rest => exact congrArg (Reply.finished s') (rests rest rfl h)
    | crashed c s' rest => exact congrArg (Reply.crashed c s') (rests rest rfl h)
    | row u s' rest =>
      have hverdict := hjudge a b u h
      simp only [Reply.transduce, Transducer.steady]
      generalize judge a u = v at hverdict
      generalize judge' b u = v' at hverdict
      cases hverdict with
      | emit w hnext => exact congrArg (Reply.row w s') (rests rest rfl hnext)
      | drop hnext => exact congrArg (TupleStream.pull · s') (rests rest rfl hnext)
      | fail f => exact congrArg (Reply.ofFailure f s') (rests rest rfl h)

/-- Reading with steps that go from related results to related results. -/
theorem drain_both {step : σ → Tuple → Except Failure σ} {step' : τ → Tuple → Except Failure τ}
    (hstep : ∀ a b u, ρ a b → Except.Both ρ (step a u) (step' b u)) (t : TupleStream) (s : RunState)
    (h : ρ a b) :
    (t.drain (fun a u s => (step a u, s)) a s).Both ρ
      (t.drain (fun b u s => (step' b u, s)) b s) := by
  induction t using TupleStream.induct generalizing a b s with
  | step t ih =>
    rw [drain_eq, drain_eq]
    have rests := ih s
    generalize t.pull s = r at rests
    cases r with
    | failed e s' => exact .of .ended s' (.error _)
    | finished s' rest => exact .of rest s' (.ok h)
    | crashed c s' rest => exact .of rest s' (.error _)
    | row u s' rest =>
      have hresult := hstep a b u h
      simp only [Reply.drain]
      generalize step a u = r at hresult
      generalize step' b u = r' at hresult
      cases hresult with
      | ok hnext => exact rests u s' rest rfl s' hnext
      | error f => exact .of rest s' (.error f)

/-- Preparations that come to related things go on alike. -/
theorem afterOthers_congr {α β : Type} {ρ : α → β → Prop}
    {prepare : List TupleStream → RunState → Attempt α}
    {prepare' : List TupleStream → RunState → Attempt β}
    {go : α → TupleStream → TupleStream} {go' : β → TupleStream → TupleStream}
    (h : ∀ others s, (prepare others s).Both ρ (prepare' others s))
    (hgo : ∀ a b, ρ a b → go a = go' b) (inputs : List TupleStream) :
    afterOthers prepare go inputs = afterOthers prepare' go' inputs := by
  unfold afterOthers
  congr 1
  funext inputs s
  cases inputs with
  | nil => rfl
  | cons first others =>
    have hgoes (x : α) (y : β) (hxy : ρ x y) : go x first = go' y first :=
      congrFun (hgo x y hxy) first
    exact ((h others s).after first hgoes).eq

end TupleStream

/-! ### The operators -/

section

variable [Hashable RowKey] [LawfulHashable RowKey]

namespace TupleStream

theorem hashedDistinct_eq (t : TupleStream) : t.hashedDistinct = t.distinct := by
  refine steady_congr (ρ := HoldsRows) ?_ t HoldsRows.empty
  intro seen rows u h
  by_cases hu : u.values ∈ rows
  · rw [if_pos ((h.key u).2 hu), if_pos hu]
    exact .drop h
  · rw [if_neg (mt (h.key u).1 hu), if_neg hu]
    exact .emit u (h.insert u.values)

theorem hashedUnion_eq (distinct : Bool) (cs : List Column) (inputs : List TupleStream) :
    hashedUnion distinct cs inputs = union distinct cs inputs := by
  rw [hashedUnion, union, hashedDistinct_eq]

theorem keysOf_both (cs : List Column) (inputs : List TupleStream) (s : RunState) :
    (keysOf cs inputs s).Both (List.Forall₂ HoldsRows) (rowsOf cs inputs s) := by
  induction inputs generalizing s with
  | nil => exact .of [] s (.ok .nil)
  | cons t rest ih =>
    have hstep (keys : Std.HashSet RowKey) (rows : List (List Value)) (u : Tuple)
        (h : HoldsRows keys rows) :
        Except.Both HoldsRows ((Crash.lifted (align cs u)).map fun u => keys.insert u.key)
          ((Crash.lifted (align cs u)).map fun u => u.values :: rows) := by
      cases Crash.lifted (align cs u) with
      | error f => exact .error f
      | ok u => exact .ok (h.insert u.values)
    have hread := drain_both hstep t s HoldsRows.empty
    simp only [keysOf, rowsOf]
    generalize t.drain _ (∅ : Std.HashSet RowKey) s = read at hread ⊢
    generalize t.drain _ ([] : List (List Value)) s = read' at hread ⊢
    cases hread with
    | of left s' hresult =>
      cases hresult with
      | error f => exact .of (left :: rest) s' (.error f)
      | ok hkeys => exact (ih s').after left fun _ _ h => .cons hkeys h

theorem hashedWithin_eq {keys : List (Std.HashSet RowKey)} {sets : List (List (List Value))}
    (h : List.Forall₂ HoldsRows keys sets) (t : TupleStream) :
    t.hashedWithin keys = t.within sets := by
  refine steady_congr (ρ := HoldsRows) ?_ t HoldsRows.empty
  intro emitted seen u hseen
  have hall : (∀ set ∈ keys, set.contains u.key = true) ↔ ∀ rows ∈ sets, u.values ∈ rows := by
    induction h with
    | nil => simp
    | cons hrows _ ih => rw [List.forall_mem_cons, List.forall_mem_cons, ih, hrows.key]
  simp only [Bool.and_eq_true, List.all_eq_true, Bool.not_eq_true', ← Bool.not_eq_true,
    decide_eq_true_eq, hall, hseen.key]
  split
  · exact .emit u (hseen.insert u.values)
  · exact .drop hseen

theorem hashedIntersect_eq (cs : List Column) (inputs : List TupleStream) :
    hashedIntersect cs inputs = intersect cs inputs := by
  refine afterOthers_congr (keysOf_both cs) (fun keys sets h => ?_) inputs
  exact funext fun first => hashedWithin_eq h (first.changeEach (align cs))

end TupleStream

end

/-! ## Indexes -/

namespace HashIndex

section Entries

variable (v : Value) (row : RowId) (f : Option (List RowId) → Option (List RowId))

/-- The rows of a value once a further row is listed under it. -/
def listed (ids : Option (List RowId)) : Option (List RowId) := some (ids.getD [] ++ [row])

/-- The rows of a value once a row is struck from under it. -/
def struck (ids : Option (List RowId)) : Option (List RowId) :=
  ids.bind fun ids =>
    let left := ids.filter (· ≠ row)
    if left.isEmpty then none else some left

/-- Changes the rows listed under one value. -/
def alterEntry : List (Value × List RowId) → List (Value × List RowId)
  | [] => (f none).toList.map (v, ·)
  | (w, ids) :: rest =>
    if w = v then (f (some ids)).toList.map (w, ·) ++ rest else (w, ids) :: alterEntry rest

theorem addEntry_eq (entries : List (Value × List RowId)) :
    addEntry v row entries = alterEntry v (listed row) entries := by
  induction entries with
  | nil => rfl
  | cons entry rest ih =>
    rw [addEntry, alterEntry, ih]
    rfl

theorem removeEntry_eq (entries : List (Value × List RowId)) :
    removeEntry v row entries = alterEntry v (struck row) entries := by
  induction entries with
  | nil => rfl
  | cons entry rest ih =>
    rw [removeEntry, alterEntry, ih]
    refine ite_congr rfl (fun _ => ?_) fun _ => rfl
    simp only [struck, Option.bind_some]
    split <;> rfl

variable {v f}

theorem lookup_alterEntry (w : Value) {entries : List (Value × List RowId)}
    (h : (entries.map (·.1)).Nodup) :
    (alterEntry v f entries).lookup w =
      if w = v then f (entries.lookup v) else entries.lookup w := by
  induction entries with
  | nil => cases hf : f none <;> by_cases hw : w = v <;> simp [alterEntry, lookup_entry, hf, hw]
  | cons entry rest ih =>
    obtain ⟨u, ids⟩ := entry
    obtain ⟨hu, hrest⟩ := List.nodup_cons.1 h
    have hnone : rest.lookup u = none := lookup_eq_none u hu
    by_cases huv : u = v
    · subst huv
      cases hf : f (some ids) <;> by_cases hw : w = u <;>
        simp [alterEntry, lookup_entry, hf, hw, hnone]
    · by_cases hw : w = u
      · simp [alterEntry, hw, huv]
      · simp [alterEntry, lookup_entry, hw, huv, Ne.symm huv, ih hrest]

/-- The number of values listed goes up if the value is new and down if it has no rows left. -/
theorem length_alterEntry (entries : List (Value × List RowId)) :
    (alterEntry v f entries).length =
      if (entries.lookup v).isSome ∧ (f (entries.lookup v)).isNone then entries.length - 1
      else if ¬ (entries.lookup v).isSome ∧ (f (entries.lookup v)).isSome then entries.length + 1
      else entries.length := by
  induction entries with
  | nil => cases hf : f none <;> simp [alterEntry, hf]
  | cons entry rest ih =>
    obtain ⟨u, ids⟩ := entry
    by_cases huv : u = v
    · subst huv
      cases hf : f (some ids) <;> simp [alterEntry, hf]
    · have hlookup : ((u, ids) :: rest).lookup v = rest.lookup v := by
        rw [lookup_entry, if_neg (Ne.symm huv)]
      -- where an entry goes, there is one: the subtraction below does not stop at zero
      have hfound : (rest.lookup v).isSome → 0 < rest.length := by
        cases rest <;> simp
      rw [alterEntry, if_neg huv, List.length_cons, List.length_cons, ih, hlookup]
      split_ifs <;> grind

end Entries

/-! ### Changes to an index -/

/-- A row that is listed under a value or struck from under it. -/
inductive Edit where
  | add (v : Value) (row : RowId)
  | remove (v : Value) (row : RowId)

def edit (x : HashIndex) : Edit → HashIndex
  | .add v row => x.add v row
  | .remove v row => x.remove v row

section

variable [Hashable RowKey]

/-- An edit of the rows of every value, in a hash table. -/
def editTable (table : Std.HashMap RowKey (List RowId)) :
    Edit → Std.HashMap RowKey (List RowId)
  | .add v row => table.alter ⟨[v]⟩ (listed row)
  | .remove v row => table.alter ⟨[v]⟩ (struck row)

/-- A hash table has the rows of every value, and no further keys. -/
structure Holds (table : Std.HashMap RowKey (List RowId)) (entries : List (Value × List RowId)) :
    Prop where
  keys : (entries.map (·.1)).Nodup
  get : ∀ v, table[(⟨[v]⟩ : RowKey)]? = entries.lookup v
  size : table.size = entries.length

variable {table : Std.HashMap RowKey (List RowId)} {entries : List (Value × List RowId)}

namespace Holds

theorem empty : Holds ∅ [] := ⟨List.nodup_nil, fun _ => Std.HashMap.getElem?_empty, rfl⟩

variable [LawfulHashable RowKey]

theorem alter (h : Holds table entries) {v : Value} {f : Option (List RowId) → Option (List RowId)}
    (hkeys : ((alterEntry v f entries).map (·.1)).Nodup) :
    Holds (table.alter ⟨[v]⟩ f) (alterEntry v f entries) := by
  refine ⟨hkeys, fun w => ?_, ?_⟩
  · have hkey : ((⟨[v]⟩ : RowKey) == ⟨[w]⟩) = true ↔ w = v := by
      rw [RowKey.beq_iff, RowKey.mk.injEq, List.singleton_inj, eq_comm]
    simp only [Std.HashMap.getElem?_alter, hkey, h.get, lookup_alterEntry w h.keys]
  · simp only [Std.HashMap.size_alter, Std.HashMap.mem_iff_isSome_getElem?, h.get, h.size,
      length_alterEntry]

theorem edit {x : HashIndex} (h : Holds table x.entries) (e : Edit) :
    Holds (editTable table e) (x.edit e).entries := by
  cases e with
  | add v row =>
    have hkeys := keys_addEntry v row h.keys
    rw [addEntry_eq] at hkeys
    show Holds (table.alter ⟨[v]⟩ (listed row)) (addEntry v row x.entries)
    rw [addEntry_eq]
    exact h.alter hkeys
  | remove v row =>
    have hkeys := (removeEntry_sublist v row x.entries).nodup h.keys
    rw [removeEntry_eq] at hkeys
    show Holds (table.alter ⟨[v]⟩ (struck row)) (removeEntry v row x.entries)
    rw [removeEntry_eq]
    exact h.alter hkeys

theorem edits {x : HashIndex} (h : Holds table x.entries) (es : List Edit) :
    Holds (es.foldl editTable table) (es.foldl HashIndex.edit x).entries := by
  induction es generalizing table x with
  | nil => exact h
  | cons e es ih => exact ih (h.edit e)

theorem getD {x : HashIndex} (h : Holds table x.entries) (v : Value) :
    table.getD ⟨[v]⟩ [] = x.lookup v := by
  rw [Std.HashMap.getD_eq_getD_getElem?, h.get, lookup]

end Holds

end

end HashIndex

/-! ## Main theorem -/

namespace RowKey

/-- Equality of keys is an equivalence, and equal keys feed the same pieces to a hash function. Set
operators and indexes on hash tables of keys, with any hash function, do as those on lists do. -/
theorem lawful :
    (Equivalence fun k l : RowKey => (k == l) = true) ∧
    (∀ k l : RowKey, (k == l) = true → k.pieces = l.pieces ∧ ∀ H : Hasher, H.hash k = H.hash l) ∧
    ∀ H : Hasher, letI := H.hashable
      (∀ distinct cs inputs,
        TupleStream.hashedUnion distinct cs inputs = TupleStream.union distinct cs inputs) ∧
      (∀ cs inputs, TupleStream.hashedIntersect cs inputs = TupleStream.intersect cs inputs) ∧
      ∀ name c (edits : List HashIndex.Edit),
        let table := edits.foldl HashIndex.editTable ∅
        let x := edits.foldl HashIndex.edit (.empty name c)
        (∀ v, table.getD ⟨[v]⟩ [] = x.lookup v) ∧ table.size = x.entries.length := by
  refine ⟨⟨fun _ => beq_self_eq_true _, BEq.symm, BEq.trans⟩, fun k l h => ?_, fun H => ?_⟩
  · cases eq_of_beq h
    exact ⟨rfl, fun _ => rfl⟩
  · let := H.hashable
    have := H.lawfulHashable
    refine ⟨TupleStream.hashedUnion_eq, TupleStream.hashedIntersect_eq, fun name c edits => ?_⟩
    have h : HashIndex.Holds (edits.foldl HashIndex.editTable ∅)
        (edits.foldl HashIndex.edit (.empty name c)).entries := HashIndex.Holds.empty.edits edits
    exact ⟨h.getD, h.size⟩

/-- A NaN, which is unequal to itself as a number, is found again, and zeros of both signs are told
apart. -/
theorem lawful_nan :
    let nan : Value := .double .invalid
    let zeros : List Value := [.double ⟨0⟩, .double ⟨0x8000000000000000⟩]
    let k : RowKey := ⟨[nan, .floatVector [.invalid]]⟩
    let l : RowKey := ⟨[.double ⟨0xfff8000000000000⟩, .floatVector [⟨0xffc00000⟩]]⟩
    let edits := [.add nan 1, .add nan 2, .remove nan 1] ++ zeros.map (HashIndex.Edit.add · 3)
    letI := Hasher.wordMix.hashable
    let table := edits.foldl HashIndex.editTable ∅
    nan.numericEq nan = false ∧ (k == l) = true ∧ Hasher.wordMix.hash k = Hasher.wordMix.hash l ∧
      table.getD ⟨[nan]⟩ [] = [2] ∧ table.size = 3 := by
  intro nan zeros k l edits
  have hkey : (k == l) = true := by decide
  obtain ⟨-, hhash, hoperators⟩ := lawful
  obtain ⟨-, -, hindex⟩ := hoperators Hasher.wordMix
  obtain ⟨hrows, hsize⟩ := hindex "index" ⟨"column", .double, false⟩ edits
  exact ⟨by decide, hkey, (hhash k l hkey).2 _, (hrows nan).trans (by decide),
    hsize.trans (by decide)⟩

end RowKey

end QueryEngine
