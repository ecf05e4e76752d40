import Mathlib.Data.List.Forall2
import QueryEngine.Predicate.Like

/-!
# What patterns match

A pattern matches the values that can be split into parts for its bytes. Reading goes back to the
last `%` only. This is enough: the bytes since then stand for one byte each, so that whatever a longer
run of that `%` leads to lies behind what has been read, and a later `%` can take in the difference.
-/

set_option autoImplicit false

namespace QueryEngine.Like

/-- Whether a part of a value is what a byte of a pattern stands for. -/
def StandsFor (p : UInt8) (part : List UInt8) : Prop :=
  if p = anyRun then True else if p = anyByte then part.length = 1 else part = [p]

/-- Whether a value can be split into what the bytes of a pattern stand for. -/
def Denotes (pattern value : List UInt8) : Prop :=
  ∃ parts : List (List UInt8), parts.flatten = value ∧ List.Forall₂ StandsFor pattern parts

/-! ## Byte by byte -/

section

variable {p b : UInt8} {pattern rest value front : List UInt8} {i j : Nat}

theorem denotes_nil : Denotes [] value ↔ value = [] := by
  constructor
  · rintro ⟨parts, rfl, hparts⟩
    cases hparts
    rfl
  · rintro rfl
    exact ⟨[], rfl, .nil⟩

theorem denotes_cons : Denotes (p :: rest) value ↔
    ∃ part tail, value = part ++ tail ∧ StandsFor p part ∧ Denotes rest tail := by
  constructor
  · rintro ⟨parts, rfl, hparts⟩
    cases hparts with
    | @cons _ part _ parts hpart hparts =>
      exact ⟨part, parts.flatten, rfl, hpart, parts, rfl, hparts⟩
  · rintro ⟨part, _, rfl, hpart, parts, rfl, hparts⟩
    exact ⟨part :: parts, rfl, .cons hpart hparts⟩

theorem standsFor_anyRun (part : List UInt8) : StandsFor anyRun part := by
  rw [StandsFor, if_pos rfl]
  trivial

/-- A `%` takes in any number of bytes. -/
theorem denotes_run : Denotes (anyRun :: rest) value ↔ ∃ k, Denotes rest (value.drop k) := by
  rw [denotes_cons]
  constructor
  · rintro ⟨part, tail, rfl, -, htail⟩
    exact ⟨part.length, by rwa [List.drop_left]⟩
  · rintro ⟨k, hk⟩
    exact ⟨value.take k, value.drop k, (List.take_append_drop k value).symm, standsFor_anyRun _, hk⟩

/-- Any other byte takes in one. -/
theorem denotes_byte (hp : p ≠ anyRun) : Denotes (p :: rest) value ↔
    ∃ b tail, value = b :: tail ∧ (p = anyByte ∨ p = b) ∧ Denotes rest tail := by
  rw [denotes_cons]
  constructor
  · rintro ⟨part, tail, rfl, hpart, htail⟩
    rw [StandsFor, if_neg hp] at hpart
    split at hpart
    · rename_i hany
      obtain ⟨b, rfl⟩ := List.length_eq_one_iff.1 hpart
      exact ⟨b, tail, rfl, .inl hany, htail⟩
    · rw [hpart]
      exact ⟨p, tail, rfl, .inr rfl, htail⟩
  · rintro ⟨b, tail, rfl, hfits, htail⟩
    refine ⟨[b], tail, rfl, ?_, htail⟩
    rw [StandsFor, if_neg hp]
    split
    · rfl
    · rename_i hany
      rw [hfits.resolve_left hany]

theorem denotes_byte_cons (hp : p ≠ anyRun) :
    Denotes (p :: rest) (b :: value) ↔ (p = anyByte ∨ p = b) ∧ Denotes rest value := by
  rw [denotes_byte hp]
  constructor
  · rintro ⟨b, tail, he, hfits, htail⟩
    cases he
    exact ⟨hfits, htail⟩
  · rintro ⟨hfits, htail⟩
    exact ⟨b, value, rfl, hfits, htail⟩

theorem denotes_run_drop_of_le (hij : i ≤ j) (h : Denotes (anyRun :: rest) (value.drop j)) :
    Denotes (anyRun :: rest) (value.drop i) := by
  obtain ⟨k, hk⟩ := denotes_run.1 h
  refine denotes_run.2 ⟨j - i + k, ?_⟩
  rw [List.drop_drop] at hk ⊢
  rwa [show i + (j - i + k) = j + k by omega]

/-- The run of a `%` is empty or takes in the next byte. -/
theorem denotes_run_drop : Denotes (anyRun :: rest) (value.drop i) ↔
    Denotes rest (value.drop i) ∨ Denotes (anyRun :: rest) (value.drop (i + 1)) := by
  constructor
  · intro h
    obtain ⟨k, hk⟩ := denotes_run.1 h
    cases k with
    | zero => exact .inl hk
    | succ k =>
      refine .inr (denotes_run.2 ⟨k, ?_⟩)
      rw [List.drop_drop] at hk ⊢
      rwa [show i + 1 + k = i + (k + 1) by omega]
  · rintro (h | h)
    · exact denotes_run.2 ⟨0, h⟩
    · exact denotes_run_drop_of_le (Nat.le_succ i) h

/-- Bytes other than `%` take in as many bytes. -/
theorem Denotes.behind (hfront : ∀ p ∈ front, p ≠ anyRun) (h : Denotes (front ++ rest) value) :
    Denotes rest (value.drop front.length) := by
  induction front generalizing value with
  | nil => exact h
  | cons p front ih =>
    obtain ⟨hp, hfront⟩ := List.forall_mem_cons.1 hfront
    obtain ⟨b, tail, rfl, -, htail⟩ := (denotes_byte hp).1 h
    exact ih hfront htail

/-- Nothing is left to stand for but empty runs. -/
theorem denotes_empty : Denotes pattern [] ↔ pattern.all (· = anyRun) = true := by
  induction pattern with
  | nil => exact iff_of_true (denotes_nil.2 rfl) rfl
  | cons p rest ih =>
    by_cases hp : p = anyRun
    · subst hp
      simp [denotes_run, ih]
    · simp [denotes_byte hp, hp]

end

/-! ## Step by step -/

theorem drop_of_getElem? {xs : Array UInt8} {i : Nat} {b : UInt8} (h : xs[i]? = some b) :
    xs.toList.drop i = b :: xs.toList.drop (i + 1) := by
  obtain ⟨hi, rfl⟩ := Array.getElem?_eq_some_iff.1 h
  exact List.drop_eq_getElem_cons (by simpa using hi)

/-- What holds wherever a match comes to. -/
structure Place.Sound (value pattern : Array UInt8) (x : Place) : Prop where
  inBounds : x.pattern ≤ pattern.size
  /-- Since the last `%` every byte of the pattern has taken in one byte of the value. -/
  aligned : ∀ r ∈ x.last, ∃ front, (∀ p ∈ front, p ≠ anyRun) ∧
    pattern.toList.drop r.sign = anyRun :: (front ++ pattern.toList.drop x.pattern) ∧
    r.stop + front.length = x.value
  /-- A match goes on from here, or with a longer run of the last `%`. -/
  open_iff : Denotes pattern.toList value.toList ↔
    Denotes (pattern.toList.drop x.pattern) (value.toList.drop x.value) ∨
      ∃ r ∈ x.last, Denotes (pattern.toList.drop r.sign) (value.toList.drop (r.stop + 1))

namespace Place

variable {value pattern : Array UInt8} {x next : Place} {b : UInt8} {r : Run}

theorem sound_start : start.Sound value pattern where
  inBounds := Nat.zero_le _
  aligned := fun _ hr => nomatch hr
  open_iff := by simp [start]

/-- What a longer run of the last `%` leads to lies behind what has been read of the value. -/
theorem Sound.later (h : x.Sound value pattern) (hr : r ∈ x.last)
    (hmatch : Denotes (pattern.toList.drop r.sign) (value.toList.drop (r.stop + 1))) :
    ∃ k, x.value < k ∧ Denotes (pattern.toList.drop x.pattern) (value.toList.drop k) := by
  obtain ⟨front, hfront, hpattern, hlength⟩ := h.aligned r hr
  rw [hpattern] at hmatch
  obtain ⟨k, hk⟩ := denotes_run.1 hmatch
  have hbehind := hk.behind hfront
  rw [List.drop_drop, List.drop_drop] at hbehind
  exact ⟨_, by omega, hbehind⟩

/-- Whatever an earlier `%` could take in, the one that is met now takes in. -/
theorem Sound.wildcard (h : x.Sound value pattern) (hp : pattern[x.pattern]? = some anyRun) :
    x.wildcard.Sound value pattern := by
  have hdrop := drop_of_getElem? hp
  refine ⟨?_, ?_, ?_⟩
  · exact (Array.getElem?_eq_some_iff.1 hp).1
  · intro r hr
    cases hr
    exact ⟨[], by simp, hdrop, rfl⟩
  · have hmatch : Denotes pattern.toList value.toList ↔
        Denotes (pattern.toList.drop x.pattern) (value.toList.drop x.value) := by
      rw [h.open_iff]
      refine ⟨fun hopen => hopen.elim id ?_, .inl⟩
      rintro ⟨r, hr, hlonger⟩
      obtain ⟨k, hk, hlater⟩ := h.later hr hlonger
      rw [hdrop] at hlater ⊢
      exact denotes_run_drop_of_le (Nat.le_of_lt hk) hlater
    rw [hmatch, hdrop, denotes_run_drop]
    simp [Place.wildcard, hdrop]

theorem Sound.forward (h : x.Sound value pattern) {p : UInt8} (hb : value[x.value]? = some b)
    (hp : pattern[x.pattern]? = some p) (hrun : p ≠ anyRun) (hfits : p = anyByte ∨ p = b) :
    x.forward.Sound value pattern := by
  have hdrop := drop_of_getElem? hp
  refine ⟨?_, ?_, ?_⟩
  · exact (Array.getElem?_eq_some_iff.1 hp).1
  · intro r hr
    obtain ⟨front, hfront, hpattern, hlength⟩ := h.aligned r hr
    refine ⟨front ++ [p], ?_, ?_, ?_⟩
    · intro q hq
      rcases List.mem_append.1 hq with hq | hq
      · exact hfront q hq
      · exact List.mem_singleton.1 hq ▸ hrun
    · rw [hpattern, hdrop, List.append_assoc]
      rfl
    · rw [List.length_append, List.length_singleton]
      exact congrArg (· + 1) hlength
  · rw [h.open_iff, hdrop, drop_of_getElem? hb, denotes_byte_cons hrun, and_iff_right hfits]
    rfl

theorem not_denotes_of_differs (hb : value[x.value]? = some b) (h : x.Differs pattern b) :
    ¬ Denotes (pattern.toList.drop x.pattern) (value.toList.drop x.value) := by
  rw [drop_of_getElem? hb]
  cases hp : pattern[x.pattern]? with
  | none =>
    have hend : pattern.size ≤ x.pattern := Array.getElem?_eq_none_iff.1 hp
    rw [List.drop_eq_nil_of_le hend, denotes_nil]
    exact List.cons_ne_nil _ _
  | some p =>
    obtain ⟨hrun, hany, hbyte⟩ := h p hp
    rw [drop_of_getElem? hp, denotes_byte_cons hrun]
    exact fun hmatch => hmatch.1.elim hany hbyte

theorem Sound.lengthened (h : x.Sound value pattern) (hb : value[x.value]? = some b)
    (hdiffers : x.Differs pattern b) (hr : x.last = some r) :
    (lengthened r).Sound value pattern := by
  obtain ⟨front, -, hpattern, -⟩ := h.aligned r hr
  have hsign : pattern.toList.drop r.sign = anyRun :: pattern.toList.drop (r.sign + 1) := by
    rw [← List.drop_drop, hpattern]
    rfl
  refine ⟨?_, ?_, ?_⟩
  · have hlength := congrArg List.length hpattern
    simp only [List.length_drop, List.length_cons, Array.length_toList] at hlength
    simp only [Place.lengthened]
    omega
  · intro r' hr'
    cases hr'
    exact ⟨[], by simp, hsign, rfl⟩
  · rw [h.open_iff, or_iff_right (not_denotes_of_differs hb hdiffers)]
    simp only [hr, Option.mem_some_iff, exists_eq_left', Place.lengthened]
    rw [hsign, denotes_run_drop]

/-- A step leads on to where the same holds, or settles the match rightly. -/
theorem Sound.step (h : x.Sound value pattern) :
    match x.step value pattern with
    | .onward next => next.Sound value pattern
    | .settled holds => holds = true ↔ Denotes pattern.toList value.toList
    | .crashed _ => False := by
  split
  · rename_i next hstep
    obtain ⟨b, hb, hnext⟩ := step_eq_onward hstep
    rcases hnext with ⟨hp, rfl⟩ | ⟨p, hp, hrun, hfits, rfl⟩ | ⟨hdiffers, r, hr, rfl⟩
    · exact h.wildcard hp
    · exact h.forward hb hp hrun hfits
    · exact h.lengthened hb hdiffers hr
  · rename_i holds hstep
    rcases step_eq_settled hstep with ⟨hend, rfl⟩ | ⟨⟨b, hb, hdiffers⟩, hlast, rfl⟩
    · have hsize : value.size ≤ x.value := Array.getElem?_eq_none_iff.1 hend
      have hempty {k : Nat} (hk : x.value ≤ k) : value.toList.drop k = [] :=
        List.drop_eq_nil_of_le (Nat.le_trans hsize hk)
      rw [← denotes_empty, h.open_iff, hempty (Nat.le_refl _)]
      refine ⟨.inl, fun hopen => hopen.elim id ?_⟩
      rintro ⟨r, hr, hlonger⟩
      obtain ⟨k, hk, hlater⟩ := h.later hr hlonger
      rwa [hempty (Nat.le_of_lt hk)] at hlater
    · rw [h.open_iff, hlast]
      simpa using not_denotes_of_differs hb hdiffers
  · rename_i c hstep
    exact absurd h.inBounds (Nat.not_le.2 (step_eq_crashed hstep))

end Place

/-! ## To the end -/

theorem follow_sound (value pattern : Array UInt8) (x : Place) (h : x.Sound value pattern) :
    ∃ holds, follow value pattern x = .ok holds ∧
      (holds = true ↔ Denotes pattern.toList value.toList) := by
  fun_induction follow value pattern x with
  | case1 x next hstep ih =>
    have hnext := h.step
    rw [hstep] at hnext
    exact ih hnext
  | case2 x holds hstep =>
    have hsettled := h.step
    rw [hstep] at hsettled
    exact ⟨holds, rfl, hsettled⟩
  | case3 x c hstep =>
    have hcrashed := h.step
    rw [hstep] at hcrashed
    exact hcrashed.elim

theorem isMatch_sound (value pattern : List UInt8) :
    ∃ holds, isMatch value pattern = .ok holds ∧ (holds = true ↔ Denotes pattern value) :=
  follow_sound value.toArray pattern.toArray .start Place.sound_start

/-- Matching never reads beyond an end, and holds exactly if the value can be split into parts such
that each byte of the pattern stands for its part. -/
theorem isMatch_eq_ok_iff (value pattern : List UInt8) (holds : Bool) :
    isMatch value pattern = .ok holds ↔
      (holds = true ↔ ∃ parts : List (List UInt8), parts.flatten = value ∧
        List.Forall₂ StandsFor pattern parts) := by
  obtain ⟨found, hfound, hiff⟩ := isMatch_sound value pattern
  rw [hfound, Except.ok.injEq, ← Denotes, ← hiff]
  exact Bool.eq_iff_iff.trans Iff.comm

end QueryEngine.Like
