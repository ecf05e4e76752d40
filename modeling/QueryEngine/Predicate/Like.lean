import QueryEngine.Crash

/-!
# Patterns with wildcards

In a pattern `%` stands for any run of bytes, `_` for any one byte and every other byte for itself.
Value and pattern are read side by side. At a `%` its run is empty at first; whenever a byte of the
value does not fit, the run of the last `%` takes in one byte more and reading goes on behind both.
Earlier `%` are not gone back to.
-/

set_option autoImplicit false

namespace QueryEngine.Like

/-- The byte of the sign `%`. -/
def anyRun : UInt8 := 37

/-- The byte of the sign `_`. -/
def anyByte : UInt8 := 95

/-- A sign `%` and the bytes of the value that it stands for so far. -/
structure Run where
  /-- The place of the sign in the pattern. -/
  sign : Nat
  /-- The place in the value at which the run ends. -/
  stop : Nat
deriving DecidableEq

/-- How far value and pattern have been read. The last `%` lies behind. -/
structure Place where
  value : Nat
  pattern : Nat
  last : Option Run
  behind : ∀ r ∈ last, r.sign < pattern ∧ r.stop ≤ value
deriving DecidableEq

namespace Place

def start : Place := ⟨0, 0, none, by simp⟩

/-- Enters the run of a `%`. -/
def wildcard (x : Place) : Place :=
  ⟨x.value, x.pattern + 1, some ⟨x.pattern, x.value⟩, by simp⟩

/-- Reads a byte of each. -/
def forward (x : Place) : Place :=
  ⟨x.value + 1, x.pattern + 1, x.last, fun r hr =>
    ⟨Nat.lt_succ_of_lt (x.behind r hr).1, Nat.le_succ_of_le (x.behind r hr).2⟩⟩

/-- Behind a `%` whose run is one byte longer. -/
def lengthened (r : Run) : Place := ⟨r.stop + 1, r.sign + 1, some ⟨r.sign, r.stop + 1⟩, by simp⟩

end Place

/-- What a step of reading comes to. -/
inductive Progress where
  | onward (next : Place)
  | settled (holds : Bool)
  | crashed (c : Crash)
deriving DecidableEq

/-- Goes back to the last `%`. -/
def Place.retry (x : Place) : Progress :=
  match x.last with
  | some r => .onward (lengthened r)
  | none => .settled false

/-- One step of reading. What is left of the pattern behind the end of the value must be `%` only. -/
def Place.step (value pattern : Array UInt8) (x : Place) : Progress :=
  match value[x.value]? with
  | none =>
    if x.pattern ≤ pattern.size then
      .settled ((pattern.toList.drop x.pattern).all (· = anyRun))
    else .crashed .outOfBounds
  | some b =>
    match pattern[x.pattern]? with
    | none => x.retry
    | some p =>
      if p = anyRun then .onward x.wildcard
      else if p = anyByte ∨ p = b then .onward x.forward
      else x.retry

/-- Whether a byte of the value does not fit where a place is in the pattern. -/
def Place.Differs (pattern : Array UInt8) (x : Place) (b : UInt8) : Prop :=
  ∀ p, pattern[x.pattern]? = some p → p ≠ anyRun ∧ p ≠ anyByte ∧ p ≠ b

section

variable {value pattern : Array UInt8} {x next : Place}

/-- What a step does that goes on. -/
theorem Place.step_eq_onward (h : x.step value pattern = .onward next) :
    ∃ b, value[x.value]? = some b ∧
      (pattern[x.pattern]? = some anyRun ∧ next = x.wildcard ∨
        (∃ p, pattern[x.pattern]? = some p ∧ p ≠ anyRun ∧ (p = anyByte ∨ p = b) ∧
          next = x.forward) ∨
        x.Differs pattern b ∧ ∃ r, x.last = some r ∧ next = lengthened r) := by
  have hretry {b : UInt8} (hdiffers : x.Differs pattern b) (h : x.retry = .onward next) :
      x.Differs pattern b ∧ ∃ r, x.last = some r ∧ next = lengthened r := by
    unfold retry at h
    split at h
    · rename_i r hr
      cases h
      exact ⟨hdiffers, r, hr, rfl⟩
    · cases h
  unfold step at h
  split at h
  · split at h <;> cases h
  · rename_i b hb
    refine ⟨b, hb, ?_⟩
    split at h
    · rename_i hp
      exact .inr (.inr (hretry (fun p hp' => by rw [hp] at hp'; cases hp') h))
    · rename_i p hp
      split at h
      · rename_i hrun
        cases h
        exact .inl ⟨hrun ▸ hp, rfl⟩
      · rename_i hrun
        split at h
        · rename_i hfits
          cases h
          exact .inr (.inl ⟨p, hp, hrun, hfits, rfl⟩)
        · rename_i hfits
          refine .inr (.inr (hretry (fun p' hp' => ?_) h))
          obtain rfl : p = p' := Option.some.inj (hp.symm.trans hp')
          exact ⟨hrun, fun he => hfits (.inl he), fun he => hfits (.inr he)⟩

/-- How a step settles a match. -/
theorem Place.step_eq_settled {holds : Bool} (h : x.step value pattern = .settled holds) :
    value[x.value]? = none ∧ holds = (pattern.toList.drop x.pattern).all (· = anyRun) ∨
      (∃ b, value[x.value]? = some b ∧ x.Differs pattern b) ∧ x.last = none ∧ holds = false := by
  have hretry (h : x.retry = .settled holds) : x.last = none ∧ holds = false := by
    unfold retry at h
    split at h
    · cases h
    · rename_i hlast
      cases h
      exact ⟨hlast, rfl⟩
  unfold step at h
  split at h
  · rename_i hend
    split at h
    · cases h
      exact .inl ⟨hend, rfl⟩
    · cases h
  · rename_i b hb
    split at h
    · rename_i hp
      exact .inr ⟨⟨b, hb, fun p hp' => by rw [hp] at hp'; cases hp'⟩, hretry h⟩
    · rename_i p hp
      split at h
      · cases h
      · rename_i hrun
        split at h
        · cases h
        · rename_i hfits
          refine .inr ⟨⟨b, hb, fun p' hp' => ?_⟩, hretry h⟩
          obtain rfl : p = p' := Option.some.inj (hp.symm.trans hp')
          exact ⟨hrun, fun he => hfits (.inl he), fun he => hfits (.inr he)⟩

/-- A step crashes where more of the pattern has been read than there is. -/
theorem Place.step_eq_crashed {c : Crash} (h : x.step value pattern = .crashed c) :
    pattern.size < x.pattern := by
  have hretry : x.retry ≠ .crashed c := by
    unfold retry
    split <;> exact fun he => nomatch he
  unfold step at h
  split at h
  · split at h
    · cases h
    · omega
  · split at h
    · exact absurd h hretry
    · split at h
      · cases h
      · split at h
        · cases h
        · exact absurd h hretry

end

/-! ## The whole match -/

section

variable (value pattern : Array UInt8) (x : Place)

/-- How much of the pattern lies behind the last `%`; more than all if there has been none. -/
def Place.patternLeft : Nat := (x.last.map fun r => pattern.size - r.sign).getD (pattern.size + 1)

/-- How much of the value lies behind the run of the last `%`. -/
def Place.runLeft : Nat := (x.last.map fun r => value.size - r.stop).getD 0

/-- What every step makes smaller: a new `%` the first number, a longer run the second one, two
bytes that fit the last one. -/
def Place.left : Nat × Nat × Nat :=
  (x.patternLeft pattern, x.runLeft value, value.size - x.value)

variable {value pattern x}

theorem Place.step_left {next : Place} (h : x.step value pattern = .onward next) :
    Prod.Lex (· < ·) (Prod.Lex (· < ·) (· < ·)) (next.left value pattern)
      (x.left value pattern) := by
  obtain ⟨b, hb, hnext⟩ := step_eq_onward h
  have hvalue : x.value < value.size := (Array.getElem?_eq_some_iff.1 hb).1
  rcases hnext with ⟨hp, rfl⟩ | ⟨p, _, _, _, rfl⟩ | ⟨_, r, hr, rfl⟩
  · have hpattern : x.pattern < pattern.size := (Array.getElem?_eq_some_iff.1 hp).1
    apply Prod.Lex.left
    cases hlast : x.last with
    | none =>
      simp only [patternLeft, wildcard, hlast, Option.map_some, Option.map_none, Option.getD_some,
        Option.getD_none]
      omega
    | some r =>
      have hsign := (x.behind r hlast).1
      simp only [patternLeft, wildcard, hlast, Option.map_some, Option.getD_some]
      omega
  · refine .right _ (.right _ ?_)
    simp only [forward]
    omega
  · have hstop := (x.behind r hr).2
    simp only [left, patternLeft, runLeft, hr, lengthened, Option.map_some, Option.getD_some]
    exact .right _ (.left _ _ (by omega))

end

/-- Reads on until the match is settled. -/
def follow (value pattern : Array UInt8) (x : Place) : Except Crash Bool :=
  match _h : x.step value pattern with
  | .onward next => follow value pattern next
  | .settled holds => .ok holds
  | .crashed c => .error c
termination_by x.left value pattern
decreasing_by exact Place.step_left _h

/-- Whether a pattern matches the whole of a value. -/
def isMatch (value pattern : List UInt8) : Except Crash Bool :=
  follow value.toArray pattern.toArray .start

end QueryEngine.Like
