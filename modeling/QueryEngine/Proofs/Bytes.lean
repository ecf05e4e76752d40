import Mathlib.Tactic.Common
import QueryEngine.Plan.Projection

/-!
# Reading bytes back

Words and sized texts tell where they end. A text without its size ends where a byte stands that no
printable text has, or where the size of something further begins.
-/

set_option autoImplicit false

namespace QueryEngine

/-! ## Words -/

theorem littleEndian_succ (k n : Nat) :
    littleEndian (k + 1) n = UInt8.ofNat n :: littleEndian k (n / 256) := by
  simp only [littleEndian, List.range_succ_eq_map, List.map_cons, List.map_map, List.cons.injEq]
  constructor
  · simp
  · apply List.map_congr_left
    intro i _
    have hshift : n >>> (8 * (i + 1)) = (n / 256) >>> (8 * i) := by
      rw [Nat.mul_succ, Nat.add_comm, Nat.shiftRight_add, Nat.shiftRight_eq_div_pow n 8]
    simp [hshift]

theorem littleEndian_length (k n : Nat) : (littleEndian k n).length = k := by
  simp [littleEndian]

theorem ofLittleEndian_littleEndian {k n : Nat} (h : n < Nat.pow 256 k) :
    ofLittleEndian (littleEndian k n) = n := by
  induction k generalizing n with
  | zero =>
    have hn : n = 0 := Nat.lt_one_iff.1 h
    subst hn
    rfl
  | succ k ih =>
    have hdiv : n / 256 < Nat.pow 256 k := by
      apply Nat.div_lt_of_lt_mul
      rw [Nat.mul_comm]
      exact h
    rw [littleEndian_succ, ofLittleEndian, ih hdiv, UInt8.toNat_ofNat']
    omega

theorem littleEndian_append_inj {k n m : Nat} {r r' : List UInt8}
    (hn : n < Nat.pow 256 k) (hm : m < Nat.pow 256 k) (h : littleEndian k n ++ r = littleEndian k m ++ r') : n = m ∧ r = r' := by
  have hlength : (littleEndian k n).length = (littleEndian k m).length := by
    rw [littleEndian_length, littleEndian_length]
  obtain ⟨hword, hrest⟩ := List.append_inj h hlength
  constructor
  · rw [← ofLittleEndian_littleEndian hn, hword, ofLittleEndian_littleEndian hm]
  · exact hrest

theorem bytes64_append_inj {v w : UInt64} {r r' : List UInt8}
    (h : bytes64 v ++ r = bytes64 w ++ r') : v = w ∧ r = r' := by
  obtain ⟨hword, hrest⟩ := littleEndian_append_inj v.toNat_lt w.toNat_lt h
  exact ⟨UInt64.toNat_inj.1 hword, hrest⟩

theorem bytes32_append_inj {v w : UInt32} {r r' : List UInt8}
    (h : bytes32 v ++ r = bytes32 w ++ r') : v = w ∧ r = r' := by
  obtain ⟨hword, hrest⟩ := littleEndian_append_inj v.toNat_lt w.toNat_lt h
  exact ⟨UInt32.toNat_inj.1 hword, hrest⟩

/-- The upper half of a small word is zero. -/
theorem getElem?_littleEndian_append {n i : Nat} (hn : n < UInt32.size) (hi : 4 ≤ i) (hi' : i < 8)
    (r : List UInt8) : (littleEndian 8 n ++ r)[i]? = some 0 := by
  have hzero : n >>> (8 * i) = 0 := by
    rw [Nat.shiftRight_eq_div_pow]
    apply Nat.div_eq_of_lt
    have hpow : 2 ^ (8 * 4) ≤ 2 ^ (8 * i) := Nat.pow_le_pow_right (by decide) (by omega)
    exact Nat.lt_of_lt_of_le hn hpow
  rw [List.getElem?_append_left (by rw [littleEndian_length]; exact hi')]
  simp [littleEndian, hi', hzero]

/-! ## Texts -/

theorem utf8Bytes_length (s : String) : (utf8Bytes s).length = s.utf8ByteSize := rfl

theorem utf8Bytes_inj {s s' : String} (h : utf8Bytes s = utf8Bytes s') : s = s' := by
  apply String.toByteArray_inj.1
  apply ByteArray.ext
  exact Array.toList_inj.1 h

theorem sizedBytes_append_inj {s s' : String} {r r' : List UInt8} (hs : s.utf8ByteSize < UInt64.size)
    (hs' : s'.utf8ByteSize < UInt64.size) (h : sizedBytes s ++ r = sizedBytes s' ++ r') :
    s = s' ∧ r = r' := by
  simp only [sizedBytes, List.append_assoc] at h
  obtain ⟨hsize, h⟩ := littleEndian_append_inj hs hs' h
  rw [← utf8Bytes_length, ← utf8Bytes_length] at hsize
  obtain ⟨hbytes, hrest⟩ := List.append_inj h hsize
  exact ⟨utf8Bytes_inj hbytes, hrest⟩

/-- Texts of less than four gigabytes without control characters. -/
structure Plain (s : String) : Prop where
  printable : ∀ b ∈ utf8Bytes s, 32 ≤ b
  short : s.utf8ByteSize < UInt32.size

theorem Plain.size_lt {s : String} (h : Plain s) : s.utf8ByteSize < UInt64.size :=
  Nat.lt_trans h.short (by decide)

/-- What stands behind a text without a size: a tag, or a small word which is zero or has something
behind it that begins with no zero. -/
inductive Follows : Bool → List UInt8 → Prop
  | tag {b : UInt8} (r : List UInt8) : b < 32 → Follows false (b :: r)
  | word {n : Nat} {r : List UInt8} : n < UInt32.size → (n ≠ 0 → ∃ b x, r = b :: x ∧ b ≠ 0) →
    Follows true (littleEndian 8 n ++ r)

theorem Follows.not_append {sized : Bool} {more r : List UInt8} (hmore : ∀ b ∈ more, 32 ≤ b)
    (h : Follows sized (more ++ r)) (hr : Follows sized r) : more = [] := by
  cases more with
  | nil => rfl
  | cons b more =>
    exfalso
    have hb : 32 ≤ b := hmore b List.mem_cons_self
    generalize hall : b :: more ++ r = all at h
    cases h with
    | tag rest hlt =>
      obtain ⟨rfl, -⟩ := List.cons.inj hall
      exact absurd hlt (UInt8.not_lt.2 hb)
    | @word n x hn hx =>
      generalize hrest : r = rest at hr
      cases hr with
      | @word m y hm _ =>
        -- The text covers a lower part of the first word, so that what is behind this word falls
        -- into the upper half of the second one.
        have hn0 : n ≠ 0 := by
          rintro rfl
          rw [littleEndian_succ, List.cons_append, List.cons_append] at hall
          obtain ⟨rfl, -⟩ := List.cons.inj hall
          exact absurd hb (by decide)
        obtain ⟨d, x, rfl, hd⟩ := hx hn0
        have hlength : more.length < 4 := by
          apply Nat.lt_of_not_le
          intro hle
          have hzero := getElem?_littleEndian_append hn (Nat.le_refl 4) (by decide) (d :: x)
          rw [← hall, List.getElem?_append_left (by simp; omega)] at hzero
          have hle := hmore 0 (List.mem_of_getElem? hzero)
          exact absurd hle (by decide)
        have hplace : (b :: more ++ r)[8]? = some d := by
          rw [hall, List.getElem?_append_right (Nat.le_of_eq (littleEndian_length 8 n)),
            littleEndian_length]
          rfl
        rw [List.getElem?_append_right (by simp; omega), hrest,
          getElem?_littleEndian_append hm (by simp; omega) (by simp; omega)] at hplace
        exact hd (Option.some.inj hplace).symm

/-- A list of known length is read back entry by entry. -/
theorem flatMap_append_inj {α : Type} {code : α → List UInt8} {known : α → Prop}
    (hcode : ∀ {a b r r'}, known a → known b → code a ++ r = code b ++ r' → a = b ∧ r = r')
    {as bs : List α} {r r' : List UInt8} (has : ∀ a ∈ as, known a) (hbs : ∀ b ∈ bs, known b)
    (hlength : as.length = bs.length) (h : as.flatMap code ++ r = bs.flatMap code ++ r') :
    as = bs ∧ r = r' := by
  induction as generalizing bs with
  | nil =>
    cases bs with
    | nil => exact ⟨rfl, h⟩
    | cons b bs => cases hlength
  | cons a as ih =>
    cases bs with
    | nil => cases hlength
    | cons b bs =>
      rw [List.flatMap_cons, List.flatMap_cons, List.append_assoc, List.append_assoc] at h
      obtain ⟨rfl, hbehind⟩ := hcode (has a List.mem_cons_self) (hbs b List.mem_cons_self) h
      obtain ⟨rfl, hrest⟩ := ih (fun a ha => has a (List.mem_cons_of_mem _ ha))
        (fun b hb => hbs b (List.mem_cons_of_mem _ hb)) (Nat.succ.inj hlength) hbehind
      exact ⟨rfl, hrest⟩

/-- A plain text ends before what follows it. -/
theorem utf8Bytes_append_inj {sized : Bool} {s s' : String} {r r' : List UInt8} (hs : Plain s)
    (hs' : Plain s') (hr : Follows sized r) (hr' : Follows sized r')
    (h : utf8Bytes s ++ r = utf8Bytes s' ++ r') : s = s' ∧ r = r' := by
  rcases List.append_eq_append_iff.1 h with ⟨more, hbytes, hrest⟩ | ⟨more, hbytes, hrest⟩
  · have hmore : ∀ b ∈ more, 32 ≤ b := by
      intro b hb
      apply hs'.printable
      rw [hbytes]
      exact List.mem_append_right _ hb
    rw [hrest] at hr
    have hnil := hr.not_append hmore hr'
    subst hnil
    rw [List.append_nil] at hbytes
    exact ⟨utf8Bytes_inj hbytes.symm, hrest⟩
  · have hmore : ∀ b ∈ more, 32 ≤ b := by
      intro b hb
      apply hs.printable
      rw [hbytes]
      exact List.mem_append_right _ hb
    rw [hrest] at hr'
    have hnil := hr'.not_append hmore hr
    subst hnil
    rw [List.append_nil] at hbytes
    exact ⟨utf8Bytes_inj hbytes, hrest.symm⟩

end QueryEngine
