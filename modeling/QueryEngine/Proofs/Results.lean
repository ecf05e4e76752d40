import Mathlib.Data.List.Forall2
import QueryEngine.Error

/-!
# Results of steps that may fail

Inversion of `Except` computations, and the relation of two results that come out alike.
-/

set_option autoImplicit false

namespace QueryEngine

section Inversion

variable {ε α β : Type}

theorem Except.map_eq_ok {f : α → β} {r : Except ε α} {b : β} :
    r.map f = .ok b ↔ ∃ a, r = .ok a ∧ f a = b := by
  cases r <;> simp [Except.map]

theorem Except.bind_eq_ok {f : α → Except ε β} {r : Except ε α} {b : β} :
    (r >>= f) = .ok b ↔ ∃ a, r = .ok a ∧ f a = .ok b := by
  cases r <;> simp [bind, Except.bind]

theorem Except.map_eq_error {f : α → β} {r : Except ε α} {e : ε} :
    r.map f = .error e ↔ r = .error e := by
  cases r <;> simp [Except.map]

theorem Except.bind_eq_error {f : α → Except ε β} {r : Except ε α} {e : ε} :
    (r >>= f) = .error e ↔ r = .error e ∨ ∃ a, r = .ok a ∧ f a = .error e := by
  cases r <;> simp [bind, Except.bind]

theorem Except.andThen_eq_ok {r r' : Except ε Unit} :
    (do r; r') = .ok () ↔ r = .ok () ∧ r' = .ok () := by
  cases r <;> simp [bind, Except.bind]

theorem Except.mapM_eq_ok {f : α → Except ε β} {l : List α} {found : List β} :
    l.mapM f = .ok found ↔ List.Forall₂ (fun a b => f a = .ok b) l found := by
  induction l generalizing found with
  | nil => simp [pure, Except.pure, eq_comm]
  | cons a l ih =>
    rw [List.mapM_cons, Except.bind_eq_ok, List.forall₂_cons_left_iff]
    constructor
    · rintro ⟨b, hb, h⟩
      obtain ⟨rest, hrest, h⟩ := Except.bind_eq_ok.1 h
      cases h
      exact ⟨b, rest, hb, ih.1 hrest, rfl⟩
    · rintro ⟨b, rest, hb, hrest, rfl⟩
      exact ⟨b, hb, Except.bind_eq_ok.2 ⟨rest, ih.2 hrest, rfl⟩⟩

theorem Except.mapM_ok {f : α → Except ε β} {g : α → β} {l : List α}
    (h : ∀ a ∈ l, f a = .ok (g a)) : l.mapM f = .ok (l.map g) :=
  Except.mapM_eq_ok.2 (List.forall₂_map_right_iff.2 (List.forall₂_same.2 h))

theorem Except.filterM_ok {p : α → Except ε Bool} {q : α → Bool} {l : List α}
    (h : ∀ a ∈ l, p a = .ok (q a)) : l.filterM p = .ok (l.filter q) := by
  have haux (found : List α) : List.filterAuxM p l found = .ok ((l.filter q).reverse ++ found) := by
    induction l generalizing found with
    | nil => rfl
    | cons a l ih =>
      rw [List.filterAuxM, h a List.mem_cons_self]
      change List.filterAuxM p l (bif q a then a :: found else found) = _
      rw [ih fun b hb => h b (List.mem_cons_of_mem _ hb)]
      cases hq : q a <;> simp [hq]
  simp [List.filterM, haux, bind, Except.bind, pure, Except.pure]

theorem Except.mapM_length {f : α → Except ε β} {l : List α} {found : List β}
    (h : l.mapM f = .ok found) : found.length = l.length :=
  (Except.mapM_eq_ok.1 h).length_eq.symm

theorem Crash.lifted_eq_ok {r : Except Crash α} {a : α} : Crash.lifted r = .ok a ↔ r = .ok a := by
  cases r <;> simp [Crash.lifted, Except.mapError]

theorem Except.toOption_eq_some {r : Except ε α} {a : α} : r.toOption = some a ↔ r = .ok a := by
  cases r <;> simp [Except.toOption]

theorem findIdx?_eq_none [DecidableEq α] {l : List α} {a : α} :
    l.findIdx? (· = a) = none ↔ a ∉ l := by
  rw [List.findIdx?_eq_none_iff]
  constructor
  · intro h ha
    exact of_decide_eq_false (h a ha) rfl
  · intro h b hb
    rw [decide_eq_false_iff_not]
    rintro rfl
    exact h hb

theorem exists_mem_of_forall₂ {R : α → β → Prop} {l : List α} {m : List β} (h : List.Forall₂ R l m)
    {b : β} (hb : b ∈ m) : ∃ a ∈ l, R a b := by
  induction h with
  | nil => cases hb
  | cons ha _ ih =>
    rcases List.mem_cons.1 hb with rfl | hb
    · exact ⟨_, List.mem_cons_self, ha⟩
    · obtain ⟨a, hmem, ha⟩ := ih hb
      exact ⟨a, List.mem_cons_of_mem _ hmem, ha⟩

theorem forall₂_mem {R : α → β → Prop} {l : List α} {m : List β} (h : List.Forall₂ R l m) :
    List.Forall₂ (fun a b => a ∈ l ∧ R a b) l m :=
  (List.forall₂_and_left l m).2 ⟨fun _ ha => ha, h⟩

/-- Of two lists that are related to a third one, the entries are related with one another. -/
theorem forall₂_meet {α β γ : Type} {R : α → β → Prop} {R' : α → γ → Prop} {S : β → γ → Prop}
    {as : List α} {bs : List β} {cs : List γ} (h : List.Forall₂ R as bs)
    (h' : List.Forall₂ R' as cs) (hS : ∀ a ∈ as, ∀ b c, R a b → R' a c → S b c) :
    List.Forall₂ S bs cs := by
  induction h generalizing cs with
  | nil =>
    cases h'
    exact .nil
  | @cons a b as bs hab _ ih =>
    cases h' with
    | cons hac hrest =>
      exact .cons (hS a List.mem_cons_self _ _ hab hac)
        (ih hrest fun a' ha' => hS a' (List.mem_cons_of_mem _ ha'))

/-- What is related through the entries of a list between. -/
theorem forall₂_through {α β γ : Type} {R : α → β → Prop} {S : β → γ → Prop} {T : α → γ → Prop}
    {as : List α} {bs : List β} {cs : List γ} (h : List.Forall₂ R as bs) (h' : List.Forall₂ S bs cs)
    (hT : ∀ a ∈ as, ∀ b c, R a b → S b c → T a c) : List.Forall₂ T as cs := by
  induction h generalizing cs with
  | nil =>
    cases h'
    exact .nil
  | @cons a b as bs hab _ ih =>
    cases h' with
    | cons hbc hrest =>
      exact .cons (hT a List.mem_cons_self _ _ hab hbc)
        (ih hrest fun a' ha' => hT a' (List.mem_cons_of_mem _ ha'))

theorem eq_singleton_of_forall₂ {R : α → β → Prop} {l : List α} {b : β}
    (h : List.Forall₂ R l [b]) : ∃ a, R a b ∧ l = [a] := by
  obtain ⟨a, rest, ha, hrest, rfl⟩ := List.forall₂_cons_right_iff.1 h
  exact ⟨a, ha, by rw [List.forall₂_nil_right_iff.1 hrest]⟩

theorem exists_forall₂ {R : α → β → Prop} {l : List α} (h : ∀ a ∈ l, ∃ b, R a b) :
    ∃ m, List.Forall₂ R l m := by
  induction l with
  | nil => exact ⟨[], .nil⟩
  | cons a rest ih =>
    obtain ⟨b, hb⟩ := h a List.mem_cons_self
    obtain ⟨m, hm⟩ := ih fun a ha => h a (List.mem_cons_of_mem _ ha)
    exact ⟨b :: m, .cons hb hm⟩

/-- What is found for each element of a list is related to a second list. -/
theorem Except.exists_mapM {γ : Type} {f : α → Except ε β} {R : β → γ → Prop} {l : List α}
    {m : List γ} (h : List.Forall₂ (fun a c => ∃ b, f a = .ok b ∧ R b c) l m) :
    ∃ found, l.mapM f = .ok found ∧ List.Forall₂ R found m := by
  induction h with
  | nil => exact ⟨[], rfl, .nil⟩
  | cons ha _ ih =>
    obtain ⟨b, hb, hR⟩ := ha
    obtain ⟨found, hfound, hall⟩ := ih
    refine ⟨b :: found, ?_, .cons hR hall⟩
    rw [List.mapM_cons, hb, hfound]
    rfl

theorem Except.exists_mapM_id {rs : List (Except ε α)} (h : ∀ r ∈ rs, ∃ a, r = .ok a) :
    ∃ found, rs.mapM id = .ok found := by
  obtain ⟨found, hfound⟩ := exists_forall₂ h
  exact ⟨found, Except.mapM_eq_ok.2 hfound⟩

end Inversion

/-- Results that are both there and related, or the same failure. -/
inductive Except.Both {ε α β : Type} (ρ : α → β → Prop) : Except ε α → Except ε β → Prop
  | ok {a b} : ρ a b → Both ρ (.ok a) (.ok b)
  | error (e) : Both ρ (.error e) (.error e)

theorem Except.Both.map {ε α β γ δ : Type} {ρ : α → β → Prop} {ρ' : γ → δ → Prop} {f : α → γ}
    {g : β → δ} {r : Except ε α} {r' : Except ε β} (h : Except.Both ρ r r')
    (hf : ∀ a b, ρ a b → ρ' (f a) (g b)) : Except.Both ρ' (r.map f) (r'.map g) := by
  cases h with
  | ok ha => exact .ok (hf _ _ ha)
  | error e => exact .error e

end QueryEngine
