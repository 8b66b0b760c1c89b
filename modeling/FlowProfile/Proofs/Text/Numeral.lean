import FlowProfile.Text.Numeral
import Mathlib.Tactic

/-!
# Numerals

Which texts are decimal integers, digit by digit, and which integer each of them is. The functions
that read integers accept these texts and no others.
-/

namespace FlowProfile.Numeral

/-- One or more digits and the number that they write. Digits may be zeros. -/
inductive Digits : List Char → ℕ → Prop
  | single {c : Char} (hc : c.isDigit) : Digits [c] (c.toNat - '0'.toNat)
  | snoc {cs : List Char} {n : ℕ} {c : Char} (h : Digits cs n) (hc : c.isDigit) :
      Digits (cs ++ [c]) (10 * n + (c.toNat - '0'.toNat))

/-- Digits, and a plus sign or none before them. -/
inductive Unsigned : List Char → ℕ → Prop
  | bare {cs : List Char} {n : ℕ} (h : Digits cs n) : Unsigned cs n
  | plus {cs : List Char} {n : ℕ} (h : Digits cs n) : Unsigned ('+' :: cs) n

/-- Digits, and a plus sign, a minus sign or none before them. -/
inductive Signed : List Char → ℤ → Prop
  | unsigned {cs : List Char} {n : ℕ} (h : Unsigned cs n) : Signed cs n
  | minus {cs : List Char} {n : ℕ} (h : Digits cs n) : Signed ('-' :: cs) (-n)

variable {cs : List Char} {n : ℕ} {c : Char}

/-! ### Digits -/

theorem Digits.ne_nil (h : Digits cs n) : cs ≠ [] := by
  cases h <;> simp

theorem Digits.isDigit (h : Digits cs n) : ∀ c ∈ cs, c.isDigit := by
  induction h with
  | single hc => simpa using hc
  | snoc _ hc ih => simpa [or_imp, forall_and] using ⟨ih, hc⟩

theorem Digits.value (h : Digits cs n) : Nat.ofDigitChars 10 cs 0 = n := by
  induction h with
  | single => simp [Nat.ofDigitChars]
  | snoc _ _ ih => rw [Nat.ofDigitChars_append, ih, Nat.ofDigitChars_cons, Nat.ofDigitChars_nil]

theorem digits_of_isDigit (hne : cs ≠ []) (h : ∀ c ∈ cs, c.isDigit) :
    Digits cs (Nat.ofDigitChars 10 cs 0) := by
  induction cs using List.reverseRecOn with
  | nil => contradiction
  | append_singleton cs c ih =>
      have hc : c.isDigit := h c (by simp)
      rw [Nat.ofDigitChars_append]
      rcases cs.eq_nil_or_concat with rfl | ⟨init, last, rfl⟩
      · simpa [Nat.ofDigitChars] using Digits.single hc
      · exact (ih (by simp) fun d hd => h d (List.mem_append_left _ hd)).snoc hc

theorem natural?_eq_some_iff : natural? cs = some n ↔ Digits cs n := by
  unfold natural?
  constructor
  · intro h
    split at h
    case isTrue hdigits =>
        obtain rfl := Option.some.inj h
        exact digits_of_isDigit hdigits.1 (List.all_eq_true.mp hdigits.2)
    case isFalse => cases h
  · intro h
    rw [if_pos ⟨h.ne_nil, List.all_eq_true.mpr h.isDigit⟩, h.value]

/-- A sign is no digit. -/
theorem not_digits_cons (hc : c.isDigit = false) : ¬Digits (c :: cs) n :=
  fun h => by simpa [hc] using h.isDigit c List.mem_cons_self

/-! ### Signs -/

theorem unsigned?_eq_some_iff : unsigned? cs = some n ↔ Unsigned cs n := by
  unfold unsigned?
  split
  · rw [natural?_eq_some_iff]
    refine ⟨.plus, fun h => ?_⟩
    cases h with
    | bare h => exact absurd h (not_digits_cons rfl)
    | plus h => exact h
  · next hsign =>
    rw [natural?_eq_some_iff]
    refine ⟨.bare, fun h => ?_⟩
    cases h with
    | bare h => exact h
    | plus h => exact absurd rfl (hsign _)

theorem signed?_eq_some_iff {i : ℤ} : signed? cs = some i ↔ Signed cs i := by
  unfold signed?
  split
  · next cs =>
    simp only [Option.map_eq_some_iff, Option.bind_eq_bind, Option.bind_eq_some_iff,
      Option.pure_def, Option.some_inj, natural?_eq_some_iff]
    constructor
    · rintro ⟨_, ⟨n, h, rfl⟩, rfl⟩
      exact .minus h
    · intro h
      cases h with
      | unsigned h =>
          cases h with
          | bare h => exact absurd h (not_digits_cons rfl)
      | minus h => exact ⟨_, ⟨_, h, rfl⟩, rfl⟩
  · next hsign =>
    simp only [Option.map_eq_some_iff, unsigned?_eq_some_iff]
    constructor
    · rintro ⟨n, h, rfl⟩
      exact .unsigned h
    · intro h
      cases h with
      | unsigned h => exact ⟨_, h, rfl⟩
      | minus h => exact absurd rfl (hsign _)

/-! ### Bounds -/

theorem below?_eq_some_iff {bound : ℕ} {s : String} :
    below? bound s = some n ↔ Unsigned s.toList n ∧ n < bound := by
  simp [below?, unsigned?_eq_some_iff]

/-- An integer of 64 bits, if the text is one. -/
theorem within?_eq_some_iff {s : String} {i : ℤ} :
    within? 64 s = some i ↔ Signed s.toList i ∧ -2 ^ 63 ≤ i ∧ i < 2 ^ 63 := by
  simp [within?, signed?_eq_some_iff]

/-- Leading zeros and a plus sign are allowed. Of two signs the second one is no digit. -/
example : signed? "+007".toList = some 7 ∧ signed? "-0".toList = some 0 ∧
    signed? "+-7".toList = none ∧ signed? "-".toList = none := by decide

end FlowProfile.Numeral
