import Wiring.Json.Reader

/-!
# Decimal digits

The digits of a natural number as they are written: they stand for the number, there is no zero
before them, and the token of an integer that is not too large has it as its value.
-/

namespace Wiring.Json

/-- The decimal digits of a natural number. -/
def digits (n : Nat) : List Char := (toString n).toList

theorem digits_eq (n : Nat) : digits n = Nat.toDigits 10 n := Nat.toList_repr

theorem digits_ne_nil (n : Nat) : digits n ≠ [] := by
  rw [digits_eq]
  exact Nat.toDigits_ne_nil

/-- Digits are digits. -/
theorem isDigit_of_mem_digits {n : Nat} {c : Char} (h : c ∈ digits n) : isDigit c := by
  rw [digits_eq] at h
  have hdigit := Nat.isDigit_of_mem_toDigits (by omega) (by omega) h
  rw [Char.isDigit, Bool.and_eq_true, decide_eq_true_eq, decide_eq_true_eq] at hdigit
  rw [isDigit, Bool.and_eq_true, decide_eq_true_eq, decide_eq_true_eq]
  exact hdigit

/-- The digits of a number other than zero do not start with a zero. -/
theorem head_digits_ne_zero {n : Nat} (h : 0 < n) {c : Char} {s : List Char}
    (hc : digits n = c :: s) : c ≠ '0' := by
  rw [digits_eq] at hc
  induction n using Nat.strongRecOn generalizing s with
  | ind n ih =>
    by_cases hlt : n < 10
    · rw [Nat.toDigits_of_lt_base hlt] at hc
      have hdigit : ∀ d < 10, 0 < d → Nat.digitChar d ≠ '0' := by decide
      rw [← (List.cons.inj hc).1]
      exact hdigit n hlt h
    · rw [Nat.toDigits_of_base_le (by omega) (by omega)] at hc
      obtain ⟨a, l, hal⟩ := List.exists_cons_of_ne_nil (Nat.toDigits_ne_nil (n := n / 10) (b := 10))
      rw [hal, List.cons_append] at hc
      obtain ⟨rfl, -⟩ := List.cons.inj hc
      exact ih (n / 10) (by omega) (by omega) hal

namespace NumberToken

/-- Digits stand for their number. -/
theorem ofDigits_digits (n : Nat) : ofDigits 0 (digits n) = n := by
  rw [digits_eq]
  exact Nat.ofDigitChars_toDigits (by omega) (by omega)

/-- Further digits do not make a number smaller. -/
theorem le_ofDigits (n : Nat) (l : List Char) : n ≤ ofDigits n l := by
  induction l generalizing n with
  | nil => exact Nat.le_refl n
  | cons c l ih =>
    have hle := ih (10 * n + (c.toNat - '0'.toNat))
    unfold ofDigits at hle ⊢
    rw [List.foldl_cons]
    omega

/-- All digits of a number below the bound are significant. -/
theorem significand_eq {bound value : Nat} {l : List Char} (h : ofDigits value l < bound)
    (count : Nat) : significand bound value count l = (ofDigits value l, count + l.length) := by
  induction l generalizing value count with
  | nil => rfl
  | cons c l ih =>
    have hrest : ofDigits value (c :: l) = ofDigits (ofDigits value [c]) l := rfl
    have hnext : ofDigits value [c] < bound :=
      Nat.lt_of_le_of_lt (le_ofDigits _ l) (hrest ▸ h)
    rw [significand, if_pos hnext, ih (hrest ▸ h), hrest, List.length_cons]
    congr 1
    omega

/-- The token of an integer has it as its value. -/
theorem integer?_ofInt (i : Int) : (ofInt i).integer? = some i := by
  have hdigits : ofDigits 0 (ofInt i).integer = i.natAbs := ofDigits_digits i.natAbs
  unfold integer?
  dsimp only
  rw [hdigits]
  by_cases hi : i < 0
  · have hnegative : (ofInt i).negative = true := by simpa [ofInt] using hi
    have hne : i.natAbs ≠ 0 := by omega
    rw [if_neg (by simp [ofInt]), if_pos hnegative, if_neg hne]
    congr 1
    omega
  · have hnegative : ¬ (ofInt i).negative = true := by simpa [ofInt] using hi
    rw [if_neg (by simp [ofInt]), if_neg hnegative]
    congr 1
    omega

/-- An integer of 64 bits is not too large. -/
theorem isOutOfRange_ofInt {i : Int} (h : i.natAbs < UInt64.size) :
    (ofInt i).isOutOfRange = false := by
  have hdigits : (ofInt i).integer ++ (ofInt i).fraction = digits i.natAbs := List.append_nil _
  have hlt : ofDigits 0 (digits i.natAbs) < UInt64.size := by rwa [ofDigits_digits]
  unfold isOutOfRange
  dsimp only
  rw [hdigits, significand_eq hlt, integer?_ofInt]
  dsimp only
  rw [if_pos]
  have hlength : (ofInt i).integer.length = (digits i.natAbs).length := rfl
  simp [hlength]

end NumberToken
end Wiring.Json
