import Wiring.Program.Constant

/-!
# Operators

What the operators compute, as a relation on constants, and that constants are folded just so.
-/

namespace Wiring.Program

/-- What operators compute on constants. Whatever overflows or has no meaning is left out. -/
inductive Computes : BinaryOp → Constant → Constant → Constant → Prop
  | addInt {i j k : Int64} (h : i.toInt + j.toInt = k.toInt) :
      Computes .add (.int i) (.int j) (.int k)
  | addString (s t : String) : Computes .add (.string s) (.string t) (.string (s ++ t))
  | subInt {i j k : Int64} (h : i.toInt - j.toInt = k.toInt) :
      Computes .sub (.int i) (.int j) (.int k)
  | mulInt {i j k : Int64} (h : i.toInt * j.toInt = k.toInt) :
      Computes .mul (.int i) (.int j) (.int k)
  | eq (a b : Constant) : Computes .eq a b (.bool (a = b))
  | ne (a b : Constant) : Computes .ne a b (.bool (a ≠ b))
  | ltInt (i j : Int64) : Computes .lt (.int i) (.int j) (.bool (i.toInt < j.toInt))
  | leInt (i j : Int64) : Computes .le (.int i) (.int j) (.bool (i.toInt ≤ j.toInt))
  | gtInt (i j : Int64) : Computes .gt (.int i) (.int j) (.bool (j.toInt < i.toInt))
  | geInt (i j : Int64) : Computes .ge (.int i) (.int j) (.bool (j.toInt ≤ i.toInt))
  | ltString (s t : String) : Computes .lt (.string s) (.string t) (.bool (s < t))
  | leString (s t : String) : Computes .le (.string s) (.string t) (.bool (¬ t < s))
  | gtString (s t : String) : Computes .gt (.string s) (.string t) (.bool (t < s))
  | geString (s t : String) : Computes .ge (.string s) (.string t) (.bool (¬ s < t))

/-- An integer is a constant if it is in range. -/
theorem Constant.ofInt?_eq_some_iff {n : Int} {c : Constant} :
    ofInt? n = some c ↔ ∃ k : Int64, n = k.toInt ∧ c = .int k := by
  unfold ofInt?
  constructor
  · intro h
    rw [Option.ite_none_right_eq_some] at h
    obtain ⟨⟨hmin, hmax⟩, h⟩ := h
    rw [Int64.toInt_minValue] at hmin
    rw [Int64.toInt_maxValue] at hmax
    exact ⟨_, (Int64.toInt_ofInt_of_le hmin (by omega)).symm, (Option.some.inj h).symm⟩
  · rintro ⟨k, rfl, rfl⟩
    rw [if_pos ⟨k.minValue_le_toInt, k.toInt_le⟩, Int64.ofInt_toInt]

/-- Only integers and texts are ordered, each among themselves. -/
theorem Constant.of_order?_eq_some {a b : Constant} {o : Ordering} (h : a.order? b = some o) :
    (∃ i j, a = .int i ∧ b = .int j ∧ o = compare i.toInt j.toInt) ∨
      ∃ s t, a = .string s ∧ b = .string t ∧ o = compareOfLessAndEq s t := by
  cases a with
  | int i =>
    cases b with
    | int j => exact .inl ⟨i, j, rfl, rfl, (Option.some.inj h).symm⟩
    | nil | bool | string => cases h
  | string s =>
    cases b with
    | string t => exact .inr ⟨s, t, rfl, rfl, (Option.some.inj h).symm⟩
    | nil | bool | int => cases h
  | nil | bool => cases h

/-- What a comparison says about a linear order. -/
private theorem comparison {α : Type} [LT α] [DecidableLT α] [DecidableEq α]
    (hasymm : ∀ x y : α, x < y → ¬ y < x) (hconnex : ∀ x y : α, ¬ x < y → x ≠ y → y < x) (x y : α) :
    (compareOfLessAndEq x y).isLT = decide (x < y) ∧
      (compareOfLessAndEq x y).isLE = decide (¬ y < x) ∧
      (compareOfLessAndEq x y).isGT = decide (y < x) ∧
      (compareOfLessAndEq x y).isGE = decide (¬ x < y) := by
  unfold compareOfLessAndEq
  by_cases hlt : x < y
  · simp [hlt, hasymm x y hlt]
  · by_cases heq : x = y
    · subst heq
      simp [hlt]
    · simp [hlt, heq, hconnex x y hlt heq]

/-- What a comparison says about two integers. -/
private theorem comparison_int (i j : Int) : (compare i j).isLT = decide (i < j) ∧
    (compare i j).isLE = decide (i ≤ j) ∧ (compare i j).isGT = decide (j < i) ∧
    (compare i j).isGE = decide (j ≤ i) := by
  obtain ⟨hlt, hle, hgt, hge⟩ := comparison (fun i j : Int ↦ by omega) (fun i j ↦ by omega) i j
  exact ⟨hlt, hle.trans (decide_eq_decide.mpr Int.not_lt), hgt,
    hge.trans (decide_eq_decide.mpr Int.not_lt)⟩

/-- What a comparison says about two texts. -/
private theorem comparison_string (s t : String) : (compareOfLessAndEq s t).isLT = decide (s < t) ∧
    (compareOfLessAndEq s t).isLE = decide (¬ t < s) ∧
    (compareOfLessAndEq s t).isGT = decide (t < s) ∧
    (compareOfLessAndEq s t).isGE = decide (¬ s < t) :=
  comparison (fun _ _ ↦ String.lt_asymm)
    (fun _ _ hlt hne ↦ Std.lt_of_le_of_ne (Std.not_lt.mp hlt) (Ne.symm hne)) s t

/-- Operators are applied to constants as the relation says. -/
theorem BinaryOp.computes_of_fold {op : BinaryOp} {a b c : Constant} (h : op.fold a b = some c) :
    Computes op a b c := by
  unfold fold at h
  cases op with
  | eq =>
    obtain rfl := Option.some.inj h
    exact .eq a b
  | ne =>
    obtain rfl := Option.some.inj h
    exact .ne a b
  | add =>
    dsimp only at h
    split at h
    · obtain ⟨k, hk, rfl⟩ := Constant.ofInt?_eq_some_iff.mp h
      exact .addInt hk
    · obtain rfl := Option.some.inj h
      exact .addString _ _
    · simp at h
  | sub =>
    dsimp only at h
    split at h
    · obtain ⟨k, hk, rfl⟩ := Constant.ofInt?_eq_some_iff.mp h
      exact .subInt hk
    · simp at h
  | mul =>
    dsimp only at h
    split at h
    · obtain ⟨k, hk, rfl⟩ := Constant.ofInt?_eq_some_iff.mp h
      exact .mulInt hk
    · simp at h
  | lt =>
    obtain ⟨o, ho, rfl⟩ := Option.map_eq_some_iff.mp h
    rcases Constant.of_order?_eq_some ho with ⟨i, j, rfl, rfl, rfl⟩ | ⟨s, t, rfl, rfl, rfl⟩
    · rw [(comparison_int _ _).1]
      exact .ltInt i j
    · rw [(comparison_string s t).1]
      exact .ltString s t
  | le =>
    obtain ⟨o, ho, rfl⟩ := Option.map_eq_some_iff.mp h
    rcases Constant.of_order?_eq_some ho with ⟨i, j, rfl, rfl, rfl⟩ | ⟨s, t, rfl, rfl, rfl⟩
    · rw [(comparison_int _ _).2.1]
      exact .leInt i j
    · rw [(comparison_string s t).2.1]
      exact .leString s t
  | gt =>
    obtain ⟨o, ho, rfl⟩ := Option.map_eq_some_iff.mp h
    rcases Constant.of_order?_eq_some ho with ⟨i, j, rfl, rfl, rfl⟩ | ⟨s, t, rfl, rfl, rfl⟩
    · rw [(comparison_int _ _).2.2.1]
      exact .gtInt i j
    · rw [(comparison_string s t).2.2.1]
      exact .gtString s t
  | ge =>
    obtain ⟨o, ho, rfl⟩ := Option.map_eq_some_iff.mp h
    rcases Constant.of_order?_eq_some ho with ⟨i, j, rfl, rfl, rfl⟩ | ⟨s, t, rfl, rfl, rfl⟩
    · rw [(comparison_int _ _).2.2.2]
      exact .geInt i j
    · rw [(comparison_string s t).2.2.2]
      exact .geString s t

end Wiring.Program
