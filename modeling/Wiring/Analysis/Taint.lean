import Wiring.Program.Function

/-!
# Taint

The values of a function that may be the configurer: the parameters that receive it, what is made
of them by conversions and merges, and what is loaded from locals that it is stored to. Marks are
added pass by pass until a pass adds none.
-/

namespace Wiring.Analysis

open Wiring.Program (Operand ValueId Instruction Function)

/-- A finding that the configurer may be in some place. -/
inductive Mark where
  /-- The value may be the configurer. -/
  | value (id : ValueId)
  /-- The local at the address may hold the configurer. -/
  | holder (id : ValueId)
  deriving DecidableEq, Repr

/-- The parameters that receive the configurer, and the marks that follow from that. -/
structure Taint where
  params : List Nat
  marks : List Mark := []
  deriving DecidableEq, Repr

namespace Taint

/-- The operand may be the configurer. -/
def contains (t : Taint) : Operand → Bool
  | .param index => t.params.contains index.toNat
  | .value id => t.marks.contains (.value id)
  | .const _ | .global _ | .function _ => false

/-- The local whose address an operand is, if it is one. -/
def localOf (f : Function) : Operand → Option ValueId
  | .value id =>
    match f.definition id with
    | some (.alloc _ _) => some id
    | _ => none
  | _ => none

/-- The mark that an instruction adds to those there are. -/
def derived (f : Function) (t : Taint) : Instruction → Option Mark
  | .makeInterface dest value _ | .changeInterface dest value =>
    if t.contains value then some (.value dest) else none
  | .phi dest edges => if edges.any t.contains then some (.value dest) else none
  | .load dest (.value addr) =>
    if t.marks.contains (.holder addr) then some (.value dest) else none
  | .store addr value => if t.contains value then (localOf f addr).map .holder else none
  | _ => none

/-- The instruction brings the configurer to a place from where it is not followed. -/
def lost (f : Function) (t : Taint) : Instruction → Bool
  | .store addr value => t.contains value && (localOf f addr).isNone
  | .slice _ elements => elements.any t.contains
  | _ => false

/-- Add a mark. -/
def add (t : Taint) (m : Mark) : Taint :=
  if m ∈ t.marks then t else { t with marks := m :: t.marks }

/-- Add what one instruction derives. -/
def step (f : Function) (t : Taint) (i : Instruction) : Taint :=
  match t.derived f i with
  | some m => t.add m
  | none => t

/-- Add what the instructions derive, one after another. -/
def pass (f : Function) (t : Taint) : Taint := f.instructions.foldl (step f) t

/-- The marks that are possible in a function and not there yet. -/
def absent (f : Function) (t : Taint) : List Mark :=
  (f.definedValues.flatMap fun id ↦ [.value id, .holder id]).filter fun m ↦ m ∉ t.marks

/-- Every mark that an instruction can add is possible in its function. -/
theorem mem_of_derived {f : Function} {t : Taint} {i : Instruction} {m : Mark}
    (hi : i ∈ f.instructions) (h : t.derived f i = some m) :
    m ∈ f.definedValues.flatMap fun id ↦ [.value id, .holder id] := by
  have hvalue {dest : ValueId} (hd : i.dest = some dest) :
      Mark.value dest ∈ f.definedValues.flatMap fun id ↦ [.value id, .holder id] :=
    List.mem_flatMap.mpr ⟨dest, List.mem_filterMap.mpr ⟨i, hi, hd⟩, by simp⟩
  unfold derived at h
  split at h
  · simp only [Option.ite_none_right_eq_some, Option.some.injEq] at h
    exact h.2 ▸ hvalue rfl
  · simp only [Option.ite_none_right_eq_some, Option.some.injEq] at h
    exact h.2 ▸ hvalue rfl
  · simp only [Option.ite_none_right_eq_some, Option.some.injEq] at h
    exact h.2 ▸ hvalue rfl
  · simp only [Option.ite_none_right_eq_some, Option.some.injEq] at h
    exact h.2 ▸ hvalue rfl
  · rename_i addr value
    simp only [Option.ite_none_right_eq_some, Option.map_eq_some_iff] at h
    obtain ⟨-, id, hid, rfl⟩ := h
    unfold localOf at hid
    split at hid
    · split at hid
      · rename_i hdef
        simp only [Option.some.injEq] at hid
        subst hid
        exact List.mem_flatMap.mpr
          ⟨_, Function.mem_definedValues_of_definition hdef, by simp⟩
      · simp at hid
    · simp at hid
  · simp at h

/-- A step adds an absent mark or changes nothing. -/
theorem step_eq_or {f : Function} (t : Taint) {i : Instruction} (hi : i ∈ f.instructions) :
    step f t i = t ∨ (absent f (step f t i)).length < (absent f t).length := by
  unfold step
  split
  · rename_i m hm
    unfold add
    split
    · exact Or.inl rfl
    · rename_i hnot
      refine Or.inr ?_
      have hsub : absent f { t with marks := m :: t.marks } = (absent f t).filter (· ≠ m) := by
        simp [absent, List.filter_filter, not_or]
      rw [hsub]
      refine List.length_filter_lt_length_iff_exists.mpr ⟨m, ?_, by simp⟩
      exact List.mem_filter.mpr ⟨mem_of_derived hi hm, by simpa using hnot⟩
  · exact Or.inl rfl

/-- A pass adds absent marks or changes nothing. -/
theorem pass_eq_or (f : Function) (t : Taint) :
    pass f t = t ∨ (absent f (pass f t)).length < (absent f t).length := by
  have hfold : ∀ (l : List Instruction), (∀ i ∈ l, i ∈ f.instructions) → ∀ t : Taint,
      l.foldl (step f) t = t ∨
        (absent f (l.foldl (step f) t)).length < (absent f t).length := by
    intro l hl
    induction l with
    | nil => exact fun t ↦ Or.inl rfl
    | cons i l ih =>
      intro t
      have hstep := step_eq_or t (hl i (by simp))
      have hrest := ih (fun j hj ↦ hl j (by simp [hj])) (step f t i)
      simp only [List.foldl_cons]
      rcases hstep with hs | hs
      · rw [hs] at hrest ⊢
        exact hrest
      · rcases hrest with hr | hr
        · exact Or.inr (by rw [hr]; exact hs)
        · exact Or.inr (Nat.lt_trans hr hs)
  exact hfold f.instructions (fun _ h ↦ h) t

/-- Pass after pass, until one changes nothing. -/
def close (f : Function) (t : Taint) : Taint :=
  if h : pass f t = t then t
  else
    have := (pass_eq_or f t).resolve_left h
    close f (pass f t)
termination_by (absent f t).length

/-- The taint of a function some of whose parameters receive the configurer. -/
def ofParams (f : Function) (params : List Nat) : Taint := close f { params }

/-- The configurer gets to a place from where it is not followed. -/
def escapes (f : Function) (t : Taint) : Bool := f.instructions.any (t.lost f)

end Taint
end Wiring.Analysis
