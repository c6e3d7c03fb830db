import Wiring.Program.Function

/-!
# Blocks of functions

What instructions work on and which blocks they belong to, and what becomes of a function when one
of its blocks loses its instructions: where the block is not looked at, the function is as it was.
-/

namespace Wiring.Program

/-- The operands that a call needs for its target. -/
def Callee.operands : Callee → List Operand
  | static _ _ => []
  | invoke receiver _ => [receiver]
  | dynamic value => [value]

/-- The operands that an instruction works on. -/
def Instruction.operands : Instruction → List Operand
  | call _ callee args => callee.operands ++ args
  | makeInterface _ value _ | changeInterface _ value | not _ value => [value]
  | extract _ tuple _ => [tuple]
  | store addr value => [addr, value]
  | load _ addr => [addr]
  | binOp _ _ lhs rhs => [lhs, rhs]
  | phi _ edges => edges
  | slice _ elements => elements
  | alloc _ _ | opaqueValue _ _ => []

/-- The operands that the end of a block works on. -/
def Terminator.operands : Terminator → List Operand
  | branch cond _ _ => [cond]
  | ret results => results
  | jump _ | panic => []

/-- The operands that a block works on. -/
def Block.operands (b : Block) : List Operand :=
  b.instructions.flatMap Instruction.operands ++ b.terminator.operands

/-- The block without its instructions. -/
def Block.emptied (b : Block) : Block := { b with instructions := [] }

namespace Function

/-- The instructions of a block; none if there is no such block. -/
def instructionsOf (f : Function) (b : Nat) : List Instruction :=
  (f.blocks[b]?.map Block.instructions).getD []

/-- The function with a block emptied. -/
def emptied (f : Function) (b : Nat) : Function :=
  { f with blocks := f.blocks.modify b Block.emptied }

/-- The block defines the value. -/
def DefinesIn (f : Function) (b : Nat) (id : ValueId) : Prop :=
  ∃ i ∈ f.instructionsOf b, i.dest = some id

variable {f : Function} {b c : Nat} {i : Instruction} {id : ValueId}

/-- Instructions are those of the blocks. -/
theorem mem_instructions_iff : i ∈ f.instructions ↔ ∃ c, i ∈ f.instructionsOf c := by
  unfold instructions instructionsOf
  rw [List.mem_flatMap]
  constructor
  · intro ⟨block, hblock, hi⟩
    obtain ⟨c, hc⟩ := List.mem_iff_getElem?.mp hblock
    exact ⟨c, by rwa [hc]⟩
  · intro ⟨c, hi⟩
    cases hc : f.blocks[c]? with
    | none => simp [hc] at hi
    | some block => exact ⟨block, List.mem_of_getElem? hc, by simpa [hc] using hi⟩

/-- Only blocks have instructions. -/
theorem lt_of_mem_instructionsOf (h : i ∈ f.instructionsOf c) : c < f.blocks.length := by
  unfold instructionsOf at h
  cases hc : f.blocks[c]? with
  | none => simp [hc] at h
  | some block => exact (List.getElem?_eq_some_iff.mp hc).1

theorem length_blocks_emptied : (f.emptied b).blocks.length = f.blocks.length :=
  List.length_modify ..

/-- Blocks end as they did. -/
theorem terminator_emptied (f : Function) (b c : Nat) :
    (f.emptied b).blocks[c]?.map Block.terminator = f.blocks[c]?.map Block.terminator := by
  unfold emptied
  rw [List.getElem?_modify, Option.map_eq_map, Option.map_map]
  refine congrArg (Option.map · _) (funext fun block ↦ ?_)
  dsimp only [Function.comp]
  split <;> rfl

/-- The other blocks have the instructions that they had. -/
theorem instructionsOf_emptied (h : c ≠ b) :
    (f.emptied b).instructionsOf c = f.instructionsOf c := by
  unfold emptied instructionsOf
  dsimp only
  rw [List.getElem?_modify_ne _ _ (Ne.symm h)]

/-- The emptied block has none. -/
theorem instructionsOf_emptied_self : (f.emptied b).instructionsOf b = [] := by
  unfold emptied instructionsOf
  rw [List.getElem?_modify_eq, Option.map_eq_map, Option.map_map]
  cases f.blocks[b]? <;> rfl

/-- The instructions that are left are those of the other blocks. -/
theorem mem_instructions_emptied :
    i ∈ (f.emptied b).instructions ↔ ∃ c, c ≠ b ∧ i ∈ f.instructionsOf c := by
  rw [mem_instructions_iff]
  refine exists_congr fun c ↦ ?_
  by_cases h : c = b
  · subst h
    simp [instructionsOf_emptied_self]
  · simp [instructionsOf_emptied h, h]

/-- Whatever is put together from the blocks is the same, if it is the same for the emptied one. -/
theorem flatMap_emptied {β : Type} {G : Block × Nat → List β}
    (h : ∀ block, f.blocks[b]? = some block → G (block.emptied, b) = G (block, b)) :
    (f.emptied b).blocks.zipIdx.flatMap G = f.blocks.zipIdx.flatMap G := by
  have hmap : (f.emptied b).blocks.zipIdx.map G = f.blocks.zipIdx.map G := by
    refine List.ext_getElem? fun c ↦ ?_
    unfold emptied
    rw [List.getElem?_map, List.getElem?_map, List.getElem?_zipIdx, List.getElem?_zipIdx,
      List.getElem?_modify]
    cases hc : f.blocks[c]? with
    | none => rfl
    | some block =>
      by_cases hbc : b = c
      · subst hbc
        simpa using h block hc
      · simp [hbc]
  rw [List.flatMap_def, List.flatMap_def, hmap]

/-- A value that the block does not define is defined as it was. -/
theorem definition_emptied (h : ¬ f.DefinesIn b id) :
    (f.emptied b).definition id = f.definition id := by
  have hfind (f : Function) : f.definition id = (f.blocks.zipIdx.flatMap fun p ↦
      p.1.instructions.filter fun i ↦ i.dest = some id).head? := by
    unfold definition instructions
    rw [← List.head?_filter, List.filter_flatMap, ← List.zipIdx_map_fst 0 f.blocks,
      List.flatMap_map, List.zipIdx_map_fst]
  rw [hfind, hfind, flatMap_emptied]
  intro block hb
  have hnone : block.instructions.filter (fun i ↦ i.dest = some id) = [] := by
    rw [List.filter_eq_nil_iff]
    intro i hi hdest
    exact h ⟨i, by rw [instructionsOf, hb]; exact hi, by simpa using hdest⟩
  dsimp only
  rw [hnone]
  rfl

/-- An instruction that defines a value is the value's definition, if no value is defined twice. -/
theorem definition_eq (hf : f.definedValues.Nodup) (hi : i ∈ f.instructions)
    (hd : i.dest = some id) : f.definition id = some i := by
  unfold definedValues at hf
  unfold definition
  generalize f.instructions = l at hf hi
  induction l with
  | nil => simp at hi
  | cons j l ih =>
    by_cases hj : j.dest = some id
    · rw [List.find?_cons_of_pos (by simpa using hj)]
      rcases List.mem_cons.mp hi with rfl | hi
      · rfl
      · rw [List.filterMap_cons_some hj, List.nodup_cons] at hf
        exact absurd (List.mem_filterMap.mpr ⟨i, hi, hd⟩) hf.1
    · rw [List.find?_cons_of_neg (by simpa using hj)]
      rcases List.mem_cons.mp hi with rfl | hi
      · exact absurd hd hj
      · refine ih ?_ hi
        cases hdj : j.dest with
        | none => rwa [List.filterMap_cons_none hdj] at hf
        | some id' =>
          rw [List.filterMap_cons_some hdj, List.nodup_cons] at hf
          exact hf.2

theorem isExternal_emptied : (f.emptied b).isExternal = f.isExternal := by
  unfold isExternal
  rw [Bool.eq_iff_iff, List.isEmpty_iff, List.isEmpty_iff, ← List.length_eq_zero_iff,
    ← List.length_eq_zero_iff, length_blocks_emptied]

/-- What a function becomes when a block of another one is emptied: nothing else, unless they are
of the same name. -/
def emptiedIn (f : Function) (b : Nat) (g : Function) : Function :=
  if g.name = f.name then f.emptied b else g

theorem name_emptiedIn (g : Function) : (f.emptiedIn b g).name = g.name := by
  unfold emptiedIn
  split
  · next h => exact h.symm
  · rfl

end Function
end Wiring.Program
