import Mathlib.Data.List.Induction
import Mathlib.Data.List.Nodup
import Wiring.Program.Basic
import Wiring.Program.FunctionDraft
import Wiring.Proofs.Program.Blocks

/-!
# Drafted functions

A draft of a function whose steps keep to blocks of the draft can be completed, and the function is
in single-assignment form: the values that steps yield are numbered one after the other, whatever
the blocks are that the instructions go to. So the definition of a value is the instruction that was
appended when it was yielded. All branches of the function are to blocks that it has.
-/

namespace Wiring.Program

namespace FunctionStep

/-- The blocks that a step changes. -/
def changed : FunctionStep → List BlockId
  | define b _ | store b _ _ | terminate b _ => [b]
  | param _ _ | block => []

/-- The blocks that a step lets follow. -/
def targets : FunctionStep → List BlockId
  | terminate _ t => t.successors
  | param _ _ | block | define _ _ | store _ _ _ => []

/-- The step defines a value. -/
def isDefinition : FunctionStep → Bool
  | define _ _ => true
  | param _ _ | block | store _ _ _ | terminate _ _ => false

/-- The instructions that a step appends, by what it yields. -/
def appended : FunctionStep → StepResult → List Instruction
  | define _ op, .operand (.value id) => [op.defining id]
  | store _ addr value, _ => [.store addr value]
  | _, _ => []

/-- What a step makes of the block that it changes. -/
def edit (s : FunctionStep) (r : StepResult) (b : Block) : Block where
  instructions := b.instructions ++ s.appended r
  terminator := match s with
    | terminate _ t => t
    | param _ _ | block | define _ _ | store _ _ _ => b.terminator

/-- A step changes one block at most. -/
theorem changed_cases (s : FunctionStep) : s.changed = [] ∨ ∃ b, s.changed = [b] := by
  cases s with
  | param | block => exact .inl rfl
  | define | store | terminate => exact .inr ⟨_, rfl⟩

/-- A step that changes no block appends nothing. -/
theorem appended_of_changed {s : FunctionStep} (h : s.changed = []) (r : StepResult) :
    s.appended r = [] := by
  cases s with
  | param | block => rfl
  | define | store | terminate => cases h

end FunctionStep

namespace FunctionDraft

/-- What a step yields if it succeeds. -/
def yields (d : FunctionDraft) : FunctionStep → StepResult
  | .param _ _ => .operand (.param (UInt64.ofNat d.function.params.length))
  | .block => .block (UInt64.ofNat d.function.blocks.length)
  | .define _ _ => .operand (.value ⟨d.nextValue⟩)
  | .store _ _ _ | .terminate _ _ => .nothing

variable {d d' : FunctionDraft} {s : FunctionStep} {r : StepResult}

/-- A block can be changed if it is there. -/
theorem modifyBlock_eq_ok_iff {b : BlockId} {g : Block → Block} :
    d.modifyBlock b g = .ok d' ↔ b.toNat < d.function.blocks.length ∧
      { d with function := { d.function with blocks := d.function.blocks.modify b.toNat g } } =
        d' := by
  unfold modifyBlock
  split <;> simp [*]

/-- A step that changes a block edits it, and takes a number if it defines a value. -/
theorem apply_of_changed {b : BlockId} (hs : s.changed = [b]) : d.apply s =
    (({ d with nextValue := if s.isDefinition then d.nextValue + 1 else d.nextValue } :
      FunctionDraft).modifyBlock b (s.edit (d.yields s))).map (·, d.yields s) := by
  cases s with
  | param | block => cases hs
  | define b op =>
    obtain rfl := List.singleton_inj.mp hs
    exact bind_pure_comp (·, d.yields (.define b op)) _
  | store b addr value =>
    obtain rfl := List.singleton_inj.mp hs
    exact bind_pure_comp (·, d.yields (.store b addr value)) _
  | terminate b t =>
    obtain rfl := List.singleton_inj.mp hs
    have hedit : (FunctionStep.terminate b t).edit .nothing = fun b ↦ { b with terminator := t } :=
      funext fun b ↦ by simp [FunctionStep.edit, FunctionStep.appended]
    unfold yields
    rw [hedit]
    exact bind_pure_comp (·, StepResult.nothing) _

/-- A step that succeeds yields what it is expected to, and takes a number if it defines a value. It
adds empty blocks, or it edits a block that is there. -/
theorem exists_of_apply (h : d.apply s = .ok (d', r)) : r = d.yields s ∧
    d'.nextValue = (if s.isDefinition then d.nextValue + 1 else d.nextValue) ∧
    ((s.changed = [] ∧ ∃ new, d'.function.blocks = d.function.blocks ++ new ∧
        ∀ b ∈ new, b = { terminator := .ret [] }) ∨
      ∃ b, s.changed = [b] ∧ b.toNat < d.function.blocks.length ∧
        d'.function.blocks = d.function.blocks.modify b.toNat (s.edit r)) := by
  rcases s.changed_cases with hs | ⟨b, hs⟩
  · cases s with
    | param name typeName =>
      obtain ⟨rfl, rfl⟩ := Prod.mk.inj (Except.ok.inj h)
      exact ⟨rfl, rfl, .inl ⟨rfl, [], by simp, by simp⟩⟩
    | block =>
      obtain ⟨rfl, rfl⟩ := Prod.mk.inj (Except.ok.inj h)
      exact ⟨rfl, rfl, .inl ⟨rfl, _, rfl, by simp⟩⟩
    | define | store | terminate => cases hs
  · rw [apply_of_changed hs] at h
    cases hmodify : modifyBlock { d with nextValue := if s.isDefinition then d.nextValue + 1
      else d.nextValue } b (s.edit (d.yields s)) with
    | error e => simp [hmodify, Except.map] at h
    | ok edited =>
      rw [hmodify] at h
      obtain ⟨rfl, rfl⟩ := Prod.mk.inj (Except.ok.inj h)
      obtain ⟨hlt, rfl⟩ := modifyBlock_eq_ok_iff.mp hmodify
      exact ⟨rfl, rfl, .inr ⟨b, hs, hlt, rfl⟩⟩

/-- A step succeeds if the blocks that it changes are there. -/
theorem exists_apply (h : ∀ b ∈ s.changed, b.toNat < d.function.blocks.length) :
    ∃ d' r, d.apply s = .ok (d', r) := by
  rcases s.changed_cases with hs | ⟨b, hs⟩
  · cases s with
    | param | block => exact ⟨_, _, rfl⟩
    | define | store | terminate => cases hs
  · rw [apply_of_changed hs]
    unfold modifyBlock
    rw [if_pos (h b (by simp [hs]))]
    exact ⟨_, _, rfl⟩

/-- A step adds the instructions that it appends, and leaves all others. -/
theorem instructions_perm (h : d.apply s = .ok (d', r)) :
    d'.function.instructions.Perm (s.appended r ++ d.function.instructions) := by
  obtain ⟨-, -, ⟨hs, new, hblocks, hnew⟩ | ⟨b, hs, hlt, hblocks⟩⟩ := exists_of_apply h
  · have hnone : new.flatMap Block.instructions = [] := by
      rw [List.flatMap_eq_nil_iff]
      exact fun b hb ↦ by rw [hnew b hb]
    unfold Function.instructions
    rw [hblocks, List.flatMap_append, hnone, FunctionStep.appended_of_changed hs]
    simp
  · obtain ⟨before, block, after, heq, -, hmodify⟩ := List.exists_of_modify (s.edit r) hlt
    unfold Function.instructions
    rw [hblocks, hmodify, heq, List.flatMap_append, List.flatMap_append, List.flatMap_cons,
      List.flatMap_cons]
    have hedit : (s.edit r block).instructions = block.instructions ++ s.appended r := rfl
    rw [hedit, List.append_assoc, ← List.append_assoc]
    refine List.perm_append_comm_assoc .. |>.trans ?_
    simp

/-- The instructions that a step appends are in the block that it changes. -/
theorem mem_instructionsOf_iff (h : d.apply s = .ok (d', r)) {i : Instruction} {c : Nat} :
    i ∈ d'.function.instructionsOf c ↔
      i ∈ d.function.instructionsOf c ∨ (∃ b ∈ s.changed, b.toNat = c) ∧ i ∈ s.appended r := by
  obtain ⟨-, -, ⟨hs, new, hblocks, hnew⟩ | ⟨b, hs, hlt, hblocks⟩⟩ := exists_of_apply h
  · have hsame : d'.function.instructionsOf c = d.function.instructionsOf c := by
      unfold Function.instructionsOf
      rw [hblocks, List.getElem?_append]
      split
      · rfl
      · next hc =>
        rw [List.getElem?_eq_none (Nat.not_lt.mp hc)]
        cases hnth : new[c - d.function.blocks.length]? with
        | none => rfl
        | some block =>
          rw [hnew block (List.mem_of_getElem? hnth)]
          rfl
    rw [hsame, hs]
    simp
  · unfold Function.instructionsOf
    rw [hs, hblocks, List.getElem?_modify]
    by_cases hbc : b.toNat = c
    · subst hbc
      rw [List.getElem?_eq_getElem hlt]
      simp [FunctionStep.edit]
    · simp [hbc]

/-- The instructions that a step appends define the next value, or none. -/
theorem filterMap_dest_appended (d : FunctionDraft) (s : FunctionStep) :
    (s.appended (d.yields s)).filterMap Instruction.dest =
      if s.isDefinition then [⟨d.nextValue⟩] else [] := by
  cases s with
  | define b op => exact List.filterMap_cons_some (op.dest_defining _)
  | param | block | store | terminate => rfl

/-- A step lets only its own targets follow. -/
theorem mem_targets_of_apply (h : d.apply s = .ok (d', r)) {block : Block}
    (hblock : block ∈ d'.function.blocks) {t : BlockId} (ht : t ∈ block.terminator.successors) :
    t ∈ s.targets ∨ ∃ b ∈ d.function.blocks, t ∈ b.terminator.successors := by
  obtain ⟨-, -, ⟨-, new, hblocks, hnew⟩ | ⟨b, -, hlt, hblocks⟩⟩ := exists_of_apply h
  · rw [hblocks, List.mem_append] at hblock
    rcases hblock with hblock | hblock
    · exact .inr ⟨block, hblock, ht⟩
    · rw [hnew block hblock] at ht
      cases ht
  · obtain ⟨before, edited, after, heq, -, hmodify⟩ := List.exists_of_modify (s.edit r) hlt
    rw [hblocks, hmodify] at hblock
    rw [heq]
    rcases List.mem_append.mp hblock with hblock | hblock
    · exact .inr ⟨block, List.mem_append_left _ hblock, ht⟩
    · rcases List.mem_cons.mp hblock with rfl | hblock
      · cases s with
        | terminate b t => exact .inl ht
        | param | block | define | store =>
          exact .inr ⟨edited, List.mem_append_right _ List.mem_cons_self, ht⟩
      · exact .inr ⟨block, List.mem_append_right _ (List.mem_cons_of_mem _ hblock), ht⟩

/-- The blocks of a draft stay, and a block that a step yields is there then. -/
theorem lt_length_of_apply (h : d.apply s = .ok (d', r)) :
    d.function.blocks.length ≤ d'.function.blocks.length ∧
      ∀ b, r = .block b → b.toNat < d'.function.blocks.length := by
  constructor
  · obtain ⟨-, -, ⟨-, new, hblocks, -⟩ | ⟨b, -, -, hblocks⟩⟩ := exists_of_apply h
    · simp [hblocks]
    · simp [hblocks]
  · rintro b rfl
    cases s with
    | block =>
      obtain ⟨rfl, hb⟩ := Prod.mk.inj (Except.ok.inj h)
      obtain rfl := StepResult.block.inj hb
      have hle := Nat.mod_le d.function.blocks.length (2 ^ 64)
      simpa [UInt64.toNat_ofNat'] using Nat.lt_succ_of_le hle
    | param | define | store | terminate => cases (exists_of_apply h).1

/-- The steps that have made a draft out of a new one, each with what it yielded. -/
inductive Drafts (name : String) : List (FunctionStep × StepResult) → FunctionDraft → Prop
  | new : Drafts name [] (.new name)
  | step {history : List (FunctionStep × StepResult)} {d d' : FunctionDraft} {s : FunctionStep}
      {r : StepResult} (h : Drafts name history d) (hs : d.apply s = .ok (d', r)) :
      Drafts name (history ++ [(s, r)]) d'

/-- The values that are numbered first. -/
def firstValues (n : Nat) : List ValueId := (List.range n).map fun k ↦ ⟨UInt32.ofNat k⟩

/-- Numbers are given once, as long as there are any. -/
theorem nodup_firstValues {n : Nat} (h : n < UInt32.size) : (firstValues n).Nodup := by
  refine List.nodup_range.map_on ?_
  intro a ha b hb hab
  have ha := List.mem_range.mp ha
  have hb := List.mem_range.mp hb
  have hnat : (UInt32.ofNat a).toNat = (UInt32.ofNat b).toNat :=
    congrArg (fun id : ValueId ↦ id.number.toNat) hab
  rwa [UInt32.toNat_ofNat_of_lt' (Nat.lt_trans ha h),
    UInt32.toNat_ofNat_of_lt' (Nat.lt_trans hb h)] at hnat

namespace Drafts

variable {name : String} {history : List (FunctionStep × StepResult)}

/-- How many values the steps define. -/
def valueCount (history : List (FunctionStep × StepResult)) : Nat :=
  history.countP fun x ↦ x.1.isDefinition

/-- Values are numbered one after the other, wherever their definitions are. -/
theorem definedValues_perm (h : Drafts name history d) :
    d.nextValue = UInt32.ofNat (valueCount history) ∧
      d.function.definedValues.Perm (firstValues (valueCount history)) := by
  induction h with
  | new => exact ⟨rfl, .nil⟩
  | @step history d d' s r h hs ih =>
    obtain ⟨rfl, hnext, -⟩ := exists_of_apply hs
    have hperm : d'.function.definedValues.Perm
        ((if s.isDefinition then [⟨d.nextValue⟩] else []) ++ d.function.definedValues) := by
      have hinstructions := (instructions_perm hs).filterMap Instruction.dest
      rwa [List.filterMap_append, filterMap_dest_appended] at hinstructions
    unfold valueCount at ih ⊢
    rw [List.countP_append, List.countP_singleton, hnext]
    cases hdef : s.isDefinition with
    | false =>
      rw [hdef] at hperm
      exact ⟨ih.1, hperm.trans ih.2⟩
    | true =>
      rw [hdef] at hperm
      refine ⟨?_, hperm.trans ?_⟩
      · rw [if_pos rfl, if_pos rfl, ih.1, UInt32.ofNat_add]
        rfl
      · rw [if_pos rfl, if_pos rfl, firstValues, List.range_succ, List.map_append, ih.1]
        exact (ih.2.cons _).trans (List.perm_append_singleton _ _).symm

/-- Values are what definitions yield. -/
theorem isDefinition_iff (h : Drafts name history d) : ∀ x ∈ history,
    x.1.isDefinition ↔ ∃ id, x.2 = .operand (.value id) := by
  induction h with
  | new => simp
  | @step history d d' s r h hs ih =>
    obtain ⟨rfl, -⟩ := exists_of_apply hs
    rw [List.forall_mem_append, List.forall_mem_singleton]
    refine ⟨ih, ?_⟩
    cases s <;> simp [FunctionStep.isDefinition, yields]

/-- An instruction is where it was appended. -/
theorem mem_instructionsOf (h : Drafts name history d) : ∀ x ∈ history, ∀ i ∈ x.1.appended x.2,
    ∃ b ∈ x.1.changed, i ∈ d.function.instructionsOf b.toNat := by
  induction h with
  | new => simp
  | @step history d d' s r h hs ih =>
    rw [List.forall_mem_append, List.forall_mem_singleton]
    refine ⟨fun x hx i hi ↦ ?_, fun i hi ↦ ?_⟩
    · obtain ⟨b, hb, hmem⟩ := ih x hx i hi
      exact ⟨b, hb, (FunctionDraft.mem_instructionsOf_iff hs).mpr (.inl hmem)⟩
    · rcases s.changed_cases with hnone | ⟨b, hb⟩
      · rw [FunctionStep.appended_of_changed hnone] at hi
        cases hi
      · have hb : b ∈ s.changed := by simp [hb]
        exact ⟨b, hb, (FunctionDraft.mem_instructionsOf_iff hs).mpr (.inr ⟨⟨b, hb, rfl⟩, hi⟩)⟩

/-- A block that was yielded is there. -/
theorem lt_length (h : Drafts name history d) : ∀ x ∈ history, ∀ b, x.2 = .block b →
    b.toNat < d.function.blocks.length := by
  induction h with
  | new => simp
  | @step history d d' s r h hs ih =>
    obtain ⟨hle, hlt⟩ := lt_length_of_apply hs
    rw [List.forall_mem_append, List.forall_mem_singleton]
    exact ⟨fun x hx b hb ↦ Nat.lt_of_lt_of_le (ih x hx b hb) hle, hlt⟩

/-- What may follow on a block was a target of a step. -/
theorem exists_mem_targets (h : Drafts name history d) : ∀ block ∈ d.function.blocks,
    ∀ t ∈ block.terminator.successors, ∃ x ∈ history, t ∈ x.1.targets := by
  induction h with
  | new => simp [FunctionDraft.new]
  | @step history d d' s r h hs ih =>
    intro block hblock t ht
    rcases mem_targets_of_apply hs hblock ht with ht | ⟨b, hb, ht⟩
    · exact ⟨(s, r), by simp, ht⟩
    · obtain ⟨x, hx, ht⟩ := ih b hb t ht
      exact ⟨x, List.mem_append_left _ hx, ht⟩

end Drafts

/-- A step that succeeds is run before the others. -/
theorem run_cons (h : d.apply s = .ok (d', r)) (rest : List FunctionStep) :
    d.run (s :: rest) = (r :: (d'.run rest).1, (d'.run rest).2) := by
  rw [run, h]

/-- A step after others is run on what these have made. -/
theorem run_concat {steps : List FunctionStep} {d₀ : FunctionDraft} {rs : List StepResult}
    (h : d₀.run steps = (rs, .ok d)) (hs : d.apply s = .ok (d', r)) :
    d₀.run (steps ++ [s]) = (rs ++ [r], .ok d') := by
  induction steps generalizing d₀ rs with
  | nil =>
    obtain ⟨rfl, hd⟩ := Prod.mk.inj h
    obtain rfl := Except.ok.inj hd
    rw [List.nil_append, run_cons hs]
    rfl
  | cons s₀ steps ih =>
    cases happly : d₀.apply s₀ with
    | error e => simp [run, happly] at h
    | ok next =>
      obtain ⟨d₁, r₁⟩ := next
      rw [run_cons happly] at h
      obtain ⟨rfl, hd⟩ := Prod.mk.inj h
      rw [List.cons_append, run_cons happly, ih (Prod.ext rfl hd), List.cons_append]

end FunctionDraft

/-- The steps keep to blocks of the draft: what a step changes is a block that was yielded before,
and what it lets follow is a block that is yielded at some time. -/
structure UsesOwnBlocks (name : String) (steps : List FunctionStep) : Prop where
  changed : ∀ i, (hi : i < steps.length) →
    steps[i].changed.map .block ⊆ ((FunctionDraft.new name).run (steps.take i)).1
  targets : ∀ s ∈ steps, s.targets.map .block ⊆ ((FunctionDraft.new name).run steps).1

/-- Steps that keep to blocks of the draft make a function. -/
theorem FunctionDraft.exists_run {name : String} {steps : List FunctionStep}
    (h : ∀ i, (hi : i < steps.length) →
      steps[i].changed.map .block ⊆ ((FunctionDraft.new name).run (steps.take i)).1) :
    ∃ history d, Drafts name history d ∧ history.map Prod.fst = steps ∧
      (FunctionDraft.new name).run steps = (history.map Prod.snd, .ok d) := by
  induction steps using List.reverseRecOn with
  | nil => exact ⟨[], .new name, .new, rfl, rfl⟩
  | append_singleton steps s ih =>
    have hbefore (i : Nat) (hi : i < steps.length) :
        steps[i].changed.map .block ⊆ ((FunctionDraft.new name).run (steps.take i)).1 := by
      have hi' := h i (by simp; omega)
      rwa [List.getElem_append_left hi, List.take_append_of_le_length (Nat.le_of_lt hi)] at hi'
    obtain ⟨history, d, hdrafts, hsteps, hrun⟩ := ih hbefore
    have hlast : ∀ b ∈ s.changed, b.toNat < d.function.blocks.length := by
      intro b hb
      have hmem := h steps.length (by simp) (List.mem_map_of_mem (by simpa using hb))
      rw [List.take_left' rfl, hrun] at hmem
      obtain ⟨x, hx, hxb⟩ := List.mem_map.mp hmem
      exact hdrafts.lt_length x hx b hxb
    obtain ⟨d', r, hs⟩ := exists_apply hlast
    refine ⟨history ++ [(s, r)], d', hdrafts.step hs, by simp [hsteps], ?_⟩
    rw [run_concat hrun hs, List.map_append]
    rfl

/-- The function is made by steps that keep to blocks of the draft. -/
inductive Drafted : Function → Prop
  | of_run {name : String} {steps : List FunctionStep} {rs : List StepResult} {d : FunctionDraft}
      (hown : UsesOwnBlocks name steps)
      (hvalues : steps.countP FunctionStep.isDefinition < UInt32.size)
      (hrun : (FunctionDraft.new name).run steps = (rs, .ok d)) : Drafted d.function

/-- A function has no dangling branch if all that may follow on its blocks is there. -/
theorem danglingBranches_eq_nil {f : Function} (h : ∀ block ∈ f.blocks,
    ∀ t ∈ block.terminator.successors, t.toNat < f.blocks.length) : danglingBranches f = [] := by
  unfold danglingBranches
  rw [List.flatMap_eq_nil_iff]
  rintro ⟨block, i⟩ hblock
  have hnone : (block.terminator.successors.filter fun t ↦ f.blocks.length ≤ t.toNat) = [] := by
    rw [List.filter_eq_nil_iff]
    intro t ht
    simpa using h block (List.fst_mem_of_mem_zipIdx hblock) t ht
  dsimp only
  rw [hnone, List.map_nil]

/-- A drafted function has no dangling branch. -/
theorem Drafted.danglingBranches_eq_nil {f : Function} (h : Drafted f) :
    danglingBranches f = [] := by
  obtain ⟨hown, -, hrun⟩ := h
  obtain ⟨history, d, hdrafts, rfl, hrun'⟩ := FunctionDraft.exists_run hown.changed
  obtain ⟨rfl, hd⟩ := Prod.mk.inj (hrun'.symm.trans hrun)
  obtain rfl := Except.ok.inj hd
  refine Program.danglingBranches_eq_nil fun block hblock t ht ↦ ?_
  obtain ⟨x, hx, hxt⟩ := hdrafts.exists_mem_targets block hblock t ht
  have hmem := hown.targets x.1 (List.mem_map_of_mem hx) (List.mem_map_of_mem hxt)
  rw [hrun'] at hmem
  obtain ⟨y, hy, hyt⟩ := List.mem_map.mp hmem
  exact hdrafts.lt_length y hy t hyt

/-- A program passes the check if none of its functions has a dangling branch. -/
theorem check_of_danglingBranches {p : Program}
    (h : ∀ f ∈ p.functions.toList, danglingBranches f = []) : p.check = .ok () := by
  unfold check
  rw [List.flatMap_eq_nil_iff.mpr h]

/-- Steps that keep to blocks of the draft, and define no more values than there are numbers, make a
function in which no value is defined twice. The values that they yield are those of the steps that
define one; and the definition of such a value is the instruction of its step, which is in the block
that the step names. A program of functions that are made so passes the check. -/
theorem singleAssignment_of_usesOwnBlocks {name : String} {steps : List FunctionStep}
    (hown : UsesOwnBlocks name steps)
    (hvalues : steps.countP FunctionStep.isDefinition < UInt32.size) :
    (∃ (rs : List StepResult) (d : FunctionDraft),
      (FunctionDraft.new name).run steps = (rs, .ok d) ∧
      d.function.definedValues.Nodup ∧
      (∀ (i : Nat) (id : ValueId), rs[i]? = some (.operand (.value id)) →
        ∃ (b : BlockId) (op : Operation), steps[i]? = some (.define b op) ∧
          d.function.definition id = some (op.defining id) ∧
          op.defining id ∈ d.function.instructionsOf b.toNat) ∧
      ∀ (i : Nat) (b : BlockId) (op : Operation), steps[i]? = some (.define b op) →
        ∃ id : ValueId, rs[i]? = some (.operand (.value id))) ∧
      ∀ p : Program, (∀ f ∈ p.functions.toList, Drafted f) → p.check = .ok () := by
  obtain ⟨history, d, hdrafts, rfl, hrun⟩ := FunctionDraft.exists_run hown.changed
  have hnodup : d.function.definedValues.Nodup := by
    rw [List.countP_map] at hvalues
    exact hdrafts.definedValues_perm.2.nodup_iff.mpr (FunctionDraft.nodup_firstValues hvalues)
  refine ⟨⟨_, d, hrun, hnodup, fun i id hi ↦ ?_, fun i b op hi ↦ ?_⟩, fun p hp ↦ ?_⟩
  · rw [List.getElem?_map, Option.map_eq_some_iff] at hi
    obtain ⟨⟨s, r⟩, hi, rfl⟩ := hi
    have hx := List.mem_of_getElem? hi
    have hs := (hdrafts.isDefinition_iff _ hx).mpr ⟨id, rfl⟩
    cases s with
    | define b op =>
      obtain ⟨b', hb', hmem⟩ := hdrafts.mem_instructionsOf _ hx (op.defining id) (by
        exact List.mem_singleton_self _)
      obtain rfl := List.mem_singleton.mp hb'
      refine ⟨b', op, by rw [List.getElem?_map, hi]; rfl, ?_, hmem⟩
      exact Function.definition_eq hnodup (Function.mem_instructions_iff.mpr ⟨_, hmem⟩)
        (op.dest_defining id)
    | param | block | store | terminate => cases hs
  · rw [List.getElem?_map, Option.map_eq_some_iff] at hi
    obtain ⟨⟨s, r⟩, hi, rfl⟩ := hi
    obtain ⟨id, hid⟩ := (hdrafts.isDefinition_iff _ (List.mem_of_getElem? hi)).mp rfl
    exact ⟨id, by rw [List.getElem?_map, hi]; exact congrArg some hid⟩
  · exact check_of_danglingBranches fun f hf ↦ (hp f hf).danglingBranches_eq_nil

/-- Two blocks, of which the second has its value before the first. -/
theorem singleAssignment_of_usesOwnBlocks_loop : ∃ steps rs d,
    steps = [.block, .block, .define 1 (.opaqueValue "count"), .define 0 (.alloc "int"),
      .store 0 (.value ⟨1⟩) (.value ⟨0⟩), .terminate 0 (.jump 1),
      .terminate 1 (.branch (.value ⟨0⟩) 0 1)] ∧
    UsesOwnBlocks "loop" steps ∧ steps.countP FunctionStep.isDefinition < UInt32.size ∧
    (FunctionDraft.new "loop").run steps = (rs, .ok d) ∧ d.function.definedValues.Nodup ∧
    d.function.definition ⟨0⟩ = some (.opaqueValue ⟨0⟩ "count") ∧
    (Program.addFunction {} d.function).check = .ok () := by
  obtain ⟨steps, hsteps⟩ : ∃ steps : List FunctionStep, steps = [.block, .block,
      .define 1 (.opaqueValue "count"), .define 0 (.alloc "int"),
      .store 0 (.value ⟨1⟩) (.value ⟨0⟩), .terminate 0 (.jump 1),
      .terminate 1 (.branch (.value ⟨0⟩) 0 1)] := ⟨_, rfl⟩
  have hown : UsesOwnBlocks "loop" steps := by
    subst hsteps
    exact ⟨by decide, by decide⟩
  have hvalues : steps.countP FunctionStep.isDefinition < UInt32.size := by
    subst hsteps
    decide
  obtain ⟨⟨rs, d, hrun, hnodup, hdefinition, -⟩, hcheck⟩ :=
    singleAssignment_of_usesOwnBlocks hown hvalues
  have hyield : rs[2]? = some (.operand (.value ⟨0⟩)) := by
    rw [show rs = ((FunctionDraft.new "loop").run steps).1 by rw [hrun], hsteps]
    rfl
  obtain ⟨b, op, hstep, hdef, -⟩ := hdefinition 2 ⟨0⟩ hyield
  rw [hsteps] at hstep
  obtain ⟨rfl, rfl⟩ := FunctionStep.define.inj (Option.some.inj hstep)
  refine ⟨steps, rs, d, hsteps, hown, hvalues, hrun, hnodup, hdef, hcheck _ fun f hf ↦ ?_⟩
  obtain rfl := List.mem_singleton.mp hf
  exact .of_run hown hvalues hrun

end Wiring.Program
