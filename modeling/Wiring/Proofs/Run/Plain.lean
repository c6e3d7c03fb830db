import Wiring.Proofs.Analysis.Coverage
import Wiring.Proofs.Run.Soundness

/-!
# Plain programs

Programs without interfaces and routes, in which the address of a local is only loaded from and
stored to. If the arguments known of a frame are constants, so is all that is resolved within it,
and it is what the run has there: unless a local is loaded before anything has been stored to it,
for resolution does not know of the value that a local has at first.
-/

namespace Wiring.Run

open Wiring.Program (Constant ValueId Operand Callee Instruction Terminator Function Block)
open Wiring.Analysis (Environment Frame StaticValue Judgement Derivable Question IsResult
  rememberedAfter Query.resolve Query.flow)

/-- The instruction has nothing to do with interfaces or routes. -/
def isPlain (env : Environment) : Instruction → Bool
  | .makeInterface _ _ _ | .changeInterface _ _ => false
  | .call _ callee _ => !env.isConstructor callee
  | _ => true

/-- The operand is not used but as the address that is loaded from or stored to. -/
def OnlyAddressed (f : Function) (o : Operand) : Prop :=
  (∀ i ∈ f.instructions, o ∉ i.uses) ∧ ∀ block ∈ f.blocks, o ∉ block.terminator.uses

instance (f : Function) (o : Operand) : Decidable (OnlyAddressed f o) :=
  inferInstanceAs (Decidable (_ ∧ _))

/-- A program that has nothing to do with interfaces or routes, in single-assignment form, in which
the address of a local is only loaded from and stored to. -/
structure Plain (env : Environment) : Prop where
  ssa : SingleAssignment env
  instruction : ∀ name f, env.program.function? name = some f →
    ∀ i ∈ f.instructions, isPlain env i
  alloc : ∀ name f, env.program.function? name = some f → ∀ id dest typeName,
    f.definition id = some (.alloc dest typeName) → OnlyAddressed f (.value id)

/-- Nothing but constants is known of the arguments of the frame. -/
def KnowsConstants (frame : Frame) : Prop := ∀ i v, frame.arg i = some v → ∃ c, v = .const c

/-- Within frames of the program that know constants, the conclusion is a constant. -/
def IsConstant (env : Environment) : Judgement → Prop
  | .value frame _ v | .result frame _ v =>
    env.Has frame → KnowsConstants frame → ∃ c, v = .const c
  | .graph _ _ => True

variable {env : Environment} {frame : Frame} {s s₀ : State} {id : ValueId} {i : Instruction}

/-- What calls know of their arguments are constants, if what is derived of the arguments is. -/
theorem knowsConstants_bound {args : List Operand} {f : Function}
    {bound : List (Option StaticValue)} (hlen : bound.length = args.length)
    (h : ∀ (i : Nat) o w, args[i]? = some o → bound[i]? = some (some w) → ∃ c, w = .const c) :
    KnowsConstants ⟨f, bound⟩ := by
  intro i v hv
  have hv : bound[i]? = some (some v) := Option.join_eq_some_iff.mp hv
  obtain ⟨hlt, -⟩ := List.getElem?_eq_some_iff.mp hv
  exact h i _ v (List.getElem?_eq_getElem (hlen ▸ hlt)) hv

namespace Plain

variable (hplain : Plain env)
include hplain

/-- Every definition within a frame of the program is plain. -/
theorem definition (hframe : env.Has frame) (hd : frame.function.definition id = some i) :
    isPlain env i :=
  hplain.instruction _ _ hframe i (List.mem_of_find?_eq_some hd)

/-- Plain programs make no routes. -/
theorem isConstructor_eq_false {callee : Callee} {args : List Operand} {index : Nat}
    (hframe : env.Has frame) (hd : IsResult frame.function id callee args index) :
    env.isConstructor callee = false := by
  cases hd with
  | call hd => simpa [isPlain] using hplain.definition hframe hd
  | extract hd ht => simpa [isPlain] using hplain.definition hframe ht

/-- Whatever has a derivation is a constant. -/
theorem isConstant {J : Judgement} (h : Derivable env J) : IsConstant env J := by
  induction h with
  | const frame c => exact fun _ _ ↦ ⟨c, rfl⟩
  | param h => exact fun _ hconst ↦ hconst _ _ h
  | boxed hd | boxedUnknown hd | changed hd =>
    intro hframe _
    have hnot := hplain.definition hframe hd
    simp [isPlain] at hnot
  | route hd hc =>
    intro hframe _
    rw [hplain.isConstructor_eq_false hframe hd] at hc
    simp at hc
  | call hd hc hf hlen hbound h ihbound ih =>
    intro hframe hconst
    refine ih (Wiring.Analysis.Environment.has_of_followed hf _)
      (knowsConstants_bound hlen fun i o w ho hw ↦ ihbound i o w ho hw hframe hconst)
  | global => exact fun _ _ ↦ ⟨_, rfl⟩
  | load hd ha hflow hne hstored ihflow ih =>
    intro hframe hconst
    obtain ⟨o, ho⟩ := List.exists_mem_of_ne_nil _ hne
    exact ih o ho hframe hconst
  | binOp hd hl hr hv =>
    intro _ _
    obtain ⟨_, -, hv⟩ := Option.bind_eq_some_iff.mp hv
    obtain ⟨_, -, hv⟩ := Option.bind_eq_some_iff.mp hv
    obtain ⟨c, -, hv⟩ := Option.bind_eq_some_iff.mp hv
    exact ⟨c, (Option.some.inj hv).symm⟩
  | not hd ho hv =>
    intro _ _
    obtain ⟨t, -, rfl⟩ := Option.map_eq_some_iff.mp hv
    exact ⟨_, rfl⟩
  | phi hd hne hedges ih =>
    intro hframe hconst
    obtain ⟨o, ho⟩ := List.exists_mem_of_ne_nil _ hne
    exact ih o ho hframe hconst
  | result hg hne hsome h ihg ih =>
    intro hframe hconst
    obtain ⟨o, ho⟩ := List.exists_mem_of_ne_nil _ hne
    cases o with
    | none => exact absurd ho hsome
    | some o => exact ih o ho hframe hconst
  | graph => trivial

/-- In a plain program the addresses of locals are confined. -/
theorem confined (hinv : Invariant env s) : Confined s := by
  intro a ha o ho v hv
  have hmem : a ∈ s.stack := List.mem_of_head? ha
  have htidy := hinv.tidy a hmem
  cases o with
  | param index => exact htidy.args v (List.mem_of_getElem? hv)
  | const | global | function =>
    obtain rfl := Option.some.inj hv
    trivial
  | value id =>
    obtain ⟨rs, hid, hhead⟩ := Option.bind_eq_some_iff.mp hv
    rcases htidy.values id rs hid with hfree | ⟨_, dest, typeName, -, -, hdef⟩
    · exact hfree v (List.mem_of_head? hhead)
    · obtain ⟨hinstructions, hterminators⟩ :=
        hplain.alloc _ _ (hinv.function a hmem) id dest typeName hdef
      rcases List.mem_append.mp ho with ho | ho
      · cases hi : a.instruction? with
        | none => simp [hi] at ho
        | some i =>
          rw [hi] at ho
          exact absurd ho (hinstructions i (Activation.mem_instructions hi))
      · cases ht : a.terminator? with
        | none => simp [ht] at ho
        | some t =>
          rw [ht] at ho
          obtain ⟨block, hblock, rfl⟩ := Activation.exists_of_terminator? ht
          exact absurd ho (hterminators block (List.mem_of_getElem? hblock))

/-- A run of a plain program is careful if no local is loaded too early. -/
theorem careful_of_runs (h₀ : Invariant env s₀) (h : Runs env Initialized s₀ s) :
    Runs env Careful s₀ s := by
  induction h with
  | start => exact .start
  | step hr hp hs ih =>
    have hinv := h₀.runs hplain.ssa (fun _ hs ↦ hs.confined) ih
    exact .step ih ⟨hplain.confined hinv, hp⟩ hs

/-- What the truth of derivations rests on is given in plain programs. -/
theorem setting {f : Function} {args outside : List Value}
    (hinv : Invariant env (.initial f args outside)) :
    Setting env Careful (.initial f args outside)
      fun frame ↦ env.Has frame ∧ KnowsConstants frame where
  ssa := hplain.ssa
  initial := ⟨f, args, outside, rfl⟩
  invariant := hinv
  careful _ hs := hs
  called frame callee args f bound hframe hf hlen hbound :=
    ⟨Analysis.Environment.has_of_followed hf _, knowsConstants_bound hlen fun i o w ho hw ↦
      hplain.isConstant (hbound i o w ho hw) hframe.1 hframe.2⟩
  operated a rest m _ _ frame hframe o _ v x c hv _ hdescribes hc := by
    obtain ⟨d, rfl⟩ := hplain.isConstant hv hframe.1 hframe.2
    obtain rfl : d = c := by
      simpa [StaticValue.constant?, StaticValue.unboxed] using hc
    exact hdescribes

end Plain

/-- In a run of a plain program in which no local is loaded before anything has been stored to it,
whatever has been asked before: what an operand is resolved to within a frame that knows constants
is the constant that the operand has wherever the frame fits, and the blocks that run there are
reachable in the flow graph. -/
theorem resolve_sound (hplain : Plain env) {history : List Question}
    (hhistory : ∀ q ∈ history, env.Has q.frame) (hframe : env.Has frame)
    (hconst : KnowsConstants frame) {f : Function} {args outside : List Value}
    (hf : env.program.function? f.name = some f) (hargs : ∀ x ∈ args, x.AddressFree)
    (houtside : ∀ x ∈ outside, x.AddressFree)
    (hrun : Runs env Initialized (.initial f args outside) s) {a : Activation} (ha : a ∈ s.stack)
    (hfit : a.Fits frame) :
    (∀ o v x, (Query.resolve env [] frame o (rememberedAfter env history)).1 = some v →
      a.operand o = some x → ∃ c, v = .const c ∧ x = .const c) ∧
    (a.block < a.function.blocks.length →
      (Query.flow env [] frame (rememberedAfter env history)).1.isReachable a.block) := by
  have hinv := Invariant.initial hf hargs houtside
  have hset := hplain.setting hinv
  have hr := hplain.careful_of_runs hinv hrun
  have hmemo := Analysis.justified_rememberedAfter hhistory
  constructor
  · intro o v x hv hx
    have hder := (Analysis.resolve_concludes [] hframe o _ hmemo).1 v hv
    obtain ⟨c, rfl⟩ := hplain.isConstant hder hframe hconst
    exact ⟨c, rfl, hset.holds hder ⟨hframe, hconst⟩ s hr a ha hfit x hx⟩
  · intro hlt
    have hder := (Analysis.flow_concludes [] hframe _ hmemo).1
    exact (hset.holds hder ⟨hframe, hconst⟩ s hr a ha hfit _ (List.getElem?_eq_getElem hlt)).1

namespace Sample

/-- A function that stores a text to a local, loads it and returns it. -/
def late : Function := ⟨"late", [], [⟨[.alloc ⟨0⟩ "string", .store (.value ⟨0⟩) (.const (.string "x")),
  .load ⟨1⟩ (.value ⟨0⟩)], .ret [.value ⟨1⟩]⟩]⟩

/-- A function that loads a local and returns that, but stores a text to the local in between. -/
def early : Function := ⟨"early", [], [⟨[.alloc ⟨0⟩ "string", .load ⟨1⟩ (.value ⟨0⟩),
  .store (.value ⟨0⟩) (.const (.string "x"))], .ret [.value ⟨1⟩]⟩]⟩

/-- The program of both. -/
def locals : Environment where program := .ofLists [] [early, late] []

theorem plain_locals : Plain locals := by
  have hmem : ∀ name f, locals.program.function? name = some f → f = early ∨ f = late := by
    intro name f hf
    have hf := List.mem_of_find?_eq_some hf
    rw [show locals.program.functions.toList = [early, late] by decide +kernel] at hf
    simpa using hf
  have halloc : ∀ f, f = early ∨ f = late → ∀ id dest typeName,
      f.definition id = some (.alloc dest typeName) → id = ⟨0⟩ := by
    intro f hf id dest typeName hd
    have hid : id ∈ [⟨0⟩, ⟨1⟩] := by
      have hdefined := Function.mem_definedValues_of_definition hd
      rcases hf with rfl | rfl <;> exact hdefined
    rcases List.mem_pair.mp hid with rfl | rfl
    · rfl
    · rcases hf with rfl | rfl <;> cases hd
  refine ⟨fun name f hf ↦ ?_, fun name f hf ↦ ?_, fun name f hf id dest typeName hd ↦ ?_⟩
  · rcases hmem name f hf with rfl | rfl <;> decide
  · rcases hmem name f hf with rfl | rfl <;> decide +kernel
  · obtain rfl := halloc f (hmem name f hf) id dest typeName hd
    rcases hmem name f hf with rfl | rfl <;> decide

/-- The function that stores first, once it has loaded. -/
def lateLoaded : Activation :=
  (({ function := late : Activation }.define (some ⟨0⟩) [.address 0]).define none []).define
    (some ⟨1⟩) [.const (.string "x")]

/-- The function that loads first, once it has loaded. -/
def earlyLoaded (v : Value) : Activation :=
  ({ function := early : Activation }.define (some ⟨0⟩) [.address 0]).define (some ⟨1⟩) [v]

/-- In the run of the function that stores first no local is loaded too early. -/
theorem runs_late : Runs locals Initialized (.initial late [] [])
    ⟨[lateLoaded], (Memory.allocate {} "string").store 0 (.const (.string "x"))⟩ := by
  refine .step (.step (.step .start ?_ (.perform rfl (.alloc _ _))) ?_
    (.perform rfl (.storeLocal rfl rfl))) ?_ (.perform rfl (.loadLocal rfl rfl (.inl rfl)))
  · intro a ha dest addr hload
    obtain rfl := Option.some.inj ha
    cases hload
  · intro a ha dest addr hload
    obtain rfl := Option.some.inj ha
    cases hload
  · intro a ha dest addr hload i c hi hc
    obtain rfl := Option.some.inj ha
    cases hload
    cases hi
    cases hc
    rfl

end Sample

open Sample in
/-- The function that stores first has in its run what its value is resolved to. -/
theorem resolve_sound_late :
    Runs locals Initialized (.initial late [] [])
        ⟨[lateLoaded], (Memory.allocate {} "string").store 0 (.const (.string "x"))⟩ ∧
      lateLoaded.operand (.value ⟨1⟩) = some (.const (.string "x")) ∧
      (Query.resolve locals [] ⟨late, []⟩ (.value ⟨1⟩)
          (rememberedAfter locals [.flow ⟨late, []⟩])).1 = some (.const (.string "x")) ∧
      ∃ c, StaticValue.const (.string "x") = .const c ∧ Value.const (.string "x") = .const c := by
  have hframe : locals.Has ⟨late, []⟩ := by
    unfold Environment.Has
    decide +kernel
  have hresolve : (Query.resolve locals [] ⟨late, []⟩ (.value ⟨1⟩)
      (rememberedAfter locals [.flow ⟨late, []⟩])).1 = some (.const (.string "x")) := by
    change (Query.resolve locals [] ⟨late, []⟩ (.value ⟨1⟩)
      (Query.flow locals [] ⟨late, []⟩ {}).2).1 = some (.const (.string "x"))
    decide +kernel
  have hhistory : ∀ q ∈ [Question.flow ⟨late, []⟩], locals.Has q.frame := by
    intro q hq
    obtain rfl := List.mem_singleton.mp hq
    exact hframe
  have hsound := resolve_sound plain_locals hhistory hframe (fun i v h ↦ by simp [Frame.arg] at h)
    hframe (by simp) (by simp) runs_late (List.mem_singleton_self _)
    ⟨rfl, fun i v x h ↦ by simp [Frame.arg] at h⟩
  exact ⟨runs_late, rfl, hresolve, hsound.1 _ _ _ hresolve rfl⟩

open Sample in
/-- The function that loads first is resolved to what it stores later, though what it has loaded is
the empty text. -/
theorem resolve_early_ne : Plain locals ∧ locals.Has ⟨early, []⟩ ∧ KnowsConstants ⟨early, []⟩ ∧
    (∃ m, Runs locals (fun _ ↦ True) (.initial early [] [])
      ⟨[earlyLoaded (.const (.string ""))], m⟩) ∧
    (earlyLoaded (.const (.string ""))).Fits ⟨early, []⟩ ∧
    (Query.resolve locals [] ⟨early, []⟩ (.value ⟨1⟩) (rememberedAfter locals [])).1 =
      some (.const (.string "x")) ∧
    (earlyLoaded (.const (.string ""))).operand (.value ⟨1⟩) = some (.const (.string "")) := by
  refine ⟨plain_locals, ?_, fun i v h ↦ by simp [Frame.arg] at h, ⟨.allocate {} "string", ?_⟩,
    ⟨rfl, fun i v x h ↦ by simp [Frame.arg] at h⟩, ?_, rfl⟩
  · unfold Environment.Has
    decide +kernel
  · have hzero : (Value.const (.string "")).IsZero "string" := by
      unfold Value.IsZero
      rw [if_pos rfl]
    exact .step (.step .start trivial (.perform rfl (.alloc _ _))) trivial
      (.perform rfl (.loadLocal rfl rfl (.inr ⟨rfl, hzero⟩)))
  · change (Query.resolve locals [] ⟨early, []⟩ (.value ⟨1⟩) {}).1 = some (.const (.string "x"))
    decide +kernel

end Wiring.Run
