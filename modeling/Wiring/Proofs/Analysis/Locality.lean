import Wiring.Proofs.Analysis.Accord
import Wiring.Proofs.Analysis.Marks
import Wiring.Proofs.Program.Mentions

/-!
# Locality

An analysis looks up nothing by a name that the program does not mention. So what goes by other
names makes no difference: as long as a question is about functions of the program, it is answered
alike in every environment that has all that is in the program, and nothing else by its names.
-/

namespace Wiring.Analysis

open Wiring.Program (Callee Instruction Function Operand ValueId mentionedType)

/-- The second environment has what is in the program of the first, and by the names that are
mentioned there it has nothing else. -/
structure Extension (env env' : Environment) : Prop where
  vocabulary : env'.vocabulary = env.vocabulary
  maxCallDepth : env'.maxCallDepth = env.maxCallDepth
  function?_of_some {name : String} {f : Function} (h : env.program.function? name = some f) :
    env'.program.function? name = some f
  function?_of_mem {name : String} (h : .function name ∈ env.program.mentions) :
    env'.program.function? name = env.program.function? name
  global?_of_mem {name : String} (h : .global name ∈ env.program.mentions) :
    env'.program.global? name = env.program.global? name
  namedType?_of_mem {name : String} (h : mentionedType name ∈ env.program.mentions) :
    env'.program.namedType? name = env.program.namedType? name

namespace Extension

variable {env env' : Environment} (h : Extension env env')
include h

/-- A method that was found is found, and one that was not is not. -/
theorem method?_eq {typeName : String} (htype : mentionedType typeName ∈ env.program.mentions)
    (method : String) : env'.program.method? typeName method =
      env.program.method? typeName method := by
  unfold Program.method?
  rw [h.namedType?_of_mem htype]
  cases ht : env.program.namedType? typeName with
  | none => rfl
  | some t =>
    cases hm : t.method? method with
    | none => simp [hm]
    | some function =>
      have hfunction := h.function?_of_mem (Program.function_mem_mentions ht hm)
      simpa [hm] using hfunction

/-- A function of the program is one of the other as well. -/
theorem has {frame : Frame} (hframe : env.Has frame) : env'.Has frame := h.function?_of_some hframe

/-- Of the functions of the program, the same may be entered. -/
theorem mayEnter_iff {stack : List String} {frame : Frame} (hframe : env.Has frame) :
    env'.MayEnter stack frame.name ↔ env.MayEnter stack frame.name := by
  unfold Environment.MayEnter
  rw [h.maxCallDepth]
  refine and_congr_left fun _ ↦ ?_
  exact iff_of_true (Environment.mem_functionNames (h.has hframe))
    (Environment.mem_functionNames hframe)

section Within

variable {f : Function} (hf : env.program.function? f.name = some f)
include hf

/-- A call in a function of the program runs what it did. -/
theorem followed_eq {dest : Option ValueId} {callee : Callee} {args : List Operand}
    (hi : .call dest callee args ∈ f.instructions) :
    env'.followed callee = env.followed callee := by
  have hmem {m : Program.Mention} (hm : m ∈ (Instruction.call dest callee args).mentions) :
      m ∈ env.program.mentions := Program.mem_mentions hf hi hm
  unfold Environment.followed Environment.staticCallee
  split
  · next function typeArgs => rw [h.function?_of_mem (hmem (by simp [Instruction.mentions]))]
  · next function =>
    rw [h.function?_of_mem (hmem (by simp [Instruction.mentions, Instruction.operands,
      Callee.operands, Operand.mentions]))]
  · rfl
  · rfl

variable {src : Sources Memoized} {resolve : Resolver Memoized}

/-- A result of a call is found from the same sources. -/
theorem resolveCall_eq {dest : Option ValueId} {callee : Callee} {args : List Operand}
    (hi : .call dest callee args ∈ f.instructions) (index : Nat) :
    resolveCall env' src resolve callee args index =
      resolveCall env src resolve callee args index := by
  unfold resolveCall
  rw [h.followed_eq hf hi, h.vocabulary]

/-- The value that an instruction of the program defines is found from the same sources. -/
theorem resolveInstruction_eq {i : Instruction} (hi : i ∈ f.instructions) :
    resolveInstruction env' src f resolve i = resolveInstruction env src f resolve i := by
  cases i with
  | call dest callee args => exact h.resolveCall_eq hf hi 0
  | extract dest tuple index =>
    cases tuple with
    | value id =>
      unfold resolveInstruction
      dsimp only
      split
      · next hd => exact h.resolveCall_eq hf (List.mem_of_find?_eq_some hd) index.toNat
      · rfl
    | param | const | global | function => rfl
  | load dest addr =>
    cases addr with
    | global name =>
      have hname : .global name ∈ env.program.mentions := Program.mem_mentions hf hi
        (by simp [Instruction.mentions, Instruction.operands, Operand.mentions])
      unfold resolveInstruction resolveLoad
      dsimp only
      rw [h.global?_of_mem hname]
    | value | param | const | function => rfl
  | makeInterface | changeInterface | alloc | store | binOp | not | phi | slice | opaqueValue => rfl

/-- An operand within a frame is resolved from the same sources. -/
theorem resolveOperand_eq (args : List (Option StaticValue)) (visiting : List ValueId)
    (o : Operand) : resolveOperand env' src ⟨f, args⟩ visiting o =
      resolveOperand env src ⟨f, args⟩ visiting o := by
  -- by the number of values that may still be followed
  induction hn : (unvisited f visiting).length using Nat.strongRecOn generalizing visiting o with
  | ind n ih =>
    cases o with
    | value id =>
      rw [resolveOperand_value, resolveOperand_value]
      split
      · rfl
      · next hv =>
        dsimp only
        cases hd : f.definition id with
        | none => rfl
        | some i =>
          have hresolve : resolveOperand env' src ⟨f, args⟩ (id :: visiting) =
              resolveOperand env src ⟨f, args⟩ (id :: visiting) :=
            funext fun o ↦ ih _ (hn ▸ unvisited_lt hv hd) _ o rfl
          dsimp only
          rw [hresolve, h.resolveInstruction_eq hf (List.mem_of_find?_eq_some hd)]
    | const | param | global | function =>
      rw [resolveOperand, resolveOperand]
      rfl

end Within

section Results

variable {frame : Frame} (hframe : env.Has frame) (results : Results) (building : List String)
include hframe

/-- The flow graph of a frame is built from the same results. -/
theorem flowOf_results :
    flowOf env' results building frame = flowOf env results building frame := by
  have hresolve (src : Sources Memoized) :
      resolveOperand env' src frame [] = resolveOperand env src frame [] :=
    funext fun o ↦ h.resolveOperand_eq hframe frame.args [] o
  unfold flowOf builtFlow
  dsimp only
  rw [hresolve]

/-- An operand within a frame is resolved from the same results. -/
theorem resolveIn_results :
    resolveIn env' results building frame = resolveIn env results building frame := by
  unfold resolveIn sources
  rw [h.flowOf_results hframe]
  exact funext fun o ↦ h.resolveOperand_eq hframe frame.args [] o

/-- A result of a function in a frame is found from the same results. -/
theorem agreedResult_results (index : Nat) : agreedResult env' results building frame index =
    agreedResult env results building frame index := by
  unfold agreedResult
  rw [h.flowOf_results hframe, h.resolveIn_results hframe]

end Results

end Extension

section Congr

variable {env : Environment} {results results' : Results}
  (hresults : ∀ building callee, env.Has callee → ∀ index,
    results' building callee index = results building callee index)
include hresults

/-- The flow graph of a frame depends on the results of functions of the program. -/
theorem flowOf_congr (building : List String) (frame : Frame) :
    flowOf env results' building frame = flowOf env results building frame :=
  congrArg (Memoized.rememberedFlow frame.key) <| lockstep_eq.builtFlow (.refl env) rfl
    fun _ _ hg args i ↦ hresults _ _ (Environment.has_of_followed hg args) i

/-- What resolution draws on for flow graphs does so too. -/
theorem flow_sources_congr (building : List String) (frame : Frame) :
    (sources env results' building frame).flow = (sources env results building frame).flow := by
  unfold sources
  rw [flowOf_congr hresults]

/-- An operand within a frame depends on the results of functions of the program. -/
theorem resolveIn_congr (building : List String) (frame : Frame) :
    resolveIn env results' building frame = resolveIn env results building frame :=
  funext fun o ↦ lockstep_eq.resolveOperand_same (.refl env)
    (fun _ _ hg args i ↦ hresults _ _ (Environment.has_of_followed hg args) i)
    (flow_sources_congr hresults building frame) [] o

/-- A result of a function depends on the results of functions of the program. -/
theorem agreedResult_congr (building : List String) (frame : Frame) (index : Nat) :
    agreedResult env results' building frame index =
      agreedResult env results building frame index :=
  lockstep_eq.agreedResult (.refl env)
    (fun _ _ hg args i ↦ hresults _ _ (Environment.has_of_followed hg args) i)
    (flowOf_congr hresults building frame) (flow_sources_congr hresults building frame) index

end Congr

namespace Extension

variable {env env' : Environment} (h : Extension env env') {stack : List String} {frame : Frame}
  (hframe : env.Has frame)
include h hframe

/-- A result of a call. -/
theorem resultOf_eq (building : List String) (index : Nat) :
    resultOf env' stack building frame index = resultOf env stack building frame index := by
  -- by the number of functions that may still be entered
  induction hn : (env.remaining stack).length using Nat.strongRecOn
    generalizing stack building frame index with
  | ind n ih =>
    rw [Analysis.resultOf_eq, Analysis.resultOf_eq]
    refine congrArg (Memoized.rememberedResult _ index) ?_
    unfold computedResult
    by_cases henter : env.MayEnter stack frame.name
    · rw [if_pos henter, if_pos ((h.mayEnter_iff hframe).mpr henter),
        h.agreedResult_results hframe]
      exact agreedResult_congr (fun building callee hcallee index ↦
        ih _ (hn ▸ Environment.remaining_lt henter) hcallee building index rfl) building frame index
    · rw [if_neg henter, if_neg (henter ∘ (h.mayEnter_iff hframe).mp)]

/-- The flow graph of a frame. -/
theorem flowOf_eq : flowOf env' (resultOf env' stack) [] frame =
    flowOf env (resultOf env stack) [] frame := by
  rw [h.flowOf_results hframe]
  exact flowOf_congr (fun building callee hcallee index ↦ h.resultOf_eq hcallee building index) []
    frame

/-- An operand within a frame. -/
theorem resolveIn_eq : resolveIn env' (resultOf env' stack) [] frame =
    resolveIn env (resultOf env stack) [] frame := by
  rw [h.resolveIn_results hframe]
  exact resolveIn_congr (fun building callee hcallee index ↦ h.resultOf_eq hcallee building index)
    [] frame

/-- The calls on a configurer. -/
theorem walk_eq_walk (params : List Nat) (inherited : Fidelity) :
    walk env' stack frame params inherited = walk env stack frame params inherited := by
  -- by the number of functions that may still be entered
  induction hn : (env.remaining stack).length using Nat.strongRecOn
    generalizing stack frame params inherited with
  | ind n ih =>
    have hencountered (g : FlowGraph) (e : Encounter × Bool)
        (he : e ∈ (Taint.ofParams frame.function params).encounters frame.function g) :
        encountered env' stack frame inherited e = encountered env stack frame inherited e := by
      obtain ⟨encounter, always⟩ := e
      cases encounter with
      | call method args => rfl
      | handover handover =>
        obtain ⟨b, -, i, hi, hencounter⟩ := Taint.exists_of_mem_encounters he
        obtain ⟨⟨dest, rfl⟩, -⟩ := Taint.encounter_eq_handover_iff.mp hencounter
        have heq := h.followed_eq hframe (Function.mem_instructions_iff.mpr ⟨b, hi⟩)
        cases hf : env.followed handover.callee with
        | none => rw [encountered_of_none hf, encountered_of_none (heq.trans hf)]
        | some f =>
          rw [encountered_of_some hf, encountered_of_some (heq.trans hf)]
          have hhas := Environment.has_of_followed hf
          have hmay : env'.MayEnter stack f.name ↔ env.MayEnter stack f.name :=
            h.mayEnter_iff (hhas [])
          by_cases henter : env.MayEnter stack f.name
          · rw [if_pos henter, if_pos (hmay.mpr henter), h.resolveIn_eq hframe]
            refine congrArg (boundArgs _ handover >>= ·) (funext fun args ↦ ?_)
            exact ih _ (hn ▸ Environment.remaining_lt henter) (hhas args) _ _ rfl
          · rw [if_neg henter, if_neg (henter ∘ hmay.mp)]
    have hflow : Query.flow env' stack frame = Query.flow env stack frame := h.flowOf_eq hframe
    rw [walk_eq, walk_eq, hflow]
    refine congrArg (Query.flow env stack frame >>= ·) (funext fun g ↦ ?_)
    exact congrArg (· >>= _) (lockstep_eq.mapM _ (hencountered g))

/-- The calls on the configurer that a frame's function receives. -/
theorem findConfigurerCalls_eq (configurer : Nat) :
    findConfigurerCalls env' stack frame configurer =
      findConfigurerCalls env stack frame configurer := by
  unfold findConfigurerCalls
  by_cases henter : env.MayEnter stack frame.name
  · rw [if_pos henter, if_pos ((h.mayEnter_iff hframe).mpr henter)]
    exact h.walk_eq_walk hframe _ _
  · rw [if_neg henter, if_neg (henter ∘ (h.mayEnter_iff hframe).mp)]

end Extension
end Wiring.Analysis
