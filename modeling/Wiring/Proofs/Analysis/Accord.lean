import Wiring.Proofs.Analysis.Lockstep
import Wiring.Proofs.Analysis.Walk

/-!
# Environments in accord

Two environments may differ in functions that are not entered, and in how deep calls are followed
where the depth is not reached. While the functions on such a stack are being followed, every
question has the same answer in both, and the same is remembered afterwards.
-/

namespace Wiring.Analysis

open Wiring.Program (Operand Function)

/-- While the functions on a possible stack are being followed, the environments agree on which
functions may be entered, and a function that may be is its own counterpart. -/
structure Accord (env env' : Environment) (counterpart : Function → Function)
    (possible : List String → Prop) : Prop extends Mirrors env env' counterpart where
  name_counterpart (f : Function) : (counterpart f).name = f.name
  mayEnter {stack : List String} (h : possible stack) (name : String) :
    env'.MayEnter stack name ↔ env.MayEnter stack name
  enter {stack : List String} {name : String} (h : possible stack) (hn : env.MayEnter stack name) :
    possible (name :: stack)
  counterpart_eq {stack : List String} {f : Function} (h : possible stack)
    (hf : env.MayEnter stack f.name) : counterpart f = f

/-- Being equal goes through sequencing. -/
theorem lockstep_eq : Lockstep (m := Memoized) (n := Memoized) fun _ c c' ↦ c = c' where
  pure _ := rfl
  bind hc hf := by rw [hc, funext hf]

namespace Accord

variable {env env' : Environment} {counterpart : Function → Function}
  {possible : List String → Prop} (h : Accord env env' counterpart possible) {stack : List String}
include h

section Results

variable {results results' : Results}
  (hresults : ∀ building g args i,
    results building ⟨g, args⟩ i = results' building ⟨counterpart g, args⟩ i)
include hresults

/-- The flow graph of a frame, if the results of calls agree. -/
theorem flowOf_of (building : List String) (frame : Frame) :
    flowOf env results building frame = flowOf env' results' building frame := by
  have hbuilt : builtFlow env results building frame = builtFlow env' results' building frame :=
    lockstep_eq.builtFlow h.toMirrors rfl fun _ g _ args i ↦ hresults _ g args i
  exact congrArg (Memoized.rememberedFlow frame.key) hbuilt

/-- What resolution draws on for flow graphs, if the results of calls agree. -/
theorem flow_sources_of (building : List String) (frame : Frame) :
    (sources env results building frame).flow = (sources env' results' building frame).flow := by
  unfold sources
  rw [h.flowOf_of hresults]

/-- A result of a function in a frame, if the results of calls agree. -/
theorem agreedResult_of (building : List String) (frame : Frame) (index : Nat) :
    agreedResult env results building frame index =
      agreedResult env' results' building frame index :=
  lockstep_eq.agreedResult h.toMirrors (fun _ g _ args i ↦ hresults _ g args i)
    (h.flowOf_of hresults building frame) (h.flow_sources_of hresults building frame) index

/-- An operand within a frame, if the results of calls agree. -/
theorem resolveIn_of (building : List String) (frame : Frame) :
    resolveIn env results building frame = resolveIn env' results' building frame :=
  funext fun o ↦ lockstep_eq.resolveOperand_same h.toMirrors
    (fun _ g _ args i ↦ hresults _ g args i) (h.flow_sources_of hresults building frame) [] o

end Results

/-- A result of a call. -/
theorem resultOf_counterpart (hstack : possible stack) (building : List String) (f : Function)
    (args : List (Option StaticValue)) (index : Nat) :
    resultOf env stack building ⟨f, args⟩ index =
      resultOf env' stack building ⟨counterpart f, args⟩ index := by
  -- by the number of functions that may still be entered
  induction hn : (env.remaining stack).length using Nat.strongRecOn
    generalizing stack building f args index with
  | ind n ih =>
    have hname : (⟨counterpart f, args⟩ : Frame).name = (⟨f, args⟩ : Frame).name :=
      h.name_counterpart f
    have hkey : (⟨counterpart f, args⟩ : Frame).key = (⟨f, args⟩ : Frame).key :=
      congrArg (·, args) hname
    rw [resultOf_eq, resultOf_eq, hkey]
    refine congrArg (Memoized.rememberedResult _ index) ?_
    unfold computedResult
    by_cases henter : env.MayEnter stack (⟨f, args⟩ : Frame).name
    · rw [if_pos henter, hname, if_pos ((h.mayEnter hstack _).mpr henter),
        h.counterpart_eq hstack henter]
      exact h.agreedResult_of (fun building g args i ↦ ih _ (hn ▸ Environment.remaining_lt henter)
        (h.enter hstack henter) building g args i rfl) building _ index
    · rw [if_neg henter, hname, if_neg (henter ∘ (h.mayEnter hstack _).mp)]

/-- The flow graph of a frame. -/
theorem flowOf_eq (hstack : possible stack) (building : List String) (frame : Frame) :
    flowOf env (resultOf env stack) building frame =
      flowOf env' (resultOf env' stack) building frame :=
  h.flowOf_of (h.resultOf_counterpart hstack) building frame

/-- An operand within a frame. -/
theorem resolveIn_eq (hstack : possible stack) (building : List String) (frame : Frame) :
    resolveIn env (resultOf env stack) building frame =
      resolveIn env' (resultOf env' stack) building frame :=
  h.resolveIn_of (h.resultOf_counterpart hstack) building frame

/-- The calls on a configurer. -/
theorem walk_eq_walk (hstack : possible stack) (frame : Frame) (params : List Nat)
    (inherited : Fidelity) : walk env stack frame params inherited =
      walk env' stack frame params inherited := by
  -- by the number of functions that may still be entered
  induction hn : (env.remaining stack).length using Nat.strongRecOn
    generalizing stack frame params inherited with
  | ind n ih =>
    have hencountered : encountered env stack frame inherited =
        encountered env' stack frame inherited := by
      funext ⟨encounter, always⟩
      cases encounter with
      | call method args => rfl
      | handover handover =>
        have heq := h.followed handover.callee
        cases hf : env.followed handover.callee with
        | none =>
          rw [hf] at heq
          rw [encountered_of_none hf, encountered_of_none heq]
        | some f =>
          rw [hf] at heq
          rw [encountered_of_some hf, encountered_of_some heq, h.name_counterpart f]
          by_cases henter : env.MayEnter stack f.name
          · have hlt := hn ▸ Environment.remaining_lt henter
            have hnext := h.enter hstack henter
            rw [if_pos henter, if_pos ((h.mayEnter hstack _).mpr henter),
              h.counterpart_eq hstack henter, h.resolveIn_eq hnext]
            exact congrArg (boundArgs _ handover >>= ·) (funext fun args ↦ ih _ hlt hnext _ _ _ rfl)
          · rw [if_neg henter, if_neg (henter ∘ (h.mayEnter hstack _).mp)]
    have hflow : Query.flow env stack frame = Query.flow env' stack frame :=
      h.flowOf_eq hstack [] frame
    rw [walk_eq, walk_eq, hflow, hencountered]

/-- The calls on the configurer that a frame's function receives. -/
theorem findConfigurerCalls_eq (hstack : possible stack) (frame : Frame) (configurer : Nat) :
    findConfigurerCalls env stack frame configurer =
      findConfigurerCalls env' stack frame configurer := by
  unfold findConfigurerCalls
  by_cases henter : env.MayEnter stack frame.name
  · rw [if_pos henter, if_pos ((h.mayEnter hstack _).mpr henter)]
    exact h.walk_eq_walk (h.enter hstack henter) frame _ _
  · rw [if_neg henter, if_neg (henter ∘ (h.mayEnter hstack _).mp)]

end Accord
end Wiring.Analysis
