import Wiring.Proofs.Analysis.Chains
import Wiring.Proofs.Analysis.Remembering

/-!
# Arguments of followed calls

A walk that goes on to a function binds its parameters to what the arguments resolve to, once the
function has been entered. Where this is not cut short, an argument is bound to what it resolves to
while only the functions that lead to the call are being followed: fewer functions on the stack
leave more to follow.
-/

namespace Wiring.Analysis

open Wiring.Program (Operand ValueId Instruction Function Callee)
open Memoized

/-- Where the first computation is not cut short, the second one does the same. -/
structure Attains {α : Type} (c c' : Memoized α) : Prop where
  grows : Grows c
  same (m : Memo) (h : Uncut c m) : c' m = c m

/-- Doing the same goes through sequencing. -/
theorem lockstep_attains : Lockstep (m := Memoized) (n := Memoized) fun _ ↦ Attains where
  pure a := ⟨.pure a, fun _ _ ↦ rfl⟩
  bind {α β c c' f f'} hc hf :=
    { grows := hc.grows.bind fun a ↦ (hf a).grows
      same := fun m h ↦ by
        have hparts := h.of_bind hc.grows fun a ↦ (hf a).grows
        show f' (c' m).1 (c' m).2 = f (c m).1 (c m).2
        rw [hc.same m hparts.1]
        exact (hf (c m).1).same (c m).2 hparts.2 }

namespace Attains

variable {env : Environment} {stack stack' : List String}

/-- A remembered answer is given to both; another one is kept by both or by none. -/
theorem remembered {α : Type} {c c' : Memoized α} {find? : Memo → Option α}
    {keep : α → Memo → Memo} {entry : α → Entry} (hk : Keeps find? keep entry)
    (h : Attains c c') :
    Attains (Memoized.remembered find? keep c) (Memoized.remembered find? keep c') where
  grows := h.grows.remembered hk
  same m huncut := (remembered_congr fun hnone ↦ (h.same m (huncut.of_remembered hnone)).symm).symm

/-- What is always cut short says nothing about the other computation. -/
theorem of_cutOff {α : Type} (a : α) (c : Memoized α) :
    Attains (do Memoized.cutOff; return a) c where
  grows := grows_cutOff a
  same m h := absurd h (not_uncut_cutOff a m)

/-- The flow graph of a frame, if the results of calls do the same. -/
theorem flowOf_of {results results' : Results}
    (h : ∀ building callee i, Attains (results building callee i) (results' building callee i))
    (building : List String) (frame : Frame) :
    Attains (flowOf env results building frame) (flowOf env results' building frame) := by
  apply Attains.remembered (keeps_flow frame.key)
  apply lockstep_attains.builtFlow (.refl env) (.of_cutOff none _)
  intro _ g _ args i
  exact h _ ⟨g, args⟩ i

/-- What resolution draws on for flow graphs, if the results of calls do the same. -/
theorem flow_sources_of {results results' : Results}
    (h : ∀ building callee i, Attains (results building callee i) (results' building callee i))
    (building : List String) (frame : Frame) : Attains (sources env results building frame).flow
      (sources env results' building frame).flow := by
  unfold sources
  by_cases hbuilding : frame.name ∈ building
  · simp only [hbuilding, if_true]
    exact .of_cutOff none _
  · simp only [hbuilding, if_false]
    exact lockstep_attains.map (flowOf_of h building frame) some

/-- A result of a call, where fewer functions are being followed. -/
theorem resultOf (hsub : stack' ⊆ stack) (hlength : stack'.length ≤ stack.length)
    (building : List String) (frame : Frame) (index : Nat) :
    Attains (resultOf env stack building frame index)
      (resultOf env stack' building frame index) := by
  -- by the number of functions that may still be entered
  induction hn : (env.remaining stack).length using Nat.strongRecOn
    generalizing stack stack' building frame index with
  | ind n ih =>
    rw [resultOf_eq, resultOf_eq]
    apply Attains.remembered (keeps_result frame.key index)
    unfold computedResult
    by_cases henter : env.MayEnter stack frame.name
    · have henter' : env.MayEnter stack' frame.name :=
        ⟨henter.1, fun hmem ↦ henter.2.1 (hsub hmem), Nat.lt_of_le_of_lt hlength henter.2.2⟩
      rw [if_pos henter, if_pos henter']
      have hresults (building : List String) (callee : Frame) (i : Nat) :
          Attains (Analysis.resultOf env (frame.name :: stack) building callee i)
            (Analysis.resultOf env (frame.name :: stack') building callee i) :=
        ih _ (hn ▸ Environment.remaining_lt henter) (List.cons_subset_cons _ hsub)
          (Nat.succ_le_succ hlength) building callee i rfl
      exact lockstep_attains.agreedResult (.refl env) (fun _ g _ args i ↦ hresults _ ⟨g, args⟩ i)
        (flowOf_of hresults building frame) (flow_sources_of hresults building frame) index
    · rw [if_neg henter]
      apply of_cutOff

/-- An operand within a frame, where fewer functions are being followed. -/
theorem resolve (hsub : stack' ⊆ stack) (hlength : stack'.length ≤ stack.length) (frame : Frame)
    (o : Operand) : Attains (Query.resolve env stack frame o) (Query.resolve env stack' frame o) :=
  lockstep_attains.resolveOperand_same (.refl env)
    (fun _ g _ args i ↦ resultOf hsub hlength _ ⟨g, args⟩ i)
    (flow_sources_of (resultOf hsub hlength) [] frame) [] o

end Attains

namespace Visit

/-- The arguments of a call at a place, with their positions, and each with what is remembered when
it is bound for the visit that the call leads to. -/
def argumentTurns (env : Environment) (v : Visit) (p : Place) (w : Visit) (args : List Operand) :
    List ((Operand × Nat) × Memo) :=
  turns (fun (a, i) ↦ if i ∈ w.params then return none else Query.resolve env w.stack v.frame a)
    args.zipIdx (v.memoAt env p)

/-- Where the walk goes on to a function, the arguments that may be the configurer are unknown. Any
other is bound to what it resolves to in the calling frame once the function has been entered; if
that is not cut short, it is what the argument resolves to before the function is entered. -/
theorem args_of_follows {env : Environment} {v w : Visit} {p : Place} {dest : Option ValueId}
    {callee : Callee} {args : List Operand} (h : v.Follows env p w)
    (hruns : v.Runs env p (.call dest callee args)) :
    (v.argumentTurns env p w args).map Prod.fst = args.zipIdx ∧
    List.Forall₂ (fun t value ↦
        (t.1.2 ∈ w.params → value = none) ∧
        (t.1.2 ∉ w.params → value = (Query.resolve env w.stack v.frame t.1.1 t.2).1 ∧
          (Uncut (Query.resolve env w.stack v.frame t.1.1) t.2 →
            value = (Query.resolve env v.stack v.frame t.1.1 t.2).1)))
      (v.argumentTurns env p w args) w.frame.args := by
  obtain ⟨_, _, _, f, hruns', -, -, -, -, -, -, hw⟩ := h
  cases hruns.unique hruns'
  have hstack : w.stack = f.name :: v.stack := congrArg stack hw
  have hargs : w.frame.args = (v.argumentTurns env p w args).map fun t ↦
      ((if t.1.2 ∈ w.params then return none
        else Query.resolve env w.stack v.frame t.1.1 : Memoized _) t.2).1 := by
    rw [hw]
    exact mapM_fst _ _ _
  refine ⟨map_fst_turns _ _ _, ?_⟩
  rw [hargs, List.forall₂_map_right_iff, List.forall₂_same]
  intro t _
  constructor
  · intro hmem
    rw [if_pos hmem]
    rfl
  · intro hmem
    rw [if_neg hmem]
    refine ⟨rfl, fun huncut ↦ ?_⟩
    have hsub : v.stack ⊆ w.stack := by
      rw [hstack]
      exact List.subset_cons_self _ _
    have hlength : v.stack.length ≤ w.stack.length := by
      rw [hstack, List.length_cons]
      omega
    rw [(Attains.resolve hsub hlength v.frame t.1.1).same t.2 huncut]

end Visit

namespace Naming

/-- A function that gives a name. -/
def name : Function := ⟨"name", [], [⟨[], .ret [.const (.string "app")]⟩]⟩

/-- A function that gives its first parameter the identity of the name it is passed. -/
def identify : Function := ⟨"identify", [],
  [⟨[.call none (.invoke (.param 0) "Identity") [.param 1, .const (.string "key")]], .ret []⟩]⟩

/-- A function that passes both on. -/
def configure : Function := ⟨"configure", [],
  [⟨[.call (some ⟨0⟩) (.static "name" []) [],
     .call none (.static "identify" []) [.param 0, .value ⟨0⟩]], .ret []⟩]⟩

/-- The program of the three, where calls are followed so deep. -/
def program (depth : Nat) : Environment where
  program := .ofLists [] [configure, identify, name] []
  maxCallDepth := depth

/-- The visit that the search for calls begins with. -/
def start : Visit := .first ⟨configure, []⟩ 0 {}

/-- The visit that it goes on to. -/
def identifying (depth : Nat) : Visit :=
  start.next (program depth) ⟨0, 1⟩
    ⟨.static "identify" [], [.param 0, .value ⟨0⟩], start.taint.positions [.param 0, .value ⟨0⟩]⟩
    identify

/-- What is remembered when it gets to the call. -/
def before (depth : Nat) : Memo := start.memoAt (program depth) ⟨0, 1⟩

theorem runs_identify {depth : Nat} (h : (start.graph (program depth)).isReachable 0) :
    start.Runs (program depth) ⟨0, 1⟩
      (.call none (.static "identify" []) [.param 0, .value ⟨0⟩]) := ⟨h, _, rfl, rfl⟩

theorem follows_identifying {depth : Nat} (h : (start.graph (program depth)).isReachable 0)
    (hdepth : 1 < depth) : start.Follows (program depth) ⟨0, 1⟩ (identifying depth) := by
  refine ⟨none, .static "identify" [], [.param 0, .value ⟨0⟩], identify, runs_identify h, ?_, ?_,
    ?_, rfl, ?_, hdepth, rfl⟩
  · intro receiver method heq
    cases heq
  · exact ⟨.param 0, List.mem_cons_self, by decide +kernel⟩
  · rfl
  · decide +kernel

end Naming

open Naming in
/-- If calls are followed three deep, the parameter is bound to the name that the other function
gives. -/
theorem args_of_follows_deep : start.Follows (program 3) ⟨0, 1⟩ (identifying 3) ∧
    start.Runs (program 3) ⟨0, 1⟩ (.call none (.static "identify" []) [.param 0, .value ⟨0⟩]) ∧
    1 ∉ (identifying 3).params ∧
    Uncut (Query.resolve (program 3) (identifying 3).stack start.frame (.value ⟨0⟩)) (before 3) ∧
    (identifying 3).frame.args = [none, some (.const (.string "app"))] ∧
    (Query.resolve (program 3) start.stack start.frame (.value ⟨0⟩) (before 3)).1 =
      some (.const (.string "app")) := by
  have hreachable : (start.graph (program 3)).isReachable 0 := by decide +kernel
  have hfollows := follows_identifying hreachable (by decide)
  have hruns := runs_identify hreachable
  have hparam : 1 ∉ (identifying 3).params := by decide +kernel
  have hargs : (identifying 3).frame.args = [none, some (.const (.string "app"))] := by
    decide +kernel
  have huncut : Uncut (Query.resolve (program 3) (identifying 3).stack start.frame (.value ⟨0⟩))
      (before 3) := by
    unfold Uncut
    decide +kernel
  have hturns : start.argumentTurns (program 3) ⟨0, 1⟩ (identifying 3) [.param 0, .value ⟨0⟩] =
      [((.param 0, 0), before 3), ((.value ⟨0⟩, 1), before 3)] := by
    decide +kernel
  have hall := (Visit.args_of_follows hfollows hruns).2
  rw [hturns, hargs, List.forall₂_cons, List.forall₂_cons] at hall
  have hbound := (hall.2.1.2 hparam).2 huncut
  exact ⟨hfollows, hruns, hparam, huncut, hargs, hbound.symm⟩

open Naming in
/-- If calls are followed two deep, the parameter is unknown, though before the function is entered
the argument resolves. -/
theorem args_of_follows_shallow_ne : start.Follows (program 2) ⟨0, 1⟩ (identifying 2) ∧
    (identifying 2).params = [0] ∧ (identifying 2).frame.args = [none, none] ∧
    (Query.resolve (program 2) start.stack start.frame (.value ⟨0⟩) (before 2)).1 =
      some (.const (.string "app")) := by
  have hreachable : (start.graph (program 2)).isReachable 0 := by decide +kernel
  exact ⟨follows_identifying hreachable (by decide), by decide +kernel, by decide +kernel,
    by decide +kernel⟩

end Wiring.Analysis
