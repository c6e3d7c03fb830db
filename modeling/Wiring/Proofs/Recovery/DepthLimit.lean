import Wiring.Analysis.Recovery
import Wiring.Proofs.Analysis.Accord
import Mathlib.Data.List.Perm.Subperm

/-!
# The limit of the call depth

Functions are followed one inside another, none of them inside itself, so there are never more of
them than the program has. A limit that is not below that number is never what keeps a function
from being followed, and which such limit it is has no bearing on the answers.
-/

namespace Wiring.Analysis

open Wiring.Program (Function)

/-- The functions on the stack are functions of the program, and none is there twice. -/
structure Environment.Follows (env : Environment) (stack : List String) : Prop where
  nodup : stack.Nodup
  subset : stack ⊆ env.functionNames

namespace Environment.Follows

variable {env : Environment} {stack : List String} {name : String}

/-- At first no function is followed. -/
theorem nil : env.Follows [] := ⟨List.nodup_nil, List.nil_subset _⟩

/-- A function that is entered is one of the program, and not followed yet. -/
theorem enter (h : env.Follows stack) (hname : name ∈ env.functionNames) (hnot : name ∉ stack) :
    env.Follows (name :: stack) :=
  ⟨List.nodup_cons.mpr ⟨hnot, h.nodup⟩, List.cons_subset.mpr ⟨hname, h.subset⟩⟩

/-- There are no more functions to follow than the program has. -/
theorem length_le (h : env.Follows stack) :
    stack.length ≤ env.program.functions.toList.length := by
  have hle := (h.nodup.subperm h.subset).length_le
  rwa [functionNames, List.length_map] at hle

/-- A limit that is not below the number of functions keeps no function from being followed. -/
theorem mayEnter_iff (h : env.Follows stack)
    (hdepth : env.program.functions.toList.length ≤ env.maxCallDepth) :
    env.MayEnter stack name ↔ name ∈ env.functionNames ∧ name ∉ stack := by
  constructor
  · intro hn
    exact ⟨hn.1, hn.2.1⟩
  · intro ⟨hname, hnot⟩
    have hlt := (h.enter hname hnot).length_le
    rw [List.length_cons] at hlt
    exact ⟨hname, hnot, by omega⟩

end Environment.Follows

section Limits

variable (program : Program) (vocabulary : Vocabulary) {depth depth' : Nat}
  (h : program.functions.toList.length ≤ depth) (h' : program.functions.toList.length ≤ depth')
include h h'

/-- Under either of two limits that are not below the number of functions, the same functions may
be entered. -/
theorem accord_of_limits : Accord ⟨program, vocabulary, depth⟩ ⟨program, vocabulary, depth'⟩ id
    (Environment.Follows ⟨program, vocabulary, depth⟩) where
  vocabulary := rfl
  global _ := rfl
  followed callee := (Option.map_id_apply ..).symm
  name_counterpart _ := rfl
  mayEnter {stack} hstack name := by
    have hstack' : Environment.Follows ⟨program, vocabulary, depth'⟩ stack :=
      ⟨hstack.nodup, hstack.subset⟩
    exact (hstack'.mayEnter_iff h').trans (hstack.mayEnter_iff h).symm
  enter hstack hn := hstack.enter hn.1 hn.2.1
  counterpart_eq _ _ := rfl

end Limits

section Steps

variable {program : Program} {vocabulary : Vocabulary} {depth depth' : Nat}
  (hresolve : Query.resolve ⟨program, vocabulary, depth⟩ [] =
    Query.resolve ⟨program, vocabulary, depth'⟩ [])
include hresolve

/-- The identity that a call gives, if operands are resolved alike. -/
theorem identitySteps_of_resolve : identitySteps ⟨program, vocabulary, depth⟩ =
    identitySteps ⟨program, vocabulary, depth'⟩ := by
  have hstring : argString ⟨program, vocabulary, depth⟩ =
      argString ⟨program, vocabulary, depth'⟩ := by
    unfold argString Query.resolveString
    rw [hresolve]
  unfold identitySteps
  rw [hstring]

/-- What a call does to a handler, if operands are resolved alike. -/
theorem handlerCallSteps_of_resolve : handlerCallSteps ⟨program, vocabulary, depth⟩ =
    handlerCallSteps ⟨program, vocabulary, depth'⟩ := by
  have hroutes : routesSteps ⟨program, vocabulary, depth⟩ =
      routesSteps ⟨program, vocabulary, depth'⟩ := by
    unfold routesSteps routeSteps
    rw [hresolve]
    rfl
  unfold handlerCallSteps
  rw [identitySteps_of_resolve hresolve, hroutes]

variable (hcalls : Query.configurerCalls ⟨program, vocabulary, depth⟩ [] =
  Query.configurerCalls ⟨program, vocabulary, depth'⟩ [])
include hcalls

omit hresolve in
/-- What becomes of the calls of an entity, if the same are found. -/
theorem configureSteps_of_calls {σ : Type} (typeName : String) (updateFidelity : Fidelity → σ)
    (steps : ConfigurerCall → Memoized (List σ)) :
    configureSteps ⟨program, vocabulary, depth⟩ typeName updateFidelity steps =
      configureSteps ⟨program, vocabulary, depth'⟩ typeName updateFidelity steps := by
  unfold configureSteps
  rw [hcalls]

/-- What a call does to an application, if operands are resolved alike and the same calls are
found. -/
theorem applicationCallSteps_of_resolve : applicationCallSteps ⟨program, vocabulary, depth⟩ =
    applicationCallSteps ⟨program, vocabulary, depth'⟩ := by
  have hhandler : handlerSteps ⟨program, vocabulary, depth⟩ =
      handlerSteps ⟨program, vocabulary, depth'⟩ := by
    unfold handlerSteps Query.concreteType
    rw [hresolve, handlerCallSteps_of_resolve hresolve]
    simp only [configureSteps_of_calls hcalls]
  unfold applicationCallSteps
  rw [identitySteps_of_resolve hresolve, hhandler]

/-- The draft of an application, if operands are resolved alike and the same calls are found. -/
theorem applicationSteps_of_resolve (typeName : String) :
    applicationSteps ⟨program, vocabulary, depth⟩ typeName =
      applicationSteps ⟨program, vocabulary, depth'⟩ typeName := by
  unfold applicationSteps
  rw [applicationCallSteps_of_resolve hresolve hcalls, configureSteps_of_calls hcalls]

end Steps

/-- The limit of the call depth is only a bound: all limits that are not below the number of the
program's functions give the same applications. -/
theorem recoverApplications_eq_of_functions_le (program : Program) (vocabulary : Vocabulary)
    {depth depth' : Nat} (h : program.functions.toList.length ≤ depth)
    (h' : program.functions.toList.length ≤ depth') :
    recoverApplications ⟨program, vocabulary, depth⟩ =
      recoverApplications ⟨program, vocabulary, depth'⟩ := by
  have haccord := accord_of_limits program vocabulary h h'
  have hresolve : Query.resolve ⟨program, vocabulary, depth⟩ [] =
      Query.resolve ⟨program, vocabulary, depth'⟩ [] :=
    funext fun frame ↦ haccord.resolveIn_eq .nil [] frame
  have hcalls : Query.configurerCalls ⟨program, vocabulary, depth⟩ [] =
      Query.configurerCalls ⟨program, vocabulary, depth'⟩ [] :=
    funext fun frame ↦ funext fun configurer ↦
      haccord.findConfigurerCalls_eq .nil frame configurer
  unfold recoverApplications recoverApplication
  simp only [applicationSteps_of_resolve hresolve hcalls]
  rfl

namespace Relay

/-- A program whose application leaves its configuration to a second function, which has the
application's name from another one and leaves the rest to a third. -/
def relay : Program :=
  .ofLists [⟨"App", ["dogma.Application"], .ofList [⟨"Configure", "App.Configure"⟩]⟩]
    [⟨"App.Configure", [⟨"a", "App"⟩, ⟨"c", "Configurer"⟩],
      [⟨[.call none (.static "identify" []) [.param 1]], .ret []⟩]⟩,
    ⟨"identify", [⟨"c", "Configurer"⟩],
      [⟨[.call (some ⟨0⟩) (.static "name" []) [],
        .call none (.static "give" []) [.param 0, .value ⟨0⟩]], .ret []⟩]⟩,
    ⟨"give", [⟨"c", "Configurer"⟩, ⟨"name", "string"⟩],
      [⟨[.call none (.invoke (.param 0) "Identity") [.param 1, .const (.string "key")]],
        .ret []⟩]⟩,
    ⟨"name", [], [⟨[], .ret [.const (.string "app")]⟩]⟩] []

end Relay

open Relay in
/-- The four functions of the relay need not be followed deeper than four calls. -/
theorem recoverApplications_relay : relay.functions.toList.length ≤ 4 ∧
    relay.functions.toList.length ≤ 32 ∧
      recoverApplications ⟨relay, ⟨"dogma"⟩, 4⟩ = recoverApplications ⟨relay, ⟨"dogma"⟩, 32⟩ := by
  have h : relay.functions.toList.length ≤ 4 := by decide +kernel
  have h' : relay.functions.toList.length ≤ 32 := by omega
  exact ⟨h, h', recoverApplications_eq_of_functions_le relay ⟨"dogma"⟩ h h'⟩

open Relay in
/-- A limit below the number of functions may cost an answer. -/
example : (recoverApplications ⟨relay, ⟨"dogma"⟩, 3⟩).toOption ≠
    (recoverApplications ⟨relay, ⟨"dogma"⟩, 4⟩).toOption := by
  decide +kernel

end Wiring.Analysis
