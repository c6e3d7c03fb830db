import Wiring.Proofs.Recovery.Handlers

/-!
# Applications and the calls that configure them

The calls on an application's configurer are taken in turn, as those on a handler's are. Those that
register handlers add the handlers that they register. No draft has a gap, so an application is
recovered from every program for every type.
-/

namespace Wiring.Analysis

open Wiring.Config (Identity Application Handler HandlerKind)
open Wiring.Draft (ApplicationStep)

/-- An application cannot tell what the call says: its method is not one for applications. -/
def unheardByApplication (call : ConfigurerCall) : Bool :=
  call.method ≠ "Identity" && (registers call.method).isNone

/-- The calls that register handlers, with the kinds of the handlers. -/
def handlerTurns (turns : List Turn) : List (HandlerKind × Turn) :=
  turns.filterMap fun t ↦ (registers t.1.method).map (·, t)

/-- The handler that a call registers, with the doubts about its parts taken over. -/
def saidHandler (env : Environment) (kind : HandlerKind) (t : Turn) : Handler :=
  Handler.withPartDoubts (Handler.drafted env kind t.1 t.2)

namespace Application

variable {env : Environment} {typeName : String}

/-- An application with what calls add to it. -/
def hear (env : Environment) (turns : List Turn) (a : Application) : Application :=
  { a with
    fidelity := max a.fidelity (unheard turns unheardByApplication)
    identities := a.identities ++ (identityTurns turns).map fun t ↦ saidIdentity env t.1 t.2
    handlers := a.handlers ++ (handlerTurns turns).map fun t ↦ saidHandler env t.1 t.2 }

theorem hear_append (a : Application) (ts us : List Turn) :
    hear env (ts ++ us) a = hear env us (hear env ts a) := by
  simp [hear, identityTurns, handlerTurns, unheard_append, Fidelity.max_assoc]

theorem hear_nil (a : Application) : hear env [] a = a := by
  simp [hear, identityTurns, handlerTurns, unheard, Fidelity.max_immaculate]

/-- A call adds to an application what it says. -/
theorem foldlM_callSteps (a : Application) (t : Turn) :
    (applicationCallSteps env t.1 t.2).1.foldlM ApplicationStep.apply a =
      .ok (hear env [t] a) := by
  unfold applicationCallSteps
  split
  · next hm =>
    have hstep : ApplicationStep.apply a (.identity (identitySteps env t.1 t.2).1) =
        .ok { a with identities := a.identities ++ [saidIdentity env t.1 t.2] } := by
      rw [ApplicationStep.apply, identity_identitySteps]
      rfl
    -- no call both gives an identity and registers a handler
    have hnot : registers "Identity" = none := by decide
    refine (bind_pure _).trans (hstep.trans ?_)
    simp [hear, identityTurns, handlerTurns, unheard, unheardByApplication, hm, hnot,
      Fidelity.max_immaculate]
  · next hi =>
    cases hm : registers t.1.method with
    | some kind =>
      have hstep : ApplicationStep.apply a (.handler kind (handlerSteps env t.1 t.2).1) =
          .ok { a with handlers := a.handlers ++ [saidHandler env kind t] } := by
        rw [ApplicationStep.apply, Handler.draft_eq]
        rfl
      refine (bind_pure _).trans (hstep.trans ?_)
      simp [hear, identityTurns, handlerTurns, unheard, unheardByApplication, hm, hi,
        Fidelity.max_immaculate]
    | none =>
      refine (bind_pure _).trans ?_
      simp [ApplicationStep.apply, hear, identityTurns, handlerTurns, unheard, unheardByApplication,
        hm, hi]

/-- What is drafted of the application that a type is. -/
def drafted (env : Environment) (typeName : String) : Application :=
  match env.configure? typeName with
  | none => { typeName := some typeName, fidelity := .onlyIncomplete }
  | some f =>
    hear env (configurationTurns env (applicationCallSteps env) f {})
      { typeName := some typeName, fidelity := (configuration env f {}).1.fidelity }

/-- An application with the doubts about its parts taken over. -/
def withPartDoubts (a : Application) : Application :=
  { a with
    fidelity := max (max a.fidelity (.unions (a.identities.map Identity.fidelity)))
      (.unions (a.handlers.map fun h ↦ h.fidelity)) }

/-- The steps of an application draft it. -/
theorem foldlM_steps :
    (applicationSteps env typeName {}).1.foldlM ApplicationStep.apply {} =
      .ok (drafted env typeName) := by
  have hsteps : (applicationSteps env typeName {}).1 = .setTypeName typeName ::
      (configureSteps env typeName .updateFidelity (applicationCallSteps env) {}).1 := rfl
  rw [hsteps]
  unfold drafted
  cases hf : env.configure? typeName with
  | none =>
    rw [configureSteps_of_none hf]
    rfl
  | some f =>
    rw [configureSteps_fst hf]
    exact foldlM_flatMap_turns hear_nil hear_append foldlM_callSteps _ _

theorem typeName_drafted : (drafted env typeName).typeName = some typeName := by
  unfold drafted
  split <;> rfl

/-- The draft of an application has no gap. -/
theorem recoverApplication_eq :
    recoverApplication env typeName = .ok (withPartDoubts (drafted env typeName)) := by
  rw [recoverApplication, Draft.application, foldlM_steps]
  change Draft.completeApplication (drafted env typeName) = _
  rw [Draft.completeApplication, completeEntity_eq (.inr (by rw [typeName_drafted]; rfl))]
  rfl

/-- All applications of a program are recovered. -/
theorem recoverApplications_eq : recoverApplications env =
    .ok (((applicationTypes env).map fun t ↦ withPartDoubts (drafted env t.name)).mergeSort
      fun a b ↦ !decide (b.descriptor < a.descriptor)) := by
  have hall (types : List Program.NamedType) :
      types.mapM (fun t ↦ recoverApplication env t.name) =
        .ok (types.map fun t ↦ withPartDoubts (drafted env t.name)) := by
    induction types with
    | nil => rfl
    | cons t types ih =>
      rw [List.mapM_cons, ih, recoverApplication_eq]
      rfl
  rw [recoverApplications, hall]
  rfl

end Application
end Wiring.Analysis
