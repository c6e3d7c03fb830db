import Wiring.Proofs.Recovery.Parts

/-!
# Handlers and the calls that configure them

The calls that a `Configure` method makes on its configurer are taken in turn. Each adds what it
says to the draft of the handler, or makes it incomplete; and nothing else adds to it. The draft has
no gap, whatever is known of the handler.
-/

namespace Wiring.Analysis

open Wiring.Config (Identity Route Flag Handler HandlerKind)
open Wiring.Draft (HandlerStep)
open Wiring.Program (Operand)

/-- The elements of the slice of routes that a call is given, if it is given one. -/
def givenRoutes (call : ConfigurerCall) : Option (List Operand) :=
  call.args.head?.bind (Query.sliceElements call.frame)

/-- A handler cannot tell what the call says: its method is not one for handlers, or it gives routes
otherwise than as a slice. -/
def unheardByHandler (call : ConfigurerCall) : Bool :=
  if call.method = "Routes" then (givenRoutes call).isNone
  else call.method ≠ "Identity" && call.method ≠ "Disable"

/-- The elements of the slices that are given as routes, with the calls they are given by, and what
is remembered when their turn comes. -/
def routeTurns (env : Environment) (turns : List Turn) : List (ConfigurerCall × Operand × Memo) :=
  (turns.filter fun t ↦ t.1.method = "Routes").flatMap fun t ↦
    (Memoized.turns (routeSteps env t.1) ((givenRoutes t.1).getD []) t.2).map (t.1, ·)

/-- The calls that set the flag. -/
def flagCalls (calls : List ConfigurerCall) : List ConfigurerCall :=
  calls.filter fun call ↦ call.method = "Disable"

/-- The type of the handler that a call registers. -/
def givenType (env : Environment) (call : ConfigurerCall) : Memoized (Option String) :=
  match call.args.head? with
  | some arg => Query.concreteType env [] call.frame arg
  | none => pure none

/-- What is found of a handler once its type has been looked for. -/
def typedSteps (env : Environment) (call : ConfigurerCall) :
    Option String → Memoized (List HandlerStep)
  | none => return [.updateFidelity call.fidelity, .updateFidelity .onlyIncomplete]
  | some typeName => return .updateFidelity call.fidelity :: .setTypeName typeName ::
      (← configureSteps env typeName .updateFidelity (handlerCallSteps env))

/-- The type of a registered handler is found first, then what configures it. -/
theorem handlerSteps_eq (env : Environment) (call : ConfigurerCall) :
    handlerSteps env call = givenType env call >>= typedSteps env call := by
  unfold handlerSteps givenType
  cases call.args.head? <;> rfl

theorem handlerSteps_fst (env : Environment) (call : ConfigurerCall) (m : Memo) :
    (handlerSteps env call m).1 = match (givenType env call m).1 with
      | none => [.updateFidelity call.fidelity, .updateFidelity .onlyIncomplete]
      | some typeName => .updateFidelity call.fidelity :: .setTypeName typeName ::
          (configureSteps env typeName .updateFidelity (handlerCallSteps env)
            (givenType env call m).2).1 := by
  rw [handlerSteps_eq]
  simp only [bind, StateT.bind]
  obtain ⟨_ | typeName, m'⟩ := givenType env call m <;> rfl

namespace Handler

/-- A handler with what calls add to it. -/
def hear (env : Environment) (turns : List Turn) (h : Handler) : Handler :=
  { h with
    fidelity := max h.fidelity (unheard turns unheardByHandler)
    identities := h.identities ++ (identityTurns turns).map fun t ↦ saidIdentity env t.1 t.2
    routes := h.routes ++ (routeTurns env turns).map fun t ↦ saidRoute env t.1 t.2.2 t.2.1
    disabled := h.disabled ++ (flagCalls (turns.map Prod.fst)).map saidFlag }

variable {env : Environment} {call : ConfigurerCall} {m : Memo}

theorem hear_append (h : Handler) (ts us : List Turn) :
    hear env (ts ++ us) h = hear env us (hear env ts h) := by
  simp [hear, identityTurns, routeTurns, flagCalls, unheard_append, Fidelity.max_assoc]

theorem hear_nil (h : Handler) : hear env [] h = h := by
  simp [hear, identityTurns, routeTurns, flagCalls, unheard, Fidelity.max_immaculate]

theorem foldlM_routes (h : Handler) (ts : List (Operand × Memo)) :
    (ts.map fun t ↦ HandlerStep.route (routeSteps env call t.1 t.2).1).foldlM HandlerStep.apply h =
      .ok { h with routes := h.routes ++ ts.map fun t ↦ saidRoute env call t.2 t.1 } := by
  induction ts generalizing h with
  | nil => simp [pure, Except.pure]
  | cons t ts ih =>
    have hstep : HandlerStep.apply h (.route (routeSteps env call t.1 t.2).1) =
        .ok { h with routes := h.routes ++ [saidRoute env call t.2 t.1] } := by
      rw [HandlerStep.apply, route_routeSteps]
      rfl
    rw [List.map_cons, List.foldlM_cons, hstep]
    refine (ih _).trans ?_
    simp

/-- A call that gives routes adds them to a handler; one that gives none makes it incomplete. -/
theorem foldlM_routesSteps (h : Handler) (t : Turn) (hm : t.1.method = "Routes") :
    (routesSteps env t.1 t.2).1.foldlM HandlerStep.apply h = .ok (hear env [t] h) := by
  have hroutes : routeTurns env [t] = (Memoized.turns (routeSteps env t.1)
      ((givenRoutes t.1).getD []) t.2).map (t.1, ·) := by
    simp [routeTurns, hm]
  have hgiven : t.1.args.head?.bind (Query.sliceElements t.1.frame) = givenRoutes t.1 := rfl
  rw [routesSteps, hgiven]
  cases hg : givenRoutes t.1 with
  | none =>
    refine (bind_pure _).trans ?_
    simp [HandlerStep.apply, hear, identityTurns, flagCalls, unheard, unheardByHandler, hroutes, hg,
      hm, Memoized.turns]
  | some elements =>
    dsimp only
    rw [Memoized.mapM_fst, Memoized.turns_map]
    refine (foldlM_routes h _).trans ?_
    simp [hear, identityTurns, flagCalls, unheard, unheardByHandler, hroutes, hg, hm,
      Fidelity.max_immaculate]

/-- A call adds to a handler what it says. -/
theorem foldlM_callSteps (h : Handler) (t : Turn) :
    (handlerCallSteps env t.1 t.2).1.foldlM HandlerStep.apply h = .ok (hear env [t] h) := by
  unfold handlerCallSteps
  split
  · next hm =>
    have hsteps : HandlerStep.apply h (.identity (identitySteps env t.1 t.2).1) =
        .ok { h with identities := h.identities ++ [saidIdentity env t.1 t.2] } := by
      rw [HandlerStep.apply, identity_identitySteps]
      rfl
    refine (bind_pure _).trans (hsteps.trans ?_)
    simp [hear, identityTurns, routeTurns, flagCalls, unheard, unheardByHandler, hm,
      Fidelity.max_immaculate]
  · next hi =>
    split
    -- the one kind of call that may give many parts, or none
    · next hm => exact foldlM_routesSteps h t hm
    · next hr =>
      split
      · next hm =>
        have hsteps :
            HandlerStep.apply h (.disabled [.setValue true, .updateFidelity t.1.fidelity]) =
              .ok { h with disabled := h.disabled ++ [saidFlag t.1] } := by
          rw [HandlerStep.apply, flag_saidFlag]
          rfl
        refine (bind_pure _).trans (hsteps.trans ?_)
        simp [hear, identityTurns, routeTurns, flagCalls, unheard, unheardByHandler, hm,
          Fidelity.max_immaculate]
      · next hd =>
        refine (bind_pure _).trans ?_
        simp [HandlerStep.apply, hear, identityTurns, routeTurns, flagCalls, unheard,
          unheardByHandler, hi, hr, hd]

/-- What is drafted of the handler that a call registers: its type, if it is known, and what the
calls say that configure the type, if they are known. -/
def drafted (env : Environment) (kind : HandlerKind) (call : ConfigurerCall) (m : Memo) :
    Handler :=
  let given := givenType env call m
  match given.1 with
  | none => { kind, fidelity := max call.fidelity .onlyIncomplete }
  | some typeName =>
    match env.configure? typeName with
    | none => { kind, typeName := some typeName, fidelity := max call.fidelity .onlyIncomplete }
    | some f =>
      hear env (configurationTurns env (handlerCallSteps env) f given.2)
        { kind
          typeName := some typeName
          fidelity := max call.fidelity (configuration env f given.2).1.fidelity }

/-- A handler with the doubts about its parts taken over. -/
def withPartDoubts (h : Handler) : Handler :=
  let parts := h.routes.map Route.fidelity ++ h.disabled.map Flag.fidelity
  { h with
    fidelity :=
      max (max h.fidelity (.unions (h.identities.map Identity.fidelity))) (.unions parts) }

/-- The steps of a handler draft it. -/
theorem foldlM_steps (kind : HandlerKind) :
    (handlerSteps env call m).1.foldlM HandlerStep.apply { kind } =
      .ok (drafted env kind call m) := by
  rw [handlerSteps_fst]
  unfold drafted
  dsimp only
  -- The doubts about the call and the type are set before the calls of the type are heard.
  cases (givenType env call m).1 with
  | none => rfl
  | some typeName =>
    dsimp only
    cases hf : env.configure? typeName with
    | none =>
      rw [configureSteps_of_none hf]
      rfl
    | some f =>
      rw [configureSteps_fst hf]
      exact foldlM_flatMap_turns hear_nil hear_append foldlM_callSteps _ _

/-- What is drafted of a handler has a type, or is incomplete. -/
theorem complete_drafted (kind : HandlerKind) :
    (drafted env kind call m).fidelity.incomplete ∨
      (drafted env kind call m).typeName.isSome := by
  unfold drafted
  dsimp only
  cases (givenType env call m).1 with
  | none => exact .inl (Bool.or_true _)
  | some typeName =>
    dsimp only
    cases env.configure? typeName <;> exact .inr rfl

/-- The draft of a handler has no gap. -/
theorem draft_eq (kind : HandlerKind) :
    Draft.handler kind (handlerSteps env call m).1 =
      .ok (withPartDoubts (drafted env kind call m)) := by
  rw [Draft.handler, foldlM_steps]
  change Draft.completeHandler (drafted env kind call m) = _
  rw [Draft.completeHandler, completeEntity_eq (complete_drafted kind)]
  rfl

/-- A handler is drafted as one of the kind that is registered. -/
theorem kind_drafted (kind : HandlerKind) : (drafted env kind call m).kind = kind := by
  unfold drafted
  dsimp only
  split
  · rfl
  · split <;> rfl

/-- The doubts about a call are doubts about the handler that it registers. -/
theorem fidelity_drafted (kind : HandlerKind) :
    (drafted env kind call m).fidelity.has call.fidelity := by
  unfold drafted
  dsimp only
  split
  · exact Fidelity.max_has_left _ _
  · split
    · exact Fidelity.max_has_left _ _
    · exact Fidelity.has_trans (Fidelity.max_has_left _ _) (Fidelity.max_has_left _ _)

end Handler
end Wiring.Analysis
