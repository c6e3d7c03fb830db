import Wiring.Proofs.Recovery.Turns

/-!
# What calls say

What a configurer call says of the component that makes it, given what is remembered when its turn
comes. The drafts of identities, routes and flags that calls give are always complete: what cannot
be told about them makes them incomplete.
-/

namespace Wiring.Analysis

open Wiring.Config (Identity Route Flag)
open Wiring.Draft (IdentityStep RouteStep)
open Wiring.Program (Operand)

variable (env : Environment) (call : ConfigurerCall) (m : Memo)

/-- The identity that a call gives: the texts of its two arguments, as far as they are known. -/
def saidIdentity : Identity :=
  let name := argString env call 0 m
  let key := argString env call 1 name.2
  { name := name.1
    key := key.1
    fidelity := if name.1.isSome && key.1.isSome then call.fidelity
      else max call.fidelity .onlyIncomplete }

/-- The route that a value is. -/
def routeOf : Option StaticValue → Route
  | some (.constructed function typeArgs) =>
    match env.vocabulary.routeType? function, typeArgs with
    | none, _ => { fidelity := .onlyIncomplete }
    | some t, [] => { routeType := some t, fidelity := .onlyIncomplete }
    | some t, name :: _ =>
      { routeType := some t
        messageTypeName := some name
        messageType :=
          ((env.program.namedType? name).bind env.vocabulary.messageKind?).map (⟨name, ·⟩) }
  | _ => { fidelity := .onlyIncomplete }

/-- The route that an element of a slice gives, which is an argument of the call. -/
def saidRoute (element : Operand) : Route :=
  let value := (Query.resolve env [] call.frame element m).1
  let r := routeOf env (value.bind StaticValue.unboxed)
  { r with fidelity := max call.fidelity r.fidelity }

/-- The flag that a call gives. -/
def saidFlag : Flag := { fidelity := call.fidelity, value := some true }

/-- The first argument is looked at before the second. -/
theorem identitySteps_fst : (identitySteps env call m).1 = [.updateFidelity call.fidelity,
    match (argString env call 0 m).1 with
    | some name => .setName name
    | none => .updateFidelity .onlyIncomplete,
    match (argString env call 1 (argString env call 0 m).2).1 with
    | some key => .setKey key
    | none => .updateFidelity .onlyIncomplete] :=
  rfl

/-- An identity without a name or a key is incomplete. -/
theorem identity_identitySteps :
    Draft.identity (identitySteps env call m).1 = .ok (saidIdentity env call m) := by
  have hstart : max ({} : Identity).fidelity call.fidelity = call.fidelity :=
    Fidelity.immaculate_max _
  rw [identitySteps_fst, saidIdentity]
  -- each of the two texts is known, and set, or not known, which makes the draft incomplete
  cases (argString env call 0 m).1 <;>
    cases (argString env call 1 (argString env call 0 m).2).1 <;>
    simp [Draft.identity, Draft.completeIdentity, IdentityStep.apply, hstart,
      Fidelity.onlyIncomplete, Fidelity.max_assoc, Fidelity.max_self]

/-- The steps of a constructed route add what is known of it to a draft that knows nothing. -/
theorem foldl_constructedRoute (value : Option StaticValue) (f : Fidelity) :
    (constructedRoute env value).foldl RouteStep.apply { fidelity := f } =
      { routeOf env value with fidelity := max f (routeOf env value).fidelity } := by
  have hnone : max f {} = f := Fidelity.max_immaculate f
  cases value with
  | none => rfl
  | some v =>
    cases v with
    | constructed function typeArgs =>
      simp only [constructedRoute, routeOf]
      cases env.vocabulary.routeType? function with
      | none => rfl
      | some t =>
        cases typeArgs with
        | nil => rfl
        | cons name rest =>
          dsimp only
          cases (env.program.namedType? name).bind env.vocabulary.messageKind? <;>
            simp [RouteStep.apply, hnone]
    | const | boxed | boxedUnknown => rfl

/-- A route of which the type or the message type is not known is incomplete. -/
theorem complete_routeOf (value : Option StaticValue) :
    (routeOf env value).fidelity.incomplete ∨
      (routeOf env value).routeType.isSome ∧ (routeOf env value).messageTypeName.isSome := by
  unfold routeOf
  split
  · split <;> simp [Fidelity.onlyIncomplete]
  · exact .inl rfl

/-- The draft of a route has no gap. -/
theorem route_routeSteps (element : Operand) :
    Draft.route (routeSteps env call element m).1 = .ok (saidRoute env call m element) := by
  have hsteps : (routeSteps env call element m).1 = .updateFidelity call.fidelity ::
      constructedRoute env
        ((Query.resolve env [] call.frame element m).1.bind StaticValue.unboxed) := rfl
  have hstart :
      RouteStep.apply {} (.updateFidelity call.fidelity) = { fidelity := call.fidelity } :=
    congrArg (fun f ↦ ({ fidelity := f } : Route)) (Fidelity.immaculate_max _)
  rw [hsteps, Draft.route, List.foldl_cons, hstart, foldl_constructedRoute]
  unfold saidRoute Draft.completeRoute
  dsimp only
  rcases complete_routeOf env
    ((Query.resolve env [] call.frame element m).1.bind StaticValue.unboxed) with h | ⟨ht, hn⟩
  · rw [if_pos (by rw [Fidelity.incomplete_max, h, Bool.or_true])]
  · simp [ht, hn, Option.isNone_eq_false_iff.mpr]

/-- A flag is drafted with its value. -/
theorem flag_saidFlag : Draft.flag [.setValue true, .updateFidelity call.fidelity] =
    .ok (saidFlag call) := by
  have hstart : max ({} : Flag).fidelity call.fidelity = call.fidelity :=
    Fidelity.immaculate_max _
  simp [Draft.flag, Draft.completeFlag, Draft.FlagStep.apply, saidFlag, hstart]

/-- The doubts about a call are doubts about the identity that it gives. -/
theorem fidelity_saidIdentity : (saidIdentity env call m).fidelity.has call.fidelity := by
  unfold saidIdentity
  dsimp only
  split
  · exact Fidelity.has_refl _
  · exact Fidelity.max_has_left _ _

/-- The doubts about a call are doubts about the routes that it gives. -/
theorem fidelity_saidRoute (element : Operand) :
    (saidRoute env call m element).fidelity.has call.fidelity :=
  Fidelity.max_has_left _ _

end Wiring.Analysis
