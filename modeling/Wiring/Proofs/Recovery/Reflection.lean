import Mathlib.Data.List.Forall2
import Wiring.Proofs.Recovery.Applications

/-!
# What is recovered reflects the calls

Nothing that a configurer call says is lost, said twice or put elsewhere: the parts of an entity are
those that its calls give, one for one and in the order of the calls. A call that gives none leaves
its trace in the doubts about the entity, and so does every doubt about a call or a part.
-/

namespace Wiring.Analysis

open Wiring.Config (Entity Identity Route Flag Handler HandlerKind)

/-- An entity reflects the calls found to configure it, each taken in its turn. -/
structure ReflectsEntity (env : Environment) (found : ConfigurerCalls) (turns : List Turn)
    (e : Entity) : Prop where
  /-- Every call has its turn, in order. -/
  order : turns.map Prod.fst = found.calls
  /-- There is an identity for each call that gives one, in order. -/
  identities : List.Forall₂
    (fun t i ↦ i = saidIdentity env t.1 t.2 ∧ i.fidelity.has t.1.fidelity)
    (turns.filter fun t ↦ t.1.method = "Identity") e.identities
  /-- There may be calls that were not found. -/
  foundDoubts : e.fidelity.has found.fidelity
  identityDoubts : ∀ i ∈ e.identities, e.fidelity.has i.fidelity

/-- A handler reflects the calls found to configure it, each taken in its turn. -/
structure ReflectsHandler (env : Environment) (found : ConfigurerCalls) (turns : List Turn)
    (h : Handler) : Prop extends ReflectsEntity env found turns h.toEntity where
  /-- The elements of the slices that calls give as routes have their turns, in order. -/
  elements : (routeTurns env turns).map (fun t ↦ (t.1, t.2.1)) =
    (found.calls.filter fun call ↦ call.method = "Routes").flatMap fun call ↦
      ((givenRoutes call).getD []).map (call, ·)
  /-- There is a route for each element, in order. -/
  routes : List.Forall₂
    (fun t r ↦ r = saidRoute env t.1 t.2.2 t.2.1 ∧ r.fidelity.has t.1.fidelity)
    (routeTurns env turns) h.routes
  /-- There is a flag for each call that sets it, in order. -/
  disabled : List.Forall₂ (fun call x ↦ x = saidFlag call ∧ x.fidelity.has call.fidelity)
    (found.calls.filter fun call ↦ call.method = "Disable") h.disabled
  unheard : ∀ call ∈ found.calls, unheardByHandler call → h.fidelity.incomplete
  routeDoubts : ∀ r ∈ h.routes, h.fidelity.has r.fidelity
  flagDoubts : ∀ x ∈ h.disabled, h.fidelity.has x.fidelity

/-- An application reflects the calls found to configure it, each taken in its turn. -/
structure ReflectsApplication (env : Environment) (found : ConfigurerCalls) (turns : List Turn)
    (a : Config.Application) : Prop extends ReflectsEntity env found turns a.toEntity where
  /-- There is a handler for each call that registers one, in order and of the kind registered. -/
  handlers : List.Forall₂
    (fun t h ↦ registers t.1.method = some h.kind ∧ h.fidelity.has t.1.fidelity ∧
      Draft.handler h.kind (handlerSteps env t.1 t.2).1 = .ok h)
    (turns.filter fun t ↦ (registers t.1.method).isSome) a.handlers
  unheard : ∀ call ∈ found.calls, unheardByApplication call → a.fidelity.incomplete
  handlerDoubts : ∀ h ∈ a.handlers, a.fidelity.has h.fidelity

theorem forall₂_map_right {α β : Type} {R : α → β → Prop} {f : α → β} {l : List α}
    (h : ∀ a ∈ l, R a (f a)) : List.Forall₂ R l (l.map f) :=
  List.forall₂_map_right_iff.mpr (List.forall₂_same.mpr h)

/-- The union of the doubts about some parts has the doubts about each. -/
theorem unions_map_has {α : Type} {f : α → Fidelity} {l : List α} {a : α} (h : a ∈ l) :
    (Fidelity.unions (l.map f)).has (f a) :=
  Fidelity.unions_has (List.mem_map_of_mem h)

variable {env : Environment} {found : ConfigurerCalls} {turns : List Turn}

/-- An entity to which some call says what it cannot tell is incomplete. -/
theorem incomplete_of_unheard {test : ConfigurerCall → Bool} {call : ConfigurerCall}
    (h : call ∈ turns.map Prod.fst) (htest : test call) : (unheard turns test).incomplete := by
  obtain ⟨t, ht, rfl⟩ := List.mem_map.mp h
  unfold unheard
  rw [if_pos (List.any_eq_true.mpr ⟨t, ht, htest⟩)]
  rfl

/-- Routes are given by the elements of slices, in the order of the calls. -/
theorem map_routeTurns (env : Environment) (turns : List Turn) :
    (routeTurns env turns).map (fun t ↦ (t.1, t.2.1)) =
      ((turns.map Prod.fst).filter fun call ↦ call.method = "Routes").flatMap fun call ↦
        ((givenRoutes call).getD []).map (call, ·) := by
  have helements (t : Turn) :
      ((Memoized.turns (routeSteps env t.1) ((givenRoutes t.1).getD []) t.2).map (t.1, ·)).map
          (fun t ↦ (t.1, t.2.1)) =
        ((givenRoutes t.1).getD []).map (t.1, ·) := by
    -- pairing elements with what is remembered loses and adds none
    have hfst := Memoized.map_fst_turns (routeSteps env t.1) ((givenRoutes t.1).getD []) t.2
    conv_rhs => rw [← hfst]
    rw [List.map_map, List.map_map]
    rfl
  unfold routeTurns
  rw [List.map_flatMap, List.filter_map, List.flatMap_map]
  simp only [helements]
  rfl

/-- An entity with the identities that calls give, and with the doubts about them, reflects the
calls. -/
theorem reflectsEntity {e : Entity} (horder : turns.map Prod.fst = found.calls)
    (hids : e.identities = (identityTurns turns).map fun t ↦ saidIdentity env t.1 t.2)
    (hfound : e.fidelity.has found.fidelity)
    (hdoubts : e.fidelity.has (.unions (e.identities.map Identity.fidelity))) :
    ReflectsEntity env found turns e where
  order := horder
  identities := hids ▸ forall₂_map_right fun t _ ↦ ⟨rfl, fidelity_saidIdentity env t.1 t.2⟩
  foundDoubts := hfound
  identityDoubts _ hi := Fidelity.has_trans hdoubts (unions_map_has hi)

/-- An entity that has heard calls has all doubts that are taken over: about the calls that were
found, about what it could not tell, about its identities and about its other parts. -/
theorem has_doubts {f said identities parts all : Fidelity} (hfound : f.has found.fidelity)
    (hall : all = max (max (max f said) identities) parts) :
    all.has found.fidelity ∧ all.has said ∧ all.has identities ∧ all.has parts := by
  subst hall
  have hentity : (max (max (max f said) identities) parts).has (max (max f said) identities) :=
    Fidelity.max_has_left _ _
  have hheard : (max (max (max f said) identities) parts).has (max f said) :=
    Fidelity.has_trans hentity (Fidelity.max_has_left _ _)
  have hf : (max f said).has found.fidelity :=
    Fidelity.has_trans (Fidelity.max_has_left _ _) hfound
  exact ⟨Fidelity.has_trans hheard hf, Fidelity.has_trans hheard (Fidelity.max_has_right _ _),
    Fidelity.has_trans hentity (Fidelity.max_has_right _ _), Fidelity.max_has_right _ _⟩

/-- A handler of which nothing else is known reflects the calls that it hears. -/
theorem reflectsHandler_hear {kind : HandlerKind} {typeName : String} {f : Fidelity}
    (horder : turns.map Prod.fst = found.calls) (hfound : f.has found.fidelity) :
    ReflectsHandler env found turns (Handler.withPartDoubts
      (Handler.hear env turns { kind, typeName := some typeName, fidelity := f })) := by
  let heard := Handler.hear env turns { kind, typeName := some typeName, fidelity := f }
  have hall : (Handler.withPartDoubts heard).fidelity = max (max (max f
      (unheard turns unheardByHandler)) (.unions (heard.identities.map Identity.fidelity)))
        (.unions (heard.routes.map Route.fidelity ++ heard.disabled.map Flag.fidelity)) := rfl
  obtain ⟨hcalls, hsaid, hids, hparts⟩ := has_doubts hfound hall
  have hpart {x : Fidelity}
      (hx : x ∈ heard.routes.map Route.fidelity ++ heard.disabled.map Flag.fidelity) :
      (Handler.withPartDoubts heard).fidelity.has x :=
    Fidelity.has_trans hparts (Fidelity.unions_has hx)
  exact {
    toReflectsEntity := reflectsEntity horder rfl hcalls hids
    elements := horder ▸ map_routeTurns env turns
    routes := forall₂_map_right fun t _ ↦ ⟨rfl, fidelity_saidRoute env t.1 t.2.2 t.2.1⟩
    disabled := horder ▸ forall₂_map_right fun call _ ↦ ⟨rfl, Fidelity.has_refl _⟩
    unheard := fun call hcall htest ↦
      Fidelity.incomplete_of_has hsaid (incomplete_of_unheard (horder ▸ hcall) htest)
    routeDoubts := fun r hr ↦ hpart (List.mem_append_left _ (List.mem_map_of_mem hr))
    flagDoubts := fun x hx ↦ hpart (List.mem_append_right _ (List.mem_map_of_mem hx)) }

/-- The handlers that calls register are drafted in the turns of the calls. -/
theorem forall₂_handlerTurns (env : Environment) (turns : List Turn) : List.Forall₂
    (fun t h ↦ registers t.1.method = some h.kind ∧ h.fidelity.has t.1.fidelity ∧
      Draft.handler h.kind (handlerSteps env t.1 t.2).1 = .ok h)
    (turns.filter fun t ↦ (registers t.1.method).isSome)
    ((handlerTurns turns).map fun t ↦ saidHandler env t.1 t.2) := by
  induction turns with
  | nil => exact .nil
  | cons t turns ih =>
    -- a call that registers nothing is on neither side
    cases hm : registers t.1.method with
    | none => simpa [handlerTurns, hm] using ih
    | some kind =>
      have hkind : (saidHandler env kind t).kind = kind := Handler.kind_drafted kind
      have hdoubts : (saidHandler env kind t).fidelity.has t.1.fidelity :=
        Fidelity.has_trans (Fidelity.max_has_left _ _)
          (Fidelity.has_trans (Fidelity.max_has_left _ _) (Handler.fidelity_drafted kind))
      have hdraft : Draft.handler (saidHandler env kind t).kind (handlerSteps env t.1 t.2).1 =
          .ok (saidHandler env kind t) := by
        rw [hkind]
        exact Handler.draft_eq kind
      simp only [handlerTurns, List.filterMap_cons, List.filter_cons, hm, Option.isSome_some,
        if_true, Option.map_some, List.map_cons]
      exact .cons ⟨hm.trans (congrArg some hkind.symm), hdoubts, hdraft⟩ ih

/-- An application of which nothing else is known reflects the calls that it hears. -/
theorem reflectsApplication_hear {typeName : String} {f : Fidelity}
    (horder : turns.map Prod.fst = found.calls) (hfound : f.has found.fidelity) :
    ReflectsApplication env found turns (Application.withPartDoubts
      (Application.hear env turns { typeName := some typeName, fidelity := f })) := by
  let heard := Application.hear env turns { typeName := some typeName, fidelity := f }
  have hall : (Application.withPartDoubts heard).fidelity = max (max (max f
      (unheard turns unheardByApplication)) (.unions (heard.identities.map Identity.fidelity)))
        (.unions (heard.handlers.map fun h ↦ h.fidelity)) := rfl
  obtain ⟨hcalls, hsaid, hids, hparts⟩ := has_doubts hfound hall
  exact {
    toReflectsEntity := reflectsEntity horder rfl hcalls hids
    handlers := forall₂_handlerTurns env turns
    unheard := fun call hcall htest ↦
      Fidelity.incomplete_of_has hsaid (incomplete_of_unheard (horder ▸ hcall) htest)
    handlerDoubts := fun h hh ↦ Fidelity.has_trans hparts
      (unions_map_has (f := fun h : Handler ↦ h.fidelity) hh) }

/-- Every application, and every handler of known type, whose `Configure` method can be followed is
recovered such that it reflects the calls that the method makes on its configurer. -/
theorem recovery_reflects_calls (env : Environment) :
    (∀ typeName f, env.configure? typeName = some f →
      ∃ a, recoverApplication env typeName = .ok a ∧ a.typeName = some typeName ∧
        ReflectsApplication env (configuration env f {}).1
          (configurationTurns env (applicationCallSteps env) f {}) a) ∧
    (∀ kind call m typeName f, (givenType env call m).1 = some typeName →
      env.configure? typeName = some f →
        ∃ h, Draft.handler kind (handlerSteps env call m).1 = .ok h ∧
          h.kind = kind ∧ h.typeName = some typeName ∧
          ReflectsHandler env (configuration env f (givenType env call m).2).1
            (configurationTurns env (handlerCallSteps env) f (givenType env call m).2) h) := by
  constructor
  · intro typeName f hf
    have hdrafted : Application.drafted env typeName =
        Application.hear env (configurationTurns env (applicationCallSteps env) f {})
          { typeName := some typeName, fidelity := (configuration env f {}).1.fidelity } := by
      rw [Application.drafted, hf]
    refine ⟨_, Application.recoverApplication_eq, Application.typeName_drafted, ?_⟩
    rw [hdrafted]
    exact reflectsApplication_hear (Memoized.map_fst_turns _ _ _) (Fidelity.has_refl _)
  · intro kind call m typeName f htype hf
    have hdrafted : Handler.drafted env kind call m =
        Handler.hear env (configurationTurns env (handlerCallSteps env) f (givenType env call m).2)
          { kind
            typeName := some typeName
            fidelity := max call.fidelity
              (configuration env f (givenType env call m).2).1.fidelity } := by
      simp only [Handler.drafted, htype, hf]
    refine ⟨_, Handler.draft_eq kind, Handler.kind_drafted kind, ?_, ?_⟩
    · rw [hdrafted]
      rfl
    · rw [hdrafted]
      exact reflectsHandler_hear (Memoized.map_fst_turns _ _ _) (Fidelity.max_has_right _ _)

namespace Shop

/-- The function that configures an application with one handler. -/
def configureApp : Program.Function := ⟨"App.Configure", [⟨"a", "App"⟩, ⟨"c", "Configurer"⟩],
  [⟨[.makeInterface ⟨0⟩ (.const .nil) "Cart",
    .call none (.invoke (.param 1) "RegisterAggregate") [.value ⟨0⟩],
    .call none (.invoke (.param 1) "Identity") [.const (.string "app"), .const (.string "key")]],
    .ret []⟩]⟩

/-- The function that configures the handler, with two routes. -/
def configureCart : Program.Function := ⟨"Cart.Configure", [⟨"h", "Cart"⟩, ⟨"c", "Configurer"⟩],
  [⟨[.call (some ⟨0⟩) (.static "dogma.HandlesCommand" ["Add"]) [],
    .call (some ⟨1⟩) (.static "dogma.RecordsEvent" ["Added"]) [],
    .slice ⟨2⟩ [.value ⟨0⟩, .value ⟨1⟩],
    .call none (.invoke (.param 1) "Routes") [.value ⟨2⟩],
    .call none (.invoke (.param 1) "Disable") []], .ret []⟩]⟩

/-- The program of an application and its handler. -/
def shop : Environment where
  program := .ofLists [⟨"App", ["dogma.Application"], .ofList [⟨"Configure", "App.Configure"⟩]⟩,
    ⟨"Cart", [], .ofList [⟨"Configure", "Cart.Configure"⟩]⟩] [configureApp, configureCart] []
  vocabulary := ⟨"dogma"⟩

/-- The call that registers the handler. -/
def register : ConfigurerCall :=
  ⟨"RegisterAggregate", [.value ⟨0⟩], ⟨configureApp, []⟩, .immaculate⟩

end Shop

open Shop in
/-- The application of the shop has an identity and a handler, and the handler has both routes and
the flag. -/
theorem recovery_reflects_calls_shop :
    shop.configure? "App" = some configureApp ∧ shop.configure? "Cart" = some configureCart ∧
      (givenType shop register {}).1 = some "Cart" ∧
      (∃ a, recoverApplication shop "App" = .ok a ∧
        a.identities.length = 1 ∧ a.handlers.length = 1) ∧
      ∃ h, Draft.handler .aggregate (handlerSteps shop register {}).1 = .ok h ∧
        h.routes.length = 2 ∧ h.disabled.length = 1 := by
  have happ : shop.configure? "App" = some configureApp := by decide +kernel
  have hcart : shop.configure? "Cart" = some configureCart := by decide +kernel
  have htype : (givenType shop register {}).1 = some "Cart" := by decide +kernel
  obtain ⟨a, ha, -, hra⟩ := (recovery_reflects_calls shop).1 _ _ happ
  obtain ⟨h, hh, -, -, hrh⟩ := (recovery_reflects_calls shop).2 .aggregate _ _ _ _ htype hcart
  refine ⟨happ, hcart, htype, ⟨a, ha, ?_, ?_⟩, ⟨h, hh, ?_, ?_⟩⟩
  · rw [← hra.identities.length_eq]
    decide +kernel
  · rw [← hra.handlers.length_eq]
    decide +kernel
  · rw [← hrh.routes.length_eq]
    decide +kernel
  · rw [← hrh.disabled.length_eq]
    decide +kernel

end Wiring.Analysis
