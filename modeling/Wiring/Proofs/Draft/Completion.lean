import Wiring.Draft.Entities
import Wiring.Proofs.Config.Node

/-!
# Completed drafts

A tree that steps have drafted without a gap is well formed, whatever the steps are and in whatever
order they come: at each node the doubts about its parts are doubts about it, and what it leaves
open it leaves open as an incomplete component. So normalization has no doubts to take over.
-/

namespace Wiring

/-- What is doubted already is not doubted more. -/
theorem Fidelity.max_unions_of_has {a : Fidelity} {l : List Fidelity} (h : ∀ b ∈ l, a.has b) :
    max a (unions l) = a := by
  induction l with
  | nil => exact max_immaculate a
  | cons b l ih =>
    have hb := (has_iff_max_eq a b).mp (h b (by simp))
    rw [unions_cons, ← max_assoc, hb]
    exact ih fun c hc ↦ h c (List.mem_cons_of_mem _ hc)

namespace Config.Component

/-- What a component may leave open only as an incomplete one is there. -/
def IsStated : Component → Prop
  | application a => a.typeName.isSome ∨ a.source.isSome
  | handler h => h.typeName.isSome ∨ h.source.isSome
  | identity i => i.name.isSome ∧ i.key.isSome
  | route r => r.routeType.isSome ∧ r.messageTypeName.isSome
  | flag f => f.value.isSome

/-- A node of a tree that can be relied on. -/
structure WellFormed (c : Component) : Prop where
  /-- The doubts about a part are doubts about the whole. -/
  doubts : ∀ p ∈ c.parts, c.fidelity.has p.fidelity
  /-- Nothing is left open that is not said to be incomplete. -/
  stated : c.fidelity.incomplete = false → c.IsStated

variable {c : Component}

/-- Normalization changes no doubts if each node has taken over those about its parts. -/
theorem fidelity_normalize_of_wellFormed (o : Options) (h : ∀ n, c.HasNode n → n.WellFormed) :
    (c.normalize o).fidelity = c.fidelity := by
  induction c using induction_parts with
  | h c ih =>
    obtain ⟨hc, hparts⟩ := forall_hasNode_iff.mp h
    rw [fidelity_normalize]
    refine Fidelity.max_unions_of_has fun b hb ↦ ?_
    obtain ⟨p, hp, rfl⟩ := List.mem_map.mp hb
    rw [ih p hp (hparts p hp)]
    exact hc.doubts p hp

end Config.Component

namespace Draft

open Wiring.Config

/-- The component is what some steps draft. -/
inductive Completes : Component → Prop
  | identity {steps : List IdentityStep} {i : Identity} (h : Draft.identity steps = .ok i) :
    Completes (.identity i)
  | route {steps : List RouteStep} {r : Route} (h : Draft.route steps = .ok r) :
    Completes (.route r)
  | flag {steps : List FlagStep} {x : Flag} (h : Draft.flag steps = .ok x) : Completes (.flag x)
  | handler {kind : HandlerKind} {steps : List HandlerStep} {h : Handler}
    (hd : Draft.handler kind steps = .ok h) : Completes (.handler h)
  | application {steps : List ApplicationStep} {a : Application}
    (h : Draft.application steps = .ok a) : Completes (.application a)

section Except

variable {ε α β σ : Type}

theorem bind_eq_ok_iff {x : Except ε α} {f : α → Except ε β} {b : β} :
    (x >>= f) = .ok b ↔ ∃ a, x = .ok a ∧ f a = .ok b := by
  cases x with
  | error e => simp [bind, Except.bind]
  | ok a => simp [bind, Except.bind]

/-- What each step keeps, all steps keep. -/
theorem foldlM_keeps {step : σ → α → Except ε σ} {P : σ → Prop}
    (hstep : ∀ s x s', P s → step s x = .ok s' → P s') {l : List α} {s s' : σ} (hs : P s)
    (h : l.foldlM step s = .ok s') : P s' := by
  induction l generalizing s with
  | nil =>
    obtain rfl := Except.ok.inj h
    exact hs
  | cons x l ih =>
    rw [List.foldlM_cons, bind_eq_ok_iff] at h
    obtain ⟨t, hx, hl⟩ := h
    exact ih (hstep s x t hs hx) hl

end Except

/-- An identity is completed as it is, unless it leaves something open without saying so. -/
theorem completeIdentity_eq_ok_iff {i i' : Identity} : completeIdentity i = .ok i' ↔
    i = i' ∧ (i.fidelity.incomplete = false → i.name.isSome ∧ i.key.isSome) := by
  unfold completeIdentity
  cases i.fidelity.incomplete <;> cases i.name <;> cases i.key <;> simp

/-- A route is completed as it is, unless it leaves something open without saying so. -/
theorem completeRoute_eq_ok_iff {r r' : Route} : completeRoute r = .ok r' ↔
    r = r' ∧ (r.fidelity.incomplete = false → r.routeType.isSome ∧ r.messageTypeName.isSome) := by
  unfold completeRoute
  cases r.fidelity.incomplete <;> cases r.routeType <;> cases r.messageTypeName <;> simp

/-- A flag is completed as it is, unless it leaves its value open without saying so. -/
theorem completeFlag_eq_ok_iff {x x' : Flag} : completeFlag x = .ok x' ↔
    x = x' ∧ (x.fidelity.incomplete = false → x.value.isSome) := by
  unfold completeFlag
  cases x.fidelity.incomplete <;> cases x.value <;> simp

/-- A completed entity has the doubts about its identities. -/
theorem completeEntity_eq_ok_iff {kind : String} {e e' : Entity} :
    completeEntity kind e = .ok e' ↔
      { e with fidelity := max e.fidelity (.unions (e.identities.map Identity.fidelity)) } = e' ∧
        (e.fidelity.incomplete = false → e.typeName.isSome ∨ e.source.isSome) := by
  unfold completeEntity
  cases e.fidelity.incomplete <;> cases e.typeName <;> cases e.source <;> simp

/-- A completed handler has the doubts about its parts. -/
theorem completeHandler_eq_ok_iff {h h' : Handler} : completeHandler h = .ok h' ↔
    { h with toEntity := { h.toEntity with
        fidelity := max (max h.fidelity (.unions (h.identities.map Identity.fidelity)))
          (.unions (h.routes.map Route.fidelity ++ h.disabled.map Flag.fidelity)) } } = h' ∧
      (h.fidelity.incomplete = false → h.typeName.isSome ∨ h.source.isSome) := by
  unfold completeHandler
  simp only [bind_eq_ok_iff, completeEntity_eq_ok_iff, pure, Except.pure, Except.ok.injEq]
  constructor
  · rintro ⟨_, ⟨rfl, hstated⟩, rfl⟩
    exact ⟨rfl, hstated⟩
  · rintro ⟨rfl, hstated⟩
    exact ⟨_, ⟨rfl, hstated⟩, rfl⟩

/-- A completed application has the doubts about its parts. -/
theorem completeApplication_eq_ok_iff {a a' : Application} : completeApplication a = .ok a' ↔
    { a with toEntity := { a.toEntity with
        fidelity := max (max a.fidelity (.unions (a.identities.map Identity.fidelity)))
          (.unions (a.handlers.map fun h ↦ h.fidelity)) } } = a' ∧
      (a.fidelity.incomplete = false → a.typeName.isSome ∨ a.source.isSome) := by
  unfold completeApplication
  simp only [bind_eq_ok_iff, completeEntity_eq_ok_iff, pure, Except.pure, Except.ok.injEq]
  constructor
  · rintro ⟨_, ⟨rfl, hstated⟩, rfl⟩
    exact ⟨rfl, hstated⟩
  · rintro ⟨rfl, hstated⟩
    exact ⟨_, ⟨rfl, hstated⟩, rfl⟩

/-- A step of drafting a handler adds no part that is not complete. -/
theorem HandlerStep.completes_apply {h h' : Handler} {s : HandlerStep}
    (hparts : ∀ p ∈ (Component.handler h).parts, Completes p) (hs : s.apply h = .ok h') :
    ∀ p ∈ (Component.handler h').parts, Completes p := by
  cases s with
  | setTypeName | setSource | updateFidelity =>
    obtain rfl := Except.ok.inj hs
    exact hparts
  | identity steps =>
    obtain ⟨i, hi, hpure⟩ := bind_eq_ok_iff.mp hs
    obtain rfl := Except.ok.inj hpure
    simp only [Component.parts, List.map_append, List.forall_mem_append] at hparts ⊢
    obtain ⟨⟨hidentities, hroutes⟩, hdisabled⟩ := hparts
    exact ⟨⟨⟨hidentities, by simpa using .identity hi⟩, hroutes⟩, hdisabled⟩
  | route steps =>
    obtain ⟨r, hr, hpure⟩ := bind_eq_ok_iff.mp hs
    obtain rfl := Except.ok.inj hpure
    simp only [Component.parts, List.map_append, List.forall_mem_append] at hparts ⊢
    obtain ⟨⟨hidentities, hroutes⟩, hdisabled⟩ := hparts
    exact ⟨⟨hidentities, hroutes, by simpa using .route hr⟩, hdisabled⟩
  | disabled steps =>
    obtain ⟨x, hx, hpure⟩ := bind_eq_ok_iff.mp hs
    obtain rfl := Except.ok.inj hpure
    simp only [Component.parts, List.map_append, List.forall_mem_append] at hparts ⊢
    obtain ⟨⟨hidentities, hroutes⟩, hdisabled⟩ := hparts
    exact ⟨⟨hidentities, hroutes⟩, hdisabled, by simpa using .flag hx⟩

/-- A step of drafting an application adds no part that is not complete. -/
theorem ApplicationStep.completes_apply {a a' : Application} {s : ApplicationStep}
    (hparts : ∀ p ∈ (Component.application a).parts, Completes p) (hs : s.apply a = .ok a') :
    ∀ p ∈ (Component.application a').parts, Completes p := by
  cases s with
  | setTypeName | setSource | updateFidelity =>
    obtain rfl := Except.ok.inj hs
    exact hparts
  | identity steps =>
    obtain ⟨i, hi, hpure⟩ := bind_eq_ok_iff.mp hs
    obtain rfl := Except.ok.inj hpure
    simp only [Component.parts, List.map_append, List.forall_mem_append] at hparts ⊢
    obtain ⟨hidentities, hhandlers⟩ := hparts
    exact ⟨⟨hidentities, by simpa using .identity hi⟩, hhandlers⟩
  | handler kind steps =>
    obtain ⟨h, hh, hpure⟩ := bind_eq_ok_iff.mp hs
    obtain rfl := Except.ok.inj hpure
    simp only [Component.parts, List.map_append, List.forall_mem_append] at hparts ⊢
    obtain ⟨hidentities, hhandlers⟩ := hparts
    exact ⟨hidentities, hhandlers, by simpa using .handler hh⟩

/-- The doubts that completion takes over: an entity's own, those about its identities, and those
about its other parts. -/
theorem max_unions_has {f x : Fidelity} {identities others : List Fidelity}
    (hx : x ∈ identities ∨ x ∈ others) :
    (max (max f (.unions identities)) (.unions others)).has x := by
  rcases hx with hx | hx
  · have hentity : (max f (Fidelity.unions identities)).has x :=
      Fidelity.has_trans (Fidelity.max_has_right _ _) (Fidelity.unions_has hx)
    exact Fidelity.has_trans (Fidelity.max_has_left _ _) hentity
  · exact Fidelity.has_trans (Fidelity.max_has_right _ _) (Fidelity.unions_has hx)

/-- An entity that completion leaves without doubt of its completeness had none before. -/
theorem incomplete_eq_false {f f' f'' : Fidelity} (h : (max (max f f') f'').incomplete = false) :
    f.incomplete = false := by
  simp only [Fidelity.incomplete_max, Bool.or_eq_false_iff] at h
  exact h.1.1

namespace Completes

variable {c n : Component}

/-- The parts of what steps draft are drafted by steps. -/
theorem parts (h : Completes c) : ∀ p ∈ c.parts, Completes p := by
  cases h with
  | identity | route | flag => exact fun p hp ↦ absurd hp List.not_mem_nil
  | @handler kind steps h hd =>
    obtain ⟨draft, hsteps, hc⟩ := bind_eq_ok_iff.mp hd
    obtain ⟨rfl, -⟩ := completeHandler_eq_ok_iff.mp hc
    have hdraft : ∀ p ∈ (Component.handler draft).parts, Completes p :=
      foldlM_keeps (P := fun h ↦ ∀ p ∈ (Component.handler h).parts, Completes p)
        (fun _ _ _ ↦ HandlerStep.completes_apply) (fun p hp ↦ absurd hp List.not_mem_nil) hsteps
    exact hdraft
  | @application steps a hd =>
    obtain ⟨draft, hsteps, hc⟩ := bind_eq_ok_iff.mp hd
    obtain ⟨rfl, -⟩ := completeApplication_eq_ok_iff.mp hc
    have hdraft : ∀ p ∈ (Component.application draft).parts, Completes p :=
      foldlM_keeps (P := fun a ↦ ∀ p ∈ (Component.application a).parts, Completes p)
        (fun _ _ _ ↦ ApplicationStep.completes_apply) (fun p hp ↦ absurd hp List.not_mem_nil) hsteps
    exact hdraft

/-- All nodes of what steps draft are drafted by steps. -/
theorem node (h : Completes c) (hn : c.HasNode n) : Completes n := by
  induction hn with
  | self => exact h
  | part hp _ ih => exact ih (h.parts _ hp)

/-- What steps draft has the doubts about its parts, and says of what it leaves open. -/
theorem wellFormed (h : Completes c) : c.WellFormed := by
  have hleaf (hparts : c.parts = []) : ∀ p ∈ c.parts, c.fidelity.has p.fidelity := by
    simp [hparts]
  cases h with
  | identity h =>
    obtain ⟨rfl, hstated⟩ := completeIdentity_eq_ok_iff.mp h
    exact ⟨hleaf rfl, hstated⟩
  | route h =>
    obtain ⟨rfl, hstated⟩ := completeRoute_eq_ok_iff.mp h
    exact ⟨hleaf rfl, hstated⟩
  | flag h =>
    obtain ⟨rfl, hstated⟩ := completeFlag_eq_ok_iff.mp h
    exact ⟨hleaf rfl, hstated⟩
  | handler hd =>
    obtain ⟨draft, -, hc⟩ := bind_eq_ok_iff.mp hd
    obtain ⟨rfl, hstated⟩ := completeHandler_eq_ok_iff.mp hc
    refine ⟨fun p hp ↦ max_unions_has ?_, fun hf ↦ hstated (incomplete_eq_false hf)⟩
    simp only [Component.parts, List.mem_append, List.mem_map] at hp ⊢
    rcases hp with (⟨i, hi, rfl⟩ | ⟨r, hr, rfl⟩) | ⟨x, hx, rfl⟩
    · exact .inl ⟨i, hi, rfl⟩
    · exact .inr (.inl ⟨r, hr, rfl⟩)
    · exact .inr (.inr ⟨x, hx, rfl⟩)
  | application hd =>
    obtain ⟨draft, -, hc⟩ := bind_eq_ok_iff.mp hd
    obtain ⟨rfl, hstated⟩ := completeApplication_eq_ok_iff.mp hc
    refine ⟨fun p hp ↦ max_unions_has ?_, fun hf ↦ hstated (incomplete_eq_false hf)⟩
    simp only [Component.parts, List.mem_append, List.mem_map] at hp ⊢
    rcases hp with ⟨i, hi, rfl⟩ | ⟨h, hh, rfl⟩
    · exact .inl ⟨i, hi, rfl⟩
    · exact .inr ⟨h, hh, rfl⟩

/-- A route that steps draft has a name if it has a message type. -/
theorem named {r : Route} (h : Completes (.route r)) (hm : r.messageType.isSome) :
    r.messageTypeName.isSome := by
  cases h with
  | @route steps r h =>
    obtain ⟨rfl, -⟩ := completeRoute_eq_ok_iff.mp h
    have hfoldl (d : Route) (hd : d.messageType.isSome → d.messageTypeName.isSome) :
        (steps.foldl RouteStep.apply d).messageType.isSome →
          (steps.foldl RouteStep.apply d).messageTypeName.isSome := by
      clear h hm
      induction steps generalizing d with
      | nil => exact hd
      | cons s steps ih =>
        refine ih (s.apply d) ?_
        cases s with
        | setRouteType | updateFidelity => exact hd
        | setMessageTypeName => exact fun _ ↦ rfl
        | setMessageType t => cases hn : d.messageTypeName <;> simp [RouteStep.apply, hn]
    exact hfoldl {} (by simp) hm

end Completes

/-- Whatever steps draft without a gap, each node of it has the doubts about its parts and says of
what it leaves open; so every node is doubted after normalization as it was before. -/
theorem wellFormed_of_completes {c : Component} (h : Completes c) :
    (∀ n, c.HasNode n → n.WellFormed) ∧
      ∀ o n, c.HasNode n →
        (c.normalize o).HasNode (n.normalize o) ∧ (n.normalize o).fidelity = n.fidelity := by
  have hnodes : ∀ n, c.HasNode n → n.WellFormed := fun n hn ↦ (h.node hn).wellFormed
  refine ⟨hnodes, fun o n hn ↦ ⟨Component.hasNode_normalize.mpr ⟨n, hn, rfl⟩, ?_⟩⟩
  exact Component.fidelity_normalize_of_wellFormed o fun m hm ↦ ((h.node hn).node hm).wellFormed

/-- Steps that draft a shop. They come as they like: the doubt about the cart is raised before it
has a name, and it is never said which messages its second route is for. -/
def shopSteps : List ApplicationStep :=
  [.handler .aggregate
      [.updateFidelity .onlySpeculative, .route [.setRouteType .handlesCommand,
          .setMessageType ⟨"Add", .command⟩],
        .route [.updateFidelity .onlyIncomplete, .setRouteType .recordsEvent],
        .disabled [.setValue true], .setTypeName "Cart"],
    .setSource "Shop",
    .identity [.setKey "14769f7f-87fe-48dd-916e-5bcab6ba6aca", .setName "shop"]]

/-- What the steps draft. -/
def shop : Application where
  fidelity := ⟨true, true⟩
  source := some "Shop"
  identities := [{ name := some "shop", key := some "14769f7f-87fe-48dd-916e-5bcab6ba6aca" }]
  handlers := [{
    kind := .aggregate
    fidelity := ⟨true, true⟩
    typeName := some "Cart"
    routes := [
      { routeType := some .handlesCommand
        messageTypeName := some "Add"
        messageType := some ⟨"Add", .command⟩ },
      { routeType := some .recordsEvent, fidelity := .onlyIncomplete }]
    disabled := [{ value := some true }] }]

/-- The doubts about a route have come to the shop, and normalization finds them there. -/
theorem wellFormed_of_completes_shop : Draft.application shopSteps = .ok shop ∧
    (Component.application shop).fidelity = ⟨true, true⟩ ∧
      (Component.application shop).WellFormed ∧
        ((Component.application shop).normalize .default).fidelity = ⟨true, true⟩ := by
  have hsteps : Draft.application shopSteps = .ok shop := rfl
  obtain ⟨hnodes, hnormalize⟩ := wellFormed_of_completes (.application hsteps)
  exact ⟨hsteps, rfl, hnodes _ (.self _), (hnormalize .default _ (.self _)).2⟩

end Draft
end Wiring
