import Wiring.Proofs.Config.Ownership
import Wiring.Proofs.Config.Renormalization
import Wiring.Proofs.Config.Traversal
import Wiring.Proofs.Draft.Completion

/-!
# Valid applications

What makes an application valid, said of the application itself: how often things may occur in it,
what names and keys look like, and what its entities may not share. Validation finds nothing wrong
with a completed application exactly if it is valid.
-/

namespace Wiring.Config

open Reportable (findings)
open Wiring.Draft (Completes)

/-- The entity can be told by an identity, and is named for what it is. -/
structure Entity.Valid (e : Entity) : Prop where
  /-- There is one identity; there is none only if it may be in what is not known. -/
  unique : e.identities.length = 1 ∨ e.identities = [] ∧ e.fidelity.incomplete
  names : ∀ i ∈ e.identities, ∀ name, i.name = some name → Identity.isValidName name
  keys : ∀ i ∈ e.identities, ∀ key, i.key = some key → IdentityKey.isKey key
  source : ∀ source name, e.source = some source → e.typeName = some name → name = source

/-- The message type of the route is the one that it is named for, and of the kind that it is
for. -/
def Route.Valid (r : Route) : Prop :=
  ∀ m, r.messageType = some m → r.messageTypeName = some m.name ∧
    ∀ t, r.routeType = some t → m.kind = t.messageKind

/-- The handler is a valid entity with the routes that handlers of its kind may and must have. -/
structure Handler.Valid (h : Handler) : Prop extends h.toEntity.Valid where
  routes : ∀ r ∈ h.routes, r.Valid
  allowed : ∀ r ∈ h.routes, ∀ t, r.routeType = some t → h.kind.capability t ≠ .disallowed
  /-- No two routes have the same route type and message type name. -/
  distinct : (h.routes.filterMap Route.key).Nodup
  /-- A required route is missing only if it may be in what is not known. -/
  required : h.fidelity.incomplete = false →
    ∀ t, h.kind.capability t = .required → ∃ r ∈ h.routes, r.routeType = some t

/-- The application and its handlers. -/
def Application.entities (a : Application) : List Entity :=
  a.toEntity :: a.handlers.map Handler.toEntity

/-- The application and its handlers are valid, and do not get into each other's way. -/
structure Application.Valid (a : Application) : Prop extends a.toEntity.Valid where
  handlers : ∀ h ∈ a.handlers, h.Valid
  /-- No two entities have identities of one key. -/
  keysApart : a.entities.Pairwise fun d e ↦ ∀ i ∈ d.identities, ∀ j ∈ e.identities,
    ∀ key, i.canonicalKey = some key → j.canonicalKey ≠ some key
  /-- No two handlers have identities of one name. -/
  namesApart : a.handlers.Pairwise fun g h ↦ ∀ i ∈ g.identities, ∀ j ∈ h.identities,
    ∀ name, i.name = some name → j.name ≠ some name
  /-- No two handlers handle one command, and no two record one event. -/
  routesApart : a.handlers.Pairwise fun g h ↦ ∀ r ∈ g.routes, ∀ s ∈ h.routes,
    ∀ t name, t = .handlesCommand ∨ t = .recordsEvent →
      r.routeType = some t → r.messageTypeName = some name →
        s.routeType = some t → s.messageTypeName ≠ some name

namespace Component

variable {o : Options} {c : Component}

/-- There are no findings about a component exactly if its nodes have no problems. -/
theorem findings_eq_nil_iff :
    findings c = [] ↔ ∀ n, c.HasNode n → n.problems = [] := by
  simp only [findings_eq_nodes 0, List.flatMap_eq_nil_iff, List.map_eq_nil_iff, Prod.forall]
  constructor
  · intro h n hn
    obtain ⟨d, hd⟩ := (mem_nodes_iff 0).mpr hn
    exact h d n hd
  · exact fun h d n hn ↦ h n ((mem_nodes_iff 0).mp ⟨d, hn⟩)

/-- A component is found valid exactly if there are no findings once it is normalized. -/
theorem validate_eq_ok_iff_findings :
    c.validate o = .ok () ↔ findings (c.normalize o) = [] := by
  unfold validate
  dsimp only
  split
  · next h => simp [h]
  · next h => simpa using h

/-- A component is found valid exactly if normalization finds no problem with any of its nodes. -/
theorem validate_eq_ok_iff_problems :
    c.validate o = .ok () ↔ ∀ n, c.HasNode n → (n.normalize o).problems = [] := by
  rw [validate_eq_ok_iff_findings, findings_eq_nil_iff]
  refine ⟨fun h n hn ↦ h _ (hasNode_normalize.mpr ⟨n, hn, rfl⟩), fun h n hn ↦ ?_⟩
  obtain ⟨m, hm, rfl⟩ := hasNode_normalize.mp hn
  exact h m hm

/-- Plain validation finds nothing wrong with any node. -/
def Faultless (c : Component) : Prop := ∀ n, c.HasNode n → (n.normalize .default).problems = []

/-- A component is faultless if nothing is wrong with it and its parts are faultless. -/
theorem faultless_iff : c.Faultless ↔
    (c.normalize .default).problems = [] ∧ ∀ p ∈ c.parts, p.Faultless :=
  forall_hasNode_iff

end Component

/-- A completed identity is faultless exactly if its name and key are well formed. -/
theorem Identity.faultless_iff {i : Identity} (hi : Completes (.identity i)) :
    (Component.identity i).Faultless ↔ (∀ name, i.name = some name → isValidName name) ∧
      ∀ key, i.key = some key → IdentityKey.isKey key := by
  have hstated : i.fidelity.incomplete = false → i.name.isSome ∧ i.key.isSome :=
    hi.wellFormed.stated
  have hname : i.nameProblems = [] ↔ ∀ name, i.name = some name → isValidName name := by
    unfold nameProblems
    cases hn : i.name <;> simp_all
  have hkey : i.keyProblems = [] ↔ ∀ key, i.key = some key → IdentityKey.isKey key := by
    unfold keyProblems
    cases hk : i.key <;> simp_all
  have hproblems : ((Component.identity i).normalize .default).problems =
      i.nameProblems ++ i.keyProblems := rfl
  rw [Component.faultless_iff, hproblems, List.append_eq_nil_iff, hname, hkey]
  simp [Component.parts]

/-- Completed identities are faultless exactly if their names and their keys are well formed. -/
theorem Identity.forall_faultless_iff {identities : List Identity}
    (h : ∀ i ∈ identities, Completes (.identity i)) :
    (∀ i ∈ identities, (Component.identity i).Faultless) ↔
      (∀ i ∈ identities, ∀ name, i.name = some name → isValidName name) ∧
        ∀ i ∈ identities, ∀ key, i.key = some key → IdentityKey.isKey key := by
  rw [← forall₂_and]
  exact forall₂_congr fun i hi ↦ faultless_iff (h i hi)

/-- A completed route is named already. -/
theorem Route.named_eq {r : Route} (hr : Completes (.route r)) : r.named = r := by
  have hname := hr.named
  obtain ⟨f, problems, t, name, m⟩ := r
  cases name with
  | some name => rfl
  | none =>
    cases m with
    | some m => simp at hname
    | none => rfl

/-- A completed route is faultless exactly if its message type fits. -/
theorem Route.faultless_iff {r : Route} (hr : Completes (.route r)) :
    (Component.route r).Faultless ↔ r.Valid := by
  have hname : r.nameProblems = [] ↔
      ∀ m, r.messageType = some m → r.messageTypeName = some m.name := by
    have hsome := hr.named
    unfold nameProblems
    cases hm : r.messageType <;> cases hn : r.messageTypeName <;> simp_all [eq_comm]
  have hkind : r.kindProblems = [] ↔
      ∀ m, r.messageType = some m → ∀ t, r.routeType = some t → m.kind = t.messageKind := by
    unfold kindProblems
    cases r.messageType <;> cases r.routeType <;> simp
  have hproblems : ((Component.route r).normalize .default).problems =
      r.nameProblems ++ r.kindProblems ++ [] := by
    rw [Component.normalize, normalize, named_eq hr]
    rfl
  rw [Component.faultless_iff, hproblems, List.append_nil, List.append_eq_nil_iff, hname, hkind]
  constructor
  · exact fun h m hm ↦ ⟨h.1.1 m hm, h.1.2 m hm⟩
  · exact fun h ↦ ⟨⟨fun m hm ↦ (h m hm).1, fun m hm ↦ (h m hm).2⟩, by simp [Component.parts]⟩

/-- Every flag is faultless. -/
theorem Flag.faultless (f : Flag) : (Component.flag f).Faultless :=
  Component.faultless_iff.mpr ⟨rfl, by simp [Component.parts]⟩

/-- What routes are about does not change when completed routes are normalized. -/
theorem Route.filterMap_key_normalize {routes : List Route}
    (h : ∀ r ∈ routes, Completes (.route r)) :
    (routes.map (normalize .default)).filterMap key = routes.filterMap key := by
  rw [List.filterMap_map]
  refine List.filterMap_congr fun r hr ↦ ?_
  have hkey : (r.normalize .default).key = r.named.key := rfl
  rw [Function.comp_apply, hkey, named_eq (h r hr)]

section Entity

variable {kind : String} {e : Entity}

/-- The type name that is filled in is the source's. -/
theorem Entity.sourceProblems_eq_nil_iff :
    (e.normalize .default kind).sourceProblems .default kind = [] ↔
      ∀ source name, e.source = some source → e.typeName = some name → name = source := by
  unfold normalize sourceProblems
  cases hs : e.source <;> cases ht : e.typeName <;> simp [Options.default]

/-- What can be wrong with an entity of any kind is its type or the number of its identities. -/
theorem Entity.forall_mem_problems_normalize {P : Problem → Prop}
    (hmismatch : ∀ expected actual, P (.typeNameMismatch expected actual))
    (hunavailable : ∀ what, P (.runtimeValueUnavailable what)) (hmissing : P .missingIdentity)
    (hmultiple : ∀ identities, P (.multipleIdentities identities)) :
    ∀ p ∈ (e.normalize o kind).problems, P p := by
  have hsource : ∀ p ∈ (e.normalize o kind).sourceProblems o kind, P p := by
    unfold sourceProblems
    grind
  have hidentities : ∀ p ∈ (e.normalize o kind).identityProblems, P p := by
    unfold identityProblems
    grind
  exact List.forall_mem_append.mpr ⟨hsource, hidentities⟩

/-- Nothing is wrong with the number of identities exactly if there is one, or there is none and the
entity says that it is incomplete. -/
theorem Entity.identityProblems_normalize_eq_nil_iff :
    (e.normalize o kind).identityProblems = [] ↔
      e.identities.length = 1 ∨ e.identities = [] ∧ e.fidelity.incomplete := by
  cases hi : e.identities with
  | nil =>
    have hnormalized : (e.normalize o kind).identities = [] := identities_normalize_eq_nil.mpr hi
    have hfidelity : (e.normalize o kind).fidelity = e.fidelity := fidelity_normalize_of_nil hi
    unfold identityProblems
    rw [hnormalized, hfidelity]
    simp
  | cons i l =>
    unfold normalize identityProblems
    cases l <;> simp [hi]

end Entity

/-- No required route type is missing exactly if some route is of each. -/
theorem Handler.missingRouteTypes_eq_nil_iff {kind : HandlerKind} {routes : List Route} :
    missingRouteTypes kind routes = [] ↔
      ∀ t, kind.capability t = .required → ∃ r ∈ routes, r.routeType = some t := by
  simp only [missingRouteTypes, List.filter_eq_nil_iff, RouteType.mem_all, true_imp_iff]
  simp

/-- Completed components have the doubts about their parts before they are normalized. -/
theorem fidelity_normalize_of_completes {c : Component} (o : Options) (hc : Completes c) :
    (c.normalize o).fidelity = c.fidelity :=
  Component.fidelity_normalize_of_wellFormed o fun _ hn ↦ (hc.node hn).wellFormed

/-- Nothing is wrong with a completed handler exactly if it has the identity and the routes that it
should have. -/
theorem Handler.problems_eq_nil_iff {h : Handler} (hh : Completes (.handler h)) :
    (h.normalize .default).problems = [] ↔
      (∀ source name, h.source = some source → h.typeName = some name → name = source) ∧
      (h.identities.length = 1 ∨ h.identities = [] ∧ h.fidelity.incomplete) ∧
      (∀ r ∈ h.routes, ∀ t, r.routeType = some t → h.kind.capability t ≠ .disallowed) ∧
      (h.routes.filterMap Route.key).Nodup ∧
      (h.fidelity.incomplete = false →
        ∀ t, h.kind.capability t = .required → ∃ r ∈ h.routes, r.routeType = some t) := by
  have hfidelity : (h.normalize .default).fidelity = h.fidelity :=
    fidelity_normalize_of_completes .default hh
  have hroutes : (h.normalize .default).routes = h.routes.map (Route.normalize .default) := rfl
  have hsource : (h.normalize .default).sourceProblems .default h.kind.text =
      (h.toEntity.normalize .default h.kind.text).sourceProblems .default h.kind.text := rfl
  have hmissing : (h.normalize .default).missingRouteProblems = [] ↔
      (h.fidelity.incomplete = false →
        ∀ t, h.kind.capability t = .required → ∃ r ∈ h.routes, r.routeType = some t) := by
    have hkind : (h.normalize .default).kind = h.kind := rfl
    unfold missingRouteProblems
    rw [hfidelity, hkind, hroutes]
    cases h.fidelity.incomplete with
    | true => simp
    | false =>
      simp only [Bool.false_eq_true, if_false, List.map_eq_nil_iff, missingRouteTypes_eq_nil_iff,
        List.mem_map, exists_exists_and_eq_and, true_imp_iff]
      rfl
  have hallowed : (∀ r ∈ h.routes.map (Route.normalize .default), ∀ t, r.routeType = some t →
      h.kind.capability t ≠ .disallowed) ↔
        ∀ r ∈ h.routes, ∀ t, r.routeType = some t → h.kind.capability t ≠ .disallowed :=
    List.forall_mem_map
  have hcompleted : ∀ r ∈ h.routes, Completes (.route r) := fun r hr ↦
    hh.parts _ (by simp [Component.parts, hr])
  rw [problems_normalize, List.append_eq_nil_iff, List.append_eq_nil_iff, List.append_eq_nil_iff,
    hsource, Entity.sourceProblems_eq_nil_iff, Entity.identityProblems_normalize_eq_nil_iff,
    hroutes, routeProblems_eq_nil_iff List.nodup_nil, hallowed, List.nil_append,
    Route.filterMap_key_normalize hcompleted, hmissing]
  simp only [and_assoc]

/-- A completed handler is faultless exactly if it is valid. -/
theorem Handler.faultless_iff {h : Handler} (hh : Completes (.handler h)) :
    (Component.handler h).Faultless ↔ h.Valid := by
  have hidentities := Identity.forall_faultless_iff fun i (hi : i ∈ h.identities) ↦
    hh.parts (.identity i) (by simp [Component.parts, hi])
  have hroutes : (∀ r ∈ h.routes, (Component.route r).Faultless) ↔ ∀ r ∈ h.routes, r.Valid :=
    forall₂_congr fun r hr ↦
      Route.faultless_iff (hh.parts (.route r) (by simp [Component.parts, hr]))
  have hproblems : ((Component.handler h).normalize .default).problems =
    (h.normalize .default).problems := rfl
  rw [Component.faultless_iff, hproblems, problems_eq_nil_iff hh]
  simp only [Component.parts, List.forall_mem_append, List.forall_mem_map, Flag.faultless,
    implies_true, and_true, hidentities, hroutes]
  constructor
  · rintro ⟨⟨hsource, hunique, hallowed, hdistinct, hrequired⟩, ⟨hnames, hkeys⟩, hvalid⟩
    exact
      { unique := hunique
        names := hnames
        keys := hkeys
        source := hsource
        routes := hvalid
        allowed := hallowed
        distinct := hdistinct
        required := hrequired }
  · intro hv
    exact ⟨⟨hv.source, hv.unique, hv.allowed, hv.distinct, hv.required⟩,
      ⟨hv.names, hv.keys⟩, hv.routes⟩

/-- The canonical form of a key is that of its canonical form. -/
theorem Identity.canonicalKey_normalize (i : Identity) :
    i.normalize.canonicalKey = i.canonicalKey := by
  have hkey : i.normalize.key = i.key.map fun key ↦ (IdentityKey.canonical? key).getD key := rfl
  unfold canonicalKey
  rw [hkey]
  cases i.key with
  | none => rfl
  | some key =>
    by_cases h : IdentityKey.isKey key
    · simp [IdentityKey.canonical?, h, IdentityKey.isKey_lower, IdentityKey.lower_lower]
    · simp [IdentityKey.canonical?, h]

/-- Normalization changes no canonical keys. -/
theorem Entity.filterMap_canonicalKey_normalize (o : Options) (kind : String) (e : Entity) :
    (e.normalize o kind).identities.filterMap Identity.canonicalKey =
      e.identities.filterMap Identity.canonicalKey := by
  have hids : (e.normalize o kind).identities = e.identities.map Identity.normalize := rfl
  rw [hids, List.filterMap_map]
  exact List.filterMap_congr fun i _ ↦ i.canonicalKey_normalize

/-- Normalization changes no names. -/
theorem Entity.filterMap_name_normalize (o : Options) (kind : String) (e : Entity) :
    (e.normalize o kind).identities.filterMap Identity.name =
      e.identities.filterMap Identity.name := by
  have hids : (e.normalize o kind).identities = e.identities.map Identity.normalize := rfl
  rw [hids, List.filterMap_map]
  rfl

/-- Two members share no exclusive route exactly if no two of their routes that are of one exclusive
type are for the same message. -/
theorem Member.disjoint_exclusiveRoutes_iff {m n : Member} :
    m.exclusiveRoutes.Disjoint n.exclusiveRoutes ↔ ∀ r ∈ m.routes, ∀ s ∈ n.routes,
      ∀ t name, t = .handlesCommand ∨ t = .recordsEvent →
        r.routeType = some t → r.messageTypeName = some name →
          s.routeType = some t → s.messageTypeName ≠ some name := by
  have hkey (r : Route) (t : RouteType) (name : String) :
      (r.key.filter fun about ↦ about.routeType.isExclusive) = some ⟨t, name⟩ ↔
        (t = .handlesCommand ∨ t = .recordsEvent) ∧
          r.routeType = some t ∧ r.messageTypeName = some name := by
    rw [Option.filter_eq_some_iff, Route.key]
    cases ht : r.routeType <;> cases hn : r.messageTypeName <;> cases t <;>
      simp [RouteType.isExclusive]
  unfold exclusiveRoutes
  rw [List.filter_filterMap, List.filter_filterMap, disjoint_filterMap_iff]
  refine forall₂_congr fun r _ ↦ forall₂_congr fun s _ ↦ ?_
  constructor
  · intro h t name ht hrt hrn hst hsn
    exact h ⟨t, name⟩ ((hkey r t name).mpr ⟨ht, hrt, hrn⟩) ((hkey s t name).mpr ⟨ht, hst, hsn⟩)
  · rintro h ⟨t, name⟩ hr hs
    obtain ⟨ht, hrt, hrn⟩ := (hkey r t name).mp hr
    obtain ⟨-, hst, hsn⟩ := (hkey s t name).mp hs
    exact h t name ht hrt hrn hst hsn

namespace Application

variable {a : Application}

/-- The members of a normalized application have the keys of its entities. -/
theorem map_keys_normalize (o : Options) (a : Application) :
    ((a.normalize o).member :: (a.normalize o).handlers.map Handler.member).map Member.keys =
      a.entities.map fun e ↦ e.identities.filterMap Identity.canonicalKey := by
  have hhandlers : (a.normalize o).handlers = a.handlers.map (Handler.normalize o) := rfl
  have happ : (a.normalize o).member.keys = a.identities.filterMap Identity.canonicalKey :=
    Entity.filterMap_canonicalKey_normalize o kindText a.toEntity
  rw [entities, List.map_cons, List.map_cons, happ, hhandlers, List.map_map, List.map_map,
    List.map_map]
  exact congrArg _ (List.map_congr_left fun h _ ↦
    Entity.filterMap_canonicalKey_normalize o h.kind.text h.toEntity)

/-- The handlers of a normalized application have the names that they had. -/
theorem map_names_normalize (o : Options) (a : Application) :
    ((a.normalize o).handlers.map Handler.member).map Member.names =
      a.handlers.map fun h ↦ h.identities.filterMap Identity.name := by
  have hhandlers : (a.normalize o).handlers = a.handlers.map (Handler.normalize o) := rfl
  rw [hhandlers, List.map_map, List.map_map]
  exact List.map_congr_left fun h _ ↦ Entity.filterMap_name_normalize o h.kind.text h.toEntity

/-- The handlers of a completed application have the exclusive routes that they had. -/
theorem map_exclusiveRoutes_normalize (ha : Completes (.application a)) :
    ((a.normalize .default).handlers.map Handler.member).map Member.exclusiveRoutes =
      (a.handlers.map Handler.member).map Member.exclusiveRoutes := by
  have hhandlers : (a.normalize .default).handlers = a.handlers.map (Handler.normalize .default) :=
    rfl
  rw [hhandlers, List.map_map, List.map_map, List.map_map]
  refine List.map_congr_left fun h hh ↦ ?_
  have hhandler : Completes (.handler h) := ha.parts _ (by simp [Component.parts, hh])
  have hroutes : ∀ r ∈ h.routes, Completes (.route r) := fun r hr ↦
    hhandler.parts _ (by simp [Component.parts, hr])
  exact congrArg (List.filter _) (Route.filterMap_key_normalize hroutes)

/-- A completed application has no conflicts exactly if its entities share no key, and its handlers
neither a name nor an exclusive route. -/
theorem conflictProblems_eq_nil_iff (ha : Completes (.application a)) :
    (a.normalize .default).conflictProblems = [] ↔
      (a.entities.Pairwise fun d e ↦ ∀ i ∈ d.identities, ∀ j ∈ e.identities,
        ∀ key, i.canonicalKey = some key → j.canonicalKey ≠ some key) ∧
      (a.handlers.Pairwise fun g h ↦ ∀ i ∈ g.identities, ∀ j ∈ h.identities,
        ∀ name, i.name = some name → j.name ≠ some name) ∧
      (a.handlers.Pairwise fun g h ↦ ∀ r ∈ g.routes, ∀ s ∈ h.routes,
        ∀ t name, t = .handlesCommand ∨ t = .recordsEvent →
          r.routeType = some t → r.messageTypeName = some name →
            s.routeType = some t → s.messageTypeName ≠ some name) := by
  rw [conflictProblems_eq, List.append_eq_nil_iff, List.append_eq_nil_iff, List.map_eq_nil_iff,
    List.map_eq_nil_iff, List.map_eq_nil_iff, conflicts_eq_nil_iff fun _ _ h ↦ h,
    conflicts_eq_nil_iff fun _ _ h ↦ h, conflicts_eq_nil_iff fun _ _ h ↦ h, map_keys_normalize,
    map_names_normalize, map_exclusiveRoutes_normalize ha, and_assoc]
  simp only [List.pairwise_map, disjoint_filterMap_iff, Member.disjoint_exclusiveRoutes_iff]
  rfl

/-- A completed application is faultless exactly if it is valid. -/
theorem faultless_iff (ha : Completes (.application a)) :
    (Component.application a).Faultless ↔ a.Valid := by
  have hidentities := Identity.forall_faultless_iff fun i (hi : i ∈ a.identities) ↦
    ha.parts (.identity i) (by simp [Component.parts, hi])
  have hhandlers :
      (∀ h ∈ a.handlers, (Component.handler h).Faultless) ↔ ∀ h ∈ a.handlers, h.Valid :=
    forall₂_congr fun h hh ↦
      Handler.faultless_iff (ha.parts (.handler h) (by simp [Component.parts, hh]))
  have hproblems : ((Component.application a).normalize .default).problems =
    (a.normalize .default).problems := rfl
  have hsource : (a.normalize .default).sourceProblems .default kindText =
      (a.toEntity.normalize .default kindText).sourceProblems .default kindText := rfl
  rw [Component.faultless_iff, hproblems, problems_normalize, List.append_eq_nil_iff,
    List.append_eq_nil_iff, hsource, Entity.sourceProblems_eq_nil_iff,
    Entity.identityProblems_normalize_eq_nil_iff, conflictProblems_eq_nil_iff ha]
  simp only [Component.parts, List.forall_mem_append, List.forall_mem_map, hidentities, hhandlers]
  constructor
  · rintro ⟨⟨⟨hsource, hunique⟩, hkeysApart, hnamesApart, hroutesApart⟩, ⟨hnames, hkeys⟩, hvalid⟩
    exact
      { unique := hunique
        names := hnames
        keys := hkeys
        source := hsource
        handlers := hvalid
        keysApart := hkeysApart
        namesApart := hnamesApart
        routesApart := hroutesApart }
  · intro hv
    exact ⟨⟨⟨hv.source, hv.unique⟩, hv.keysApart, hv.namesApart, hv.routesApart⟩,
      ⟨hv.names, hv.keys⟩, hv.handlers⟩

end Application

end Wiring.Config
