import Wiring.Proofs.Config.Frame
import Wiring.Proofs.Config.Ownership

/-!
# What execution asks beyond consistency

Normalization for execution finds at each node what plain normalization finds there, and one problem
more where the value is missing that execution needs: at an application or handler without source,
and at a route without message type. Nothing else in the tree depends on what is asked.
-/

namespace Wiring.Config

/-- The problem is that a value which execution needs is not at hand. -/
def Problem.isUnavailable : Problem → Bool
  | runtimeValueUnavailable _ => true
  | _ => false

/-- The problems that are there whatever is asked. -/
def consistencyProblems (l : List Problem) : List Problem := l.filter fun p ↦ !p.isUnavailable

/-- The second list has the problems of the first in their order, and of those about values that
execution needs only the one about the given value, if any. -/
structure Adds (value : Option String) (l l' : List Problem) : Prop where
  consistency : consistencyProblems l' = l
  unavailable : l'.filter Problem.isUnavailable = value.toList.map .runtimeValueUnavailable

namespace Adds

variable {value : Option String} {k l l' : List Problem}

/-- A list without problems about values adds nothing to itself. -/
theorem self (h : ∀ p ∈ l, p.isUnavailable = false) : Adds none l l where
  consistency := List.filter_eq_self.mpr fun p hp ↦ by rw [h p hp, Bool.not_false]
  unavailable := List.filter_eq_nil_iff.mpr fun p hp ↦ by simp [h p hp]

/-- The list to which problems are added has none about values. -/
theorem isUnavailable_eq_false (h : Adds value l l') : ∀ p ∈ l, p.isUnavailable = false := by
  intro p hp
  rw [← h.consistency] at hp
  simpa using (List.mem_filter.mp hp).2

/-- More problems may follow. -/
theorem append (h : Adds value l l') (hk : ∀ p ∈ k, p.isUnavailable = false) :
    Adds value (l ++ k) (l' ++ k) where
  consistency := by
    unfold consistencyProblems
    rw [List.filter_append]
    exact congrArg₂ _ h.consistency (self hk).consistency
  unavailable := by
    rw [List.filter_append, h.unavailable, (self hk).unavailable]
    exact List.append_nil _

/-- More problems may come first. -/
theorem prepend (h : Adds value l l') (hk : ∀ p ∈ k, p.isUnavailable = false) :
    Adds value (k ++ l) (k ++ l') where
  consistency := by
    unfold consistencyProblems
    rw [List.filter_append]
    exact congrArg₂ _ (self hk).consistency h.consistency
  unavailable := by
    rw [List.filter_append, h.unavailable, (self hk).unavailable]
    exact List.nil_append _

end Adds

/-! ### Trees with other problems -/

section MapProblems

variable (f : List Problem → List Problem)

/-- The identity with its problems changed. -/
def Identity.mapProblems (i : Identity) : Identity := { i with problems := f i.problems }

/-- The route with its problems changed. -/
def Route.mapProblems (r : Route) : Route := { r with problems := f r.problems }

/-- The flag with its problems changed. -/
def Flag.mapProblems (x : Flag) : Flag := { x with problems := f x.problems }

/-- The entity with its problems changed, and those of its identities. -/
def Entity.mapProblems (e : Entity) : Entity :=
  { e with problems := f e.problems, identities := e.identities.map (Identity.mapProblems f) }

/-- The handler with its problems changed, and those of its parts. -/
def Handler.mapProblems (h : Handler) : Handler :=
  { h with
    toEntity := h.toEntity.mapProblems f
    routes := h.routes.map (Route.mapProblems f)
    disabled := h.disabled.map (Flag.mapProblems f) }

/-- The application with its problems changed, and those of its parts. -/
def Application.mapProblems (a : Application) : Application :=
  { a with
    toEntity := a.toEntity.mapProblems f
    handlers := a.handlers.map (Handler.mapProblems f) }

/-- The component with its problems changed, and those of everything in it. -/
def Component.mapProblems : Component → Component
  | application a => application (a.mapProblems f)
  | handler h => handler (h.mapProblems f)
  | identity i => identity (i.mapProblems f)
  | route r => route (r.mapProblems f)
  | flag x => flag (x.mapProblems f)

end MapProblems

/-! ### Parts and entities -/

/-- What is wrong with an identity is wrong whatever is asked. -/
theorem Identity.isUnavailable_problems_normalize (i : Identity) :
    ∀ p ∈ i.normalize.problems, p.isUnavailable = false := by
  show ∀ p ∈ i.nameProblems ++ i.keyProblems, p.isUnavailable = false
  rw [List.forall_mem_append]
  unfold nameProblems keyProblems
  constructor
  · split <;> split <;> simp [Problem.isUnavailable]
  · split <;> split <;> simp [Problem.isUnavailable]

/-- An identity keeps its problems when those about values are left out. -/
theorem Identity.mapProblems_normalize (i : Identity) :
    i.normalize.mapProblems consistencyProblems = i.normalize := by
  unfold mapProblems
  rw [(Adds.self i.isUnavailable_problems_normalize).consistency]

namespace Route

/-- What execution needs of a route and the route lacks. -/
def missingValue (r : Route) : Option String :=
  if r.messageType.isNone then some ("message type of " ++ r.descriptor) else none

/-- A wrong name is wrong whatever is asked. -/
theorem isUnavailable_nameProblems (r : Route) :
    ∀ p ∈ r.nameProblems, p.isUnavailable = false := by
  unfold nameProblems
  split
  · split <;> simp [Problem.isUnavailable]
  · simp

/-- A message type of the wrong kind is wrong whatever is asked. -/
theorem isUnavailable_kindProblems (r : Route) :
    ∀ p ∈ r.kindProblems, p.isUnavailable = false := by
  unfold kindProblems
  split
  · split <;> simp [Problem.isUnavailable]
  · simp

/-- Execution adds the problem that the message type is missing. -/
theorem adds_normalize (r : Route) :
    Adds (r.normalize .default).missingValue (r.normalize .default).problems
      (r.normalize .execution).problems := by
  have hplain : ∀ p ∈ r.named.nameProblems ++ r.named.kindProblems,
      p.isUnavailable = false := by
    rw [List.forall_mem_append]
    exact ⟨r.named.isUnavailable_nameProblems, r.named.isUnavailable_kindProblems⟩
  have havailability : Adds (r.normalize .default).missingValue
      (r.named.availabilityProblems .default) (r.named.availabilityProblems .execution) := by
    unfold missingValue availabilityProblems
    show Adds (if r.messageType.isNone then _ else none) _
      (if true && r.messageType.isNone then _ else [])
    cases r.messageType with
    | none => exact ⟨rfl, rfl⟩
    | some t => exact ⟨rfl, rfl⟩
  exact havailability.prepend hplain

/-- But for that problem, execution changes nothing about a route. -/
theorem mapProblems_normalize (r : Route) :
    (r.normalize .execution).mapProblems consistencyProblems = r.normalize .default := by
  unfold mapProblems
  rw [r.adds_normalize.consistency]
  rfl

end Route

namespace Entity

/-- What execution needs of an entity and the entity lacks. -/
def missingValue (kind : String) (e : Entity) : Option String :=
  if e.source.isNone then some ("source value of " ++ e.descriptor kind) else none

/-- Execution adds the problem that the source is missing. -/
theorem adds_sourceProblems (kind : String) (e : Entity) :
    Adds (e.missingValue kind) (e.sourceProblems .default kind)
      (e.sourceProblems .execution kind) := by
  unfold missingValue sourceProblems
  cases e.source with
  | none => exact ⟨rfl, rfl⟩
  | some source =>
    cases e.typeName with
    | none => exact ⟨rfl, rfl⟩
    | some name =>
      apply Adds.self
      show ∀ p ∈ if name = source then [] else [Problem.typeNameMismatch name source], _
      split <;> simp [Problem.isUnavailable]

/-- How many identities there are is wrong whatever is asked. -/
theorem isUnavailable_identityProblems (e : Entity) :
    ∀ p ∈ e.identityProblems, p.isUnavailable = false := by
  unfold identityProblems
  split
  · split <;> simp [Problem.isUnavailable]
  · simp
  · simp [Problem.isUnavailable]

/-- Execution adds the problem that the source is missing. -/
theorem adds_normalize (kind : String) (e : Entity) :
    Adds ((e.normalize .default kind).missingValue kind) (e.normalize .default kind).problems
      (e.normalize .execution kind).problems := by
  apply Adds.append
  · apply adds_sourceProblems
  · apply isUnavailable_identityProblems

/-- The identities of a normalized entity keep their problems when those about values are left
out. -/
theorem map_mapProblems_identities (o : Options) (kind : String) (e : Entity) :
    (e.normalize o kind).identities.map (Identity.mapProblems consistencyProblems) =
      (e.normalize .default kind).identities := by
  show (e.identities.map _).map _ = e.identities.map _
  rw [List.map_map]
  exact List.map_congr_left fun i _ ↦ i.mapProblems_normalize

end Entity

/-- Entities are the same but for some problems if they are the same field by field. -/
theorem Entity.mapProblems_eq {f : List Problem → List Problem} {e e' : Entity}
    (hfidelity : e.fidelity = e'.fidelity) (hproblems : f e.problems = e'.problems)
    (htypeName : e.typeName = e'.typeName) (hsource : e.source = e'.source)
    (hidentities : e.identities.map (Identity.mapProblems f) = e'.identities) :
    e.mapProblems f = e' := by
  unfold mapProblems
  rw [hfidelity, hproblems, htypeName, hsource, hidentities]

/-! ### Handlers -/

namespace Handler

/-- What is wrong with single routes does not depend on the problems they have. -/
theorem routeProblems_map (f : List Problem → List Problem) (kind : HandlerKind)
    (earlier : List RouteKey) (routes : List Route) :
    routeProblems kind earlier (routes.map (Route.mapProblems f)) =
      routeProblems kind earlier routes := by
  induction routes generalizing earlier with
  | nil => rfl
  | cons r rest ih =>
    rw [List.map_cons, routeProblems, routeProblems, ih]
    rfl

/-- Which route types are missing does not depend on the problems that routes have. -/
theorem missingRouteTypes_map (f : List Problem → List Problem) (kind : HandlerKind)
    (routes : List Route) :
    missingRouteTypes kind (routes.map (Route.mapProblems f)) = missingRouteTypes kind routes := by
  unfold missingRouteTypes
  simp only [List.any_map]
  rfl

/-- What is wrong with single routes is wrong whatever is asked. -/
theorem isUnavailable_routeProblems (kind : HandlerKind) (earlier : List RouteKey)
    (routes : List Route) :
    ∀ p ∈ routeProblems kind earlier routes, p.isUnavailable = false := by
  induction routes generalizing earlier with
  | nil => exact fun p hp ↦ absurd hp List.not_mem_nil
  | cons r rest ih =>
    rw [routeProblems, List.forall_mem_append, List.forall_mem_append]
    refine ⟨⟨?_, ?_⟩, ih _⟩
    · cases r.routeType with
      | none => simp
      | some t => dsimp only; split <;> simp [Problem.isUnavailable]
    · cases r.key with
      | none => simp
      | some about => dsimp only; split <;> simp [Problem.isUnavailable]

/-- Missing routes are wrong whatever is asked. -/
theorem isUnavailable_missingRouteProblems (h : Handler) :
    ∀ p ∈ h.missingRouteProblems, p.isUnavailable = false := by
  unfold missingRouteProblems
  split <;> simp [Problem.isUnavailable]

/-- The routes of a normalized handler, as plain normalization leaves them. -/
theorem map_mapProblems_routes (h : Handler) :
    (h.normalize .execution).routes.map (Route.mapProblems consistencyProblems) =
      (h.normalize .default).routes := by
  show (h.routes.map _).map _ = h.routes.map _
  rw [List.map_map]
  exact List.map_congr_left fun r _ ↦ r.mapProblems_normalize

/-- What execution asks leaves the doubts about a handler alone. -/
theorem fidelity_normalize_execution (h : Handler) :
    (h.normalize .execution).fidelity = (h.normalize .default).fidelity :=
  (Component.fidelity_normalize_eq_doubts (c := .handler h)).trans
    Component.fidelity_normalize_eq_doubts.symm

/-- Execution adds the problem that the source is missing. -/
theorem adds_normalize (h : Handler) :
    Adds ((h.normalize .default).missingValue h.kind.text) (h.normalize .default).problems
      (h.normalize .execution).problems := by
  have hroutes : routeProblems h.kind [] (h.normalize .execution).routes =
      routeProblems h.kind [] (h.normalize .default).routes := by
    rw [← map_mapProblems_routes, routeProblems_map]
  have hmissing : (h.normalize .execution).missingRouteProblems =
      (h.normalize .default).missingRouteProblems := by
    unfold missingRouteProblems
    rw [← map_mapProblems_routes, missingRouteTypes_map, fidelity_normalize_execution]
    rfl
  show Adds _ ((h.toEntity.normalize .default h.kind.text).problems ++
      routeProblems h.kind [] (h.normalize .default).routes ++
      (h.normalize .default).missingRouteProblems)
    ((h.toEntity.normalize .execution h.kind.text).problems ++
      routeProblems h.kind [] (h.normalize .execution).routes ++
      (h.normalize .execution).missingRouteProblems)
  rw [hroutes, hmissing]
  apply Adds.append
  · apply Adds.append
    · exact h.toEntity.adds_normalize h.kind.text
    · apply isUnavailable_routeProblems
  · apply isUnavailable_missingRouteProblems

/-- But for problems about values, execution changes nothing about a handler and its parts. -/
theorem mapProblems_normalize (h : Handler) :
    (h.normalize .execution).mapProblems consistencyProblems = h.normalize .default := by
  have hentity : (h.normalize .execution).toEntity.mapProblems consistencyProblems =
      (h.normalize .default).toEntity := by
    apply Entity.mapProblems_eq
    · exact h.fidelity_normalize_execution
    · exact h.adds_normalize.consistency
    · rfl
    · rfl
    · exact h.toEntity.map_mapProblems_identities .execution h.kind.text
  unfold mapProblems
  rw [hentity, map_mapProblems_routes]
  show Handler.mk _ _ _ ((h.disabled.map _).map _) = Handler.mk _ _ _ (h.disabled.map _)
  rw [List.map_map]
  rfl

end Handler

/-! ### Applications -/

namespace Member

/-- The member with the problems of its identities and routes changed. -/
def mapProblems (f : List Problem → List Problem) (m : Member) : Member :=
  { m with
    identities := m.identities.map (Identity.mapProblems f)
    routes := m.routes.map (Route.mapProblems f) }

/-- Problems make no difference to what members claim with their identities. -/
theorem ofOwners_identities (f : List Problem → List Problem) {element : Identity → Option String}
    (helement : ∀ i, element (i.mapProblems f) = element i) (first : Nat) (members : List Member) :
    Claims.ofOwners identities element descriptor first (members.map (mapProblems f)) =
      Claims.ofOwners identities element descriptor first members :=
  Claims.ofOwners_map (f := mapProblems f) (fun _ ↦ rfl) helement (fun _ ↦ rfl) members

/-- Problems make no difference to what members claim with their routes. -/
theorem ofOwners_routes (f : List Problem → List Problem) (first : Nat) (members : List Member) :
    Claims.ofOwners routes Route.exclusiveKey descriptor first (members.map (mapProblems f)) =
      Claims.ofOwners routes Route.exclusiveKey descriptor first members :=
  Claims.ofOwners_map (f := mapProblems f) (g := Route.mapProblems f) (fun _ ↦ rfl) (fun _ ↦ rfl)
    (fun _ ↦ rfl) members

end Member

namespace Application

/-- Which conflicts there are does not depend on the problems that identities and routes have. -/
theorem conflictProblems_congr {a b : Application} (f : List Problem → List Problem)
    (hmember : b.member = a.member.mapProblems f)
    (hhandlers : b.handlers = a.handlers.map (Handler.mapProblems f)) :
    b.conflictProblems = a.conflictProblems := by
  have hothers : b.handlers.map Handler.member =
      (a.handlers.map Handler.member).map (Member.mapProblems f) := by
    rw [hhandlers, List.map_map, List.map_map]
    rfl
  have hall : b.member :: b.handlers.map Handler.member =
      (a.member :: a.handlers.map Handler.member).map (Member.mapProblems f) := by
    rw [List.map_cons, hmember, hothers]
  unfold conflictProblems
  dsimp only
  rw [hall, hothers, Member.ofOwners_identities f fun _ ↦ rfl,
    Member.ofOwners_identities f fun _ ↦ rfl, Member.ofOwners_routes]

/-- The type name is filled in whatever is asked. -/
theorem typeName_normalize (o : Options) (a : Application) :
    (a.normalize o).typeName = (a.typeName <|> a.source) := rfl

/-- The source stays as it is whatever is asked. -/
theorem source_normalize (o : Options) (a : Application) : (a.normalize o).source = a.source := rfl

theorem descriptor_normalize (a : Application) :
    (a.normalize .execution).descriptor = (a.normalize .default).descriptor := by
  unfold descriptor Entity.descriptor
  rw [typeName_normalize, typeName_normalize]

/-- Conflicts are there whatever is asked. -/
theorem isUnavailable_conflictProblems (a : Application) :
    ∀ p ∈ a.conflictProblems, p.isUnavailable = false := by
  unfold conflictProblems
  dsimp only
  rw [List.forall_mem_append, List.forall_mem_append]
  simp only [List.forall_mem_map]
  exact ⟨⟨fun _ _ ↦ rfl, fun _ _ ↦ rfl⟩, fun _ _ ↦ rfl⟩

/-- What execution asks leaves the doubts about an application alone. -/
theorem fidelity_normalize_execution (a : Application) :
    (a.normalize .execution).fidelity = (a.normalize .default).fidelity :=
  (Component.fidelity_normalize_eq_doubts (c := .application a)).trans
    Component.fidelity_normalize_eq_doubts.symm

/-- The handlers of a normalized application, as plain normalization leaves them. -/
theorem map_mapProblems_handlers (a : Application) :
    (a.normalize .execution).handlers.map (Handler.mapProblems consistencyProblems) =
      (a.normalize .default).handlers := by
  show (a.handlers.map _).map _ = a.handlers.map _
  rw [List.map_map]
  exact List.map_congr_left fun h _ ↦ h.mapProblems_normalize

/-- A normalized application as a member of itself, as plain normalization leaves it. -/
theorem member_normalize (a : Application) :
    (a.normalize .execution).member.mapProblems consistencyProblems =
      (a.normalize .default).member := by
  unfold member Member.mapProblems
  rw [descriptor_normalize]
  exact congrArg (Member.mk _ · []) (a.toEntity.map_mapProblems_identities .execution kindText)

/-- Execution adds the problem that the source is missing. -/
theorem adds_normalize (a : Application) :
    Adds ((a.normalize .default).missingValue kindText) (a.normalize .default).problems
      (a.normalize .execution).problems := by
  have hconflicts : (a.normalize .execution).conflictProblems =
      (a.normalize .default).conflictProblems := by
    symm
    apply conflictProblems_congr consistencyProblems
    · exact (a.member_normalize).symm
    · exact a.map_mapProblems_handlers.symm
  show Adds _ ((a.toEntity.normalize .default kindText).problems ++
      (a.normalize .default).conflictProblems)
    ((a.toEntity.normalize .execution kindText).problems ++
      (a.normalize .execution).conflictProblems)
  rw [hconflicts]
  apply Adds.append
  · exact a.toEntity.adds_normalize kindText
  · apply isUnavailable_conflictProblems

/-- But for problems about values, execution changes nothing about an application and its parts. -/
theorem mapProblems_normalize (a : Application) :
    (a.normalize .execution).mapProblems consistencyProblems = a.normalize .default := by
  have hentity : (a.normalize .execution).toEntity.mapProblems consistencyProblems =
      (a.normalize .default).toEntity := by
    apply Entity.mapProblems_eq
    · exact a.fidelity_normalize_execution
    · exact a.adds_normalize.consistency
    · rw [typeName_normalize, typeName_normalize]
    · rw [source_normalize, source_normalize]
    · exact a.toEntity.map_mapProblems_identities .execution kindText
  unfold mapProblems
  rw [hentity, map_mapProblems_handlers]

end Application

/-! ### Trees -/

namespace Component

/-- What execution needs of a component and the component lacks: the source of an application or a
handler, the message type of a route. -/
def missingValue : Component → Option String
  | application a => a.toEntity.missingValue Application.kindText
  | handler h => h.toEntity.missingValue h.kind.text
  | route r => r.missingValue
  | identity _ | flag _ => none

/-- Execution adds at most one problem, that a value is missing. -/
theorem adds_normalize (c : Component) : Adds (c.normalize .default).missingValue
    (c.normalize .default).problems (c.normalize .execution).problems := by
  cases c with
  | application a => exact a.adds_normalize
  | handler h => exact h.adds_normalize
  | identity i => exact Adds.self i.isUnavailable_problems_normalize
  | route r => exact r.adds_normalize
  | flag f => exact Adds.self fun _ h ↦ absurd h List.not_mem_nil

/-- But for problems about values, execution changes nothing about a component and its parts. -/
theorem mapProblems_normalize (c : Component) :
    (c.normalize .execution).mapProblems consistencyProblems = c.normalize .default := by
  cases c with
  | application a => exact congrArg application a.mapProblems_normalize
  | handler h => exact congrArg handler h.mapProblems_normalize
  | identity i => exact congrArg identity i.mapProblems_normalize
  | route r => exact congrArg route r.mapProblems_normalize
  | flag f => rfl

/-- Normalization for execution finds the nodes that plain normalization finds, at the same depth
and in the same order, and each with all that is in it is the same but for the problems that values
are missing. Of these it has exactly one for what execution needs of the node and the node lacks,
and plain normalization finds none; the other problems of the node are the same ones, in the same
order. -/
theorem normalize_execution (c : Component) :
    List.Forall₂ (fun m n ↦ n.1 = m.1 ∧ n.2.mapProblems consistencyProblems = m.2 ∧
        n.2.problems.filter Problem.isUnavailable =
          m.2.missingValue.toList.map .runtimeValueUnavailable ∧
        consistencyProblems n.2.problems = m.2.problems ∧
        ∀ p ∈ m.2.problems, p.isUnavailable = false)
      ((c.normalize .default).nodes 0) ((c.normalize .execution).nodes 0) := by
  rw [nodes_normalize, nodes_normalize, List.forall₂_map_left_iff, List.forall₂_map_right_iff,
    List.forall₂_same]
  intro m _
  have hadds := m.2.adds_normalize
  exact ⟨rfl, m.2.mapProblems_normalize, hadds.unavailable, hadds.consistency,
    hadds.isUnavailable_eq_false⟩

end Component
end Wiring.Config
