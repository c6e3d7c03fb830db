import Wiring.Proofs.Config.Validity

/-!
# What is wrong with the routes of a handler

Each route of a type that the kind disallows is a problem, and so is each pair of a route type and a
message type name that several routes are about, and each required type that no route has. Every one
of them is found once. The order of the routes has no bearing on what is found, only on the order in
which it is.
-/

namespace Wiring

/-- The union of a list does not depend on its order. -/
theorem Fidelity.unions_perm {l l' : List Fidelity} (h : l.Perm l') : unions l = unions l' := by
  induction h with
  | nil => rfl
  | cons a _ ih => rw [unions_cons, unions_cons, ih]
  | swap a b l =>
    rw [unions_cons, unions_cons, unions_cons, unions_cons, ← max_assoc, max_comm b a, max_assoc]
  | trans _ _ ih ih' => rw [ih, ih']

namespace Config

/-- The problem is one with the routes of a handler. -/
def Problem.isAboutRoutes : Problem → Bool
  | unexpectedRouteType _ _ | duplicateRoute _ | missingRequiredRoute _ => true
  | _ => false

/-- The problem with a route of a type that the kind disallows. -/
def Route.unexpected (kind : HandlerKind) (r : Route) : Option Problem :=
  (r.routeType.filter fun t ↦ kind.capability t = .disallowed).map
    fun t ↦ .unexpectedRouteType t r.descriptor

namespace Handler

/-- The problems with the next route, and then those with the rest. -/
theorem routeProblems_cons (kind : HandlerKind) (earlier : List RouteKey) (r : Route)
    (rest : List Route) : routeProblems kind earlier (r :: rest) =
      (r.unexpected kind).toList ++
        (r.key.toList.filter fun about ↦ earlier.count about = 1).map .duplicateRoute ++
          routeProblems kind (earlier ++ r.key.toList) rest := by
  rw [routeProblems]
  congr 2
  · unfold Route.unexpected
    cases r.routeType with
    | none => rfl
    | some t => by_cases h : kind.capability t = .disallowed <;> simp [Option.filter_some, h]
  · cases r.key with
    | none => rfl
    | some about => by_cases h : earlier.count about = 1 <;> simp [h]

/-- What is wrong with single routes, in some order: the routes of disallowed types, and once each
what is there a second time, unless it was there twice before. -/
theorem routeProblems_perm (kind : HandlerKind) (earlier : List RouteKey) (routes : List Route) :
    ∃ repeated : List RouteKey,
      (routeProblems kind earlier routes).Perm
        (routes.filterMap (Route.unexpected kind) ++ repeated.map .duplicateRoute) ∧
      ∀ about, repeated.count about =
        if earlier.count about ≤ 1 ∧ 2 ≤ (earlier ++ routes.filterMap Route.key).count about then 1
        else 0 := by
  induction routes generalizing earlier with
  | nil =>
    refine ⟨[], .refl _, fun about ↦ ?_⟩
    rw [List.filterMap_nil, List.append_nil, List.count_nil, if_neg (by omega)]
  | cons r rest ih =>
    have hcons {β : Type} (f : Route → Option β) :
        (r :: rest).filterMap f = (f r).toList ++ rest.filterMap f := by
      cases h : f r <;> simp [h]
    obtain ⟨repeated, hperm, hcount⟩ := ih (earlier ++ r.key.toList)
    refine ⟨(r.key.toList.filter fun about ↦ earlier.count about = 1) ++ repeated, ?_, ?_⟩
    · rw [routeProblems_cons, hcons, List.map_append]
      apply (hperm.append_left _).trans
      simp only [List.append_assoc]
      apply List.Perm.append_left
      rw [← List.append_assoc, ← List.append_assoc]
      exact List.perm_append_comm.append_right _
    · intro about
      rw [List.count_append, hcount, hcons, List.append_assoc]
      cases r.key with
      | none => simp
      | some about' =>
        -- only what the route is about can come to be repeated
        by_cases heq : about' = about
        · grind
        · grind

variable {o : Options} {h : Handler}

/-- The problems are those with single routes, in some order: one for each route of a type that the
kind disallows, and one for each route type and message type name that several routes are about.
Routes without a name are named for their message type. -/
def RouteByRoute (h : Handler) (found : List Problem) : Prop :=
  ∃ repeated : List RouteKey,
    found.Perm ((h.routes.filterMap fun r ↦ r.named.unexpected h.kind) ++
      repeated.map .duplicateRoute) ∧
    repeated.Nodup ∧
    ∀ about, about ∈ repeated ↔ 2 ≤ (h.routes.filterMap fun r ↦ r.named.key).count about

/-- What is wrong with single routes is found of a handler whatever order its routes are in. -/
theorem routeByRoute_of_perm (o : Options) {routes : List Route} (hp : routes.Perm h.routes) :
    h.RouteByRoute (routeProblems h.kind [] (routes.map (Route.normalize o))) := by
  obtain ⟨repeated, hperm, hcount⟩ :=
    routeProblems_perm h.kind [] (routes.map (Route.normalize o))
  have hunexpected : (routes.map (Route.normalize o)).filterMap (Route.unexpected h.kind) =
      routes.filterMap fun r ↦ r.named.unexpected h.kind := List.filterMap_map
  have hkeys : (routes.map (Route.normalize o)).filterMap Route.key =
      routes.filterMap fun r ↦ r.named.key := List.filterMap_map
  rw [hunexpected] at hperm
  simp only [List.count_nil, Nat.zero_le, true_and, List.nil_append, hkeys,
    (hp.filterMap _).count_eq] at hcount
  refine ⟨repeated, hperm.trans ((hp.filterMap _).append_right _), ?_, fun about ↦ ?_⟩
  · rw [List.nodup_iff_count_le_one]
    intro about
    rw [hcount]
    split <;> omega
  · rw [← List.count_pos_iff, hcount]
    split <;> omega

/-- The required route types that no route has, unless the handler is incomplete. -/
def missingTypes (h : Handler) : List RouteType :=
  if h.fidelity.incomplete then [] else missingRouteTypes h.kind h.routes

theorem missingRouteProblems_eq (h : Handler) :
    h.missingRouteProblems = h.missingTypes.map .missingRequiredRoute := by
  unfold missingRouteProblems missingTypes
  split <;> rfl

/-- Missing types come in the order of route types. -/
theorem pairwise_missingTypes (h : Handler) : h.missingTypes.Pairwise (· < ·) := by
  unfold missingTypes
  split
  · exact .nil
  · have hall : RouteType.all.Pairwise (· < ·) := by decide
    exact hall.filter _

theorem mem_missingTypes_iff {t : RouteType} : t ∈ h.missingTypes ↔
    h.fidelity.incomplete = false ∧ h.kind.capability t = .required ∧
      ∀ r ∈ h.routes, r.routeType ≠ some t := by
  unfold missingTypes
  split
  · simp_all
  · simp_all [missingRouteTypes, RouteType.mem_all]

/-- With the same routes in another order, normalization gives the same handler with its routes in
that order, and with what is wrong with single routes found in that order. -/
theorem normalize_of_perm {routes : List Route} (hp : routes.Perm h.routes) :
    { h with routes }.normalize o = { h.normalize o with
      routes := routes.map (Route.normalize o)
      problems := (h.toEntity.normalize o h.kind.text).problems ++
        routeProblems h.kind [] (routes.map (Route.normalize o)) ++
          (h.normalize o).missingTypes.map .missingRequiredRoute } := by
  have hroutes : (routes.map (Route.normalize o)).Perm (h.routes.map (Route.normalize o)) :=
    hp.map _
  have hfidelity : ({ h with routes }.normalize o).fidelity = (h.normalize o).fidelity := by
    have hunions := Fidelity.unions_perm ((hroutes.map Route.fidelity).append_right
      ((h.disabled.map Flag.normalize).map Flag.fidelity))
    exact congrArg (max _) hunions
  have hmissing : ({ h with routes }.normalize o).missingTypes = (h.normalize o).missingTypes := by
    have hany (t : RouteType) : (routes.map (Route.normalize o)).any (·.routeType = some t) =
        (h.routes.map (Route.normalize o)).any (·.routeType = some t) := hroutes.any_eq
    have htypes : missingRouteTypes h.kind (routes.map (Route.normalize o)) =
        missingRouteTypes h.kind (h.routes.map (Route.normalize o)) := by
      simp only [missingRouteTypes, hany]
    unfold missingTypes
    rw [hfidelity]
    exact congrArg (ite _ []) htypes
  change Handler.mk (Entity.mk ({ h with routes }.normalize o).fidelity
    (_ ++ _ ++ ({ h with routes }.normalize o).missingRouteProblems) _ _ _) _ _ _ = _
  rw [missingRouteProblems_eq, hmissing, hfidelity]
  rfl

/-- Of the problems of a normalized handler, those with its routes are exactly one for each route of
a type that the kind disallows, one for each route type and message type name that several routes
are about, and one for each required type that no route has, unless the handler comes out as
incomplete; these come last, in the order of route types. With the routes in another order, the
problems with single routes may come in another order, and nothing else changes. -/
theorem routeProblems_normalize (o : Options) (h : Handler) :
    ∃ (own : List Problem) (missing : List RouteType),
      (∀ p ∈ own, p.isAboutRoutes = false) ∧
      (missing.Pairwise (· < ·) ∧ ∀ t, t ∈ missing ↔ (h.normalize o).fidelity.incomplete = false ∧
        h.kind.capability t = .required ∧ ∀ r ∈ h.routes, r.routeType ≠ some t) ∧
      (∃ found, h.RouteByRoute found ∧
        (h.normalize o).problems = own ++ found ++ missing.map .missingRequiredRoute) ∧
      ∀ routes, routes.Perm h.routes → ∃ found, h.RouteByRoute found ∧
        { h with routes }.normalize o = { h.normalize o with
          routes := routes.map (Route.normalize o)
          problems := own ++ found ++ missing.map .missingRequiredRoute } := by
  have hmissing (t : RouteType) : t ∈ (h.normalize o).missingTypes ↔
      (h.normalize o).fidelity.incomplete = false ∧
        h.kind.capability t = .required ∧ ∀ r ∈ h.routes, r.routeType ≠ some t := by
    rw [mem_missingTypes_iff]
    have hroutes : (h.normalize o).routes = h.routes.map (Route.normalize o) := rfl
    rw [hroutes, List.forall_mem_map]
    rfl
  have hperm (routes : List Route) (hp : routes.Perm h.routes) :=
    And.intro (routeByRoute_of_perm o hp) (normalize_of_perm (o := o) hp)
  refine ⟨(h.toEntity.normalize o h.kind.text).problems, (h.normalize o).missingTypes,
    Entity.forall_mem_problems_normalize (fun _ _ ↦ rfl) (fun _ ↦ rfl) rfl fun _ ↦ rfl,
    ⟨pairwise_missingTypes _, hmissing⟩, ?_, fun routes hp ↦ ⟨_, hperm routes hp⟩⟩
  obtain ⟨hfound, hnormalize⟩ := hperm h.routes (.refl _)
  exact ⟨_, hfound, congrArg (fun n : Handler ↦ n.problems) hnormalize⟩

end Handler
end Config
end Wiring
