import Wiring.Proofs.Config.Access

/-!
# What a route set tells

The routes of a handler can be had when nothing is wrong with the handler and no route is in doubt.
Other doubts are no obstacle: where a part of the handler is not known, the set has the routes that
are. What is not known is then never a route, and where everything is known no required route is
missing.
-/

namespace Wiring.Config

namespace Handler

variable {h : Handler}

/-- A normalized handler is incomplete if it was, or if one of its parts is. -/
theorem incomplete_normalize_iff {o : Options} : (h.normalize o).fidelity.incomplete ↔
    h.fidelity.incomplete ∨ (∃ i ∈ h.identities, i.fidelity.incomplete) ∨
      (∃ r ∈ h.routes, r.fidelity.incomplete) ∨ ∃ x ∈ h.disabled, x.fidelity.incomplete := by
  have hfidelity : (h.normalize o).fidelity = max h.fidelity
      (.unions ((Component.handler h).parts.map fun p ↦ (p.normalize o).fidelity)) :=
    Component.fidelity_normalize o (.handler h)
  rw [hfidelity, Fidelity.incomplete_max, Bool.or_eq_true, Fidelity.incomplete_unions]
  simp only [Component.parts, List.any_map, List.any_append, List.any_eq_true, Bool.or_eq_true,
    Function.comp_apply, or_assoc]
  rfl

/-- Of a valid handler that is not incomplete, no required route is missing. -/
theorem exists_route_of_required (hvalid : (Component.handler h).validate .default = .ok ())
    (hcomplete : (h.normalize .default).fidelity.incomplete = false) {t : RouteType}
    (ht : h.kind.capability t = .required) : ∃ r ∈ h.routes, r.routeType = some t := by
  have hproblems : (h.normalize .default).problems = [] :=
    Component.validate_eq_ok_iff_problems.mp hvalid _ (.self _)
  have hmissing : (h.normalize .default).missingRouteProblems = [] := by
    rw [problems_normalize] at hproblems
    exact (List.append_eq_nil_iff.mp hproblems).2
  rw [missingRouteProblems, hcomplete] at hmissing
  have hnone : missingRouteTypes h.kind (h.routes.map (Route.normalize .default)) = [] :=
    List.map_eq_nil_iff.mp hmissing
  obtain ⟨_, hmem, hrt⟩ := missingRouteTypes_eq_nil_iff.mp hnone t ht
  obtain ⟨r, hr, rfl⟩ := List.mem_map.mp hmem
  exact ⟨r, hr, hrt⟩

/-- The routes of a handler can be had exactly if nothing is wrong with the handler and no route is
in doubt. If the handler is incomplete once it is normalized, then because it says so or because of
an identity or a flag; else every required route is there. -/
theorem routeSet_tells (h : Handler) :
    ((∃ s, h.routeSet = .ok s) ↔ (Component.handler h).validate .default = .ok () ∧
      ∀ r ∈ h.routes, r.fidelity.isImmaculate) ∧
    ∀ s, h.routeSet = .ok s →
      ((h.normalize .default).fidelity.incomplete ↔ h.fidelity.incomplete ∨
        (∃ i ∈ h.identities, i.fidelity.incomplete) ∨ ∃ x ∈ h.disabled, x.fidelity.incomplete) ∧
      ((h.normalize .default).fidelity.incomplete = false →
        ∀ t, h.kind.capability t = .required → ∃ r ∈ h.routes, r.routeType = some t) := by
  refine ⟨exists_routeSet_iff, fun s hs ↦ ?_⟩
  obtain ⟨hvalid, hcertain⟩ := exists_routeSet_iff.mp ⟨s, hs⟩
  refine ⟨?_, fun hcomplete t ht ↦ exists_route_of_required hvalid hcomplete ht⟩
  have hroutes : ¬ ∃ r ∈ h.routes, r.fidelity.incomplete := by
    rintro ⟨r, hr, hinc⟩
    simp [Fidelity.incomplete_of_isImmaculate (hcertain r hr)] at hinc
  rw [incomplete_normalize_iff, or_iff_right hroutes]

/-- A projection of loans. -/
def loans : Handler where
  kind := .projection
  typeName := some "Loans"
  identities := [{ name := some "loans", key := some "7e3c2f11-91aa-4d0e-b6c5-2b9d5a1e8f30" }]
  routes := [{ routeType := some .handlesEvent, messageTypeName := some "Lent" }]

/-- Whether the projection is turned off at some time is not known. -/
def loansSwitched : Handler := { loans with disabled := [{ fidelity := .onlyIncomplete }] }

/-- It is not known which routes the projection has. -/
def loansUnread : Handler := { loans with fidelity := .onlyIncomplete, routes := [] }

/-- The projection has no routes, and it is not known how it is called. -/
def loansUnnamed : Handler :=
  { loans with routes := [], identities := [{ fidelity := .onlyIncomplete }] }

/-- The routes of the projection can be had, also when its flag is not known. -/
theorem routeSet_tells_loans :
    (∃ s, loans.routeSet = .ok s) ∧ (loans.normalize .default).fidelity.incomplete = false ∧
    (∃ r ∈ loans.routes, r.routeType = some .handlesEvent) ∧
    (∃ s, loansSwitched.routeSet = .ok s) ∧
    (loansSwitched.normalize .default).fidelity.incomplete := by
  obtain ⟨s, hs⟩ := (routeSet_tells loans).1.mpr
    ⟨Component.validate_eq_ok_iff_findings.mpr (by decide +kernel), by decide⟩
  obtain ⟨s', hs'⟩ := (routeSet_tells loansSwitched).1.mpr
    ⟨Component.validate_eq_ok_iff_findings.mpr (by decide +kernel), by decide⟩
  have hcomplete : (loans.normalize .default).fidelity.incomplete = false := by decide
  have hflag : ∃ x ∈ loansSwitched.disabled, x.fidelity.incomplete := by decide
  exact ⟨⟨s, hs⟩, hcomplete, ((routeSet_tells loans).2 s hs).2 hcomplete .handlesEvent rfl,
    ⟨s', hs'⟩, ((routeSet_tells loansSwitched).2 s' hs').1.mpr (.inr (.inr hflag))⟩

/-- There is a route set, with the routes that are known, of a handler that is incomplete itself or
because of an identity or a flag. -/
theorem routeSet_incomplete_loans :
    ([loansUnread, loansUnnamed, loansSwitched].map fun h ↦
      (h.routeSet.toOption.map RouteSet.size, (h.normalize .default).fidelity.incomplete)) =
      [(some 0, true), (some 0, true), (some 1, true)] := by
  decide +kernel

end Handler
end Wiring.Config
