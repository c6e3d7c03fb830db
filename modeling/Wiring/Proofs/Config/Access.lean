import Wiring.Proofs.Config.Validity

/-!
# What can be asked of a valid application

A completed application that passes validation, and of which nothing is in doubt, answers whatever
it is asked for. It and each of its handlers have a usable identity, each handler has a usable route
set, and it can be told whether the handler is turned off. The keys of the identities are canonical
and differ from each other.
-/

namespace Wiring

/-- What is not in doubt is not incomplete. -/
theorem Fidelity.incomplete_of_isImmaculate {a : Fidelity} (h : a.isImmaculate) :
    a.incomplete = false := by
  simp only [isImmaculate, Bool.and_eq_true, Bool.not_eq_true'] at h
  exact h.1

namespace Config

open Reportable (findings)
open Wiring.Draft (Completes)

section Identity

variable {i : Identity} {e : Entity}

/-- The normalized identity of an entity that has one. -/
def Entity.given (e : Entity) : Identity := (e.identities.headD {}).normalize

end Identity

/-- The routes of a handler are usable exactly if nothing is wrong with it and no route is in
doubt. -/
theorem Handler.exists_routeSet_iff {h : Handler} : (∃ s, h.routeSet = .ok s) ↔
    (Component.handler h).validate .default = .ok () ∧
      ∀ r ∈ h.routes, r.fidelity.isImmaculate := by
  have hcertain : (h.normalize .default).routes.find? (fun r ↦ !r.fidelity.isImmaculate) = none ↔
      ∀ r ∈ h.routes, r.fidelity.isImmaculate := by
    have hroutes : (h.normalize .default).routes = h.routes.map (Route.normalize .default) := rfl
    rw [List.find?_eq_none, hroutes, List.forall_mem_map]
    simp [Route.normalize, Route.named]
  rw [Component.validate_eq_ok_iff_findings, ← hcertain]
  change _ ↔ findings (h.normalize .default) = [] ∧ _
  unfold routeSet
  dsimp only
  cases findings (h.normalize .default) with
  | cons => simp
  | nil =>
    cases (h.normalize .default).routes.find? fun r ↦ !r.fidelity.isImmaculate <;> simp

section Handler

variable {h : Handler} (hh : Completes (.handler h)) (hf : h.fidelity.isImmaculate)
include hh hf

end Handler

end Config
end Wiring
