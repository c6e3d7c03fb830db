import Wiring.Proofs.Config.Canonical
import Wiring.Proofs.Config.Node

/-!
# Normalizing again

A second normalization finds everything in place. The one thing that it may judge otherwise is an
entity without identities: whether that is a problem is decided before the doubts about routes,
flags and handlers are taken over, and in the second pass they have been.
-/

namespace Wiring.Config

namespace Component

/-- The component is an entity without identities. -/
def lacksIdentity : Component → Bool
  | application a => a.identities.isEmpty
  | handler h => h.identities.isEmpty
  | identity _ | route _ | flag _ => false

/-- The component is an entity without identities that does not say itself that it is incomplete,
while something in it does. -/
structure DoubtedLate (c : Component) : Prop where
  lacks : c.lacksIdentity
  unmarked : c.fidelity.incomplete = false
  doubt : ∃ n, c.HasNode n ∧ n.fidelity.incomplete

end Component

theorem Entity.identities_normalize_eq_nil {o : Options} {kind : String} {e : Entity} :
    (e.normalize o kind).identities = [] ↔ e.identities = [] := by
  simp [normalize]

/-- Without identities there are no doubts about them. -/
theorem Entity.fidelity_normalize_of_nil {o : Options} {kind : String} {e : Entity}
    (h : e.identities = []) : (e.normalize o kind).fidelity = e.fidelity := by
  simp only [normalize, h, List.map_nil, Fidelity.unions_nil]
  rw [Fidelity.max_comm, Fidelity.immaculate_max]

/-- Whether a missing identity is a problem is judged in the second pass as in the first, unless
doubts have been added since. -/
theorem Entity.identityProblems_widen_iff {o : Options} {kind : String} {e n : Entity}
    (hids : n.identities = (e.normalize o kind).identities) :
    n.identityProblems = (e.normalize o kind).identityProblems ↔
      (e.identities = [] → n.fidelity.incomplete = e.fidelity.incomplete) := by
  rw [identityProblems_eq_iff hids, hids, identities_normalize_eq_nil]
  refine forall_congr' fun h ↦ ?_
  rw [fidelity_normalize_of_nil h]

/-- The problems of a normalized handler are found of the handler as it comes out, but for those
with its identities: these are found before doubts are taken over from routes and flags. -/
theorem Handler.problems_normalize (o : Options) (h : Handler) : (h.normalize o).problems =
    (h.normalize o).sourceProblems o h.kind.text ++
      (h.toEntity.normalize o h.kind.text).identityProblems ++
        routeProblems h.kind [] (h.normalize o).routes ++
          (h.normalize o).missingRouteProblems :=
  rfl

/-- A second normalization of a handler changes nothing unless it judges a missing identity
otherwise. -/
theorem Handler.normalize_normalize_iff {o : Options} {h : Handler} :
    (h.normalize o).normalize o = h.normalize o ↔
      (h.identities = [] → (h.normalize o).fidelity.incomplete = h.fidelity.incomplete) := by
  have hfound : (h.normalize o).foundProblems o = (h.normalize o).sourceProblems o h.kind.text ++
      (h.normalize o).identityProblems ++ routeProblems h.kind [] (h.normalize o).routes ++
        (h.normalize o).missingRouteProblems := rfl
  have hsame (n : Handler) (problems : List Problem) :
      ({ n with problems } : Handler) = n ↔ problems = n.problems :=
    ⟨fun heq ↦ congrArg (fun n : Handler ↦ n.problems) heq, fun heq ↦ by rw [heq]⟩
  rw [(canonical_normalize o h).normalize_eq, hsame, problems_normalize, hfound,
    List.append_left_inj, List.append_left_inj, List.append_right_inj]
  exact Entity.identityProblems_widen_iff rfl

/-- What is looked at for conflicts of a handler stays the same in a second normalization. -/
theorem Handler.member_normalize_normalize (o : Options) (h : Handler) :
    ((h.normalize o).normalize o).member = (h.normalize o).member := by
  rw [(canonical_normalize o h).normalize_eq]
  rfl

theorem Handler.fidelity_normalize_normalize (o : Options) (h : Handler) :
    ((h.normalize o).normalize o).fidelity = (h.normalize o).fidelity := by
  rw [(canonical_normalize o h).normalize_eq]

namespace Application

/-- What is wrong with an application as it stands. -/
def foundProblems (o : Options) (a : Application) : List Problem :=
  a.sourceProblems o kindText ++ a.identityProblems ++ a.conflictProblems

variable {o : Options} {a : Application}

/-- The problems of a normalized application are found of the application as it comes out, but for
those with its identities: these are found before doubts are taken over from handlers. -/
theorem problems_normalize (o : Options) (a : Application) : (a.normalize o).problems =
    (a.normalize o).sourceProblems o kindText ++
      (a.toEntity.normalize o kindText).identityProblems ++ (a.normalize o).conflictProblems :=
  rfl

/-- A second normalization goes through the handlers and finds the problems as they stand; it leaves
the rest alone. -/
theorem normalize_normalize_eq (o : Options) (a : Application) :
    (a.normalize o).normalize o = { a.normalize o with
      handlers := (a.normalize o).handlers.map (Handler.normalize o)
      problems := (a.normalize o).foundProblems o } := by
  have hentity : (a.normalize o).toEntity.Canonical :=
    (Entity.canonical_normalize o kindText a.toEntity).widen _ _
  have hhandlers : (a.normalize o).handlers = a.handlers.map (Handler.normalize o) := rfl
  -- Handlers may change once more, but neither in their doubts nor in what conflicts are found by.
  have hmembers : ((a.normalize o).handlers.map (Handler.normalize o)).map Handler.member =
      (a.normalize o).handlers.map Handler.member := by
    rw [hhandlers, List.map_map, List.map_map, List.map_map]
    exact List.map_congr_left fun h _ ↦ h.member_normalize_normalize o
  have hdoubts : max (a.normalize o).fidelity (.unions
      (((a.normalize o).handlers.map (Handler.normalize o)).map fun h ↦ h.fidelity)) =
        (a.normalize o).fidelity := by
    have hfidelity : ((a.handlers.map (Handler.normalize o)).map (Handler.normalize o)).map
        (fun h ↦ h.fidelity) = (a.handlers.map (Handler.normalize o)).map fun h ↦ h.fidelity := by
      rw [List.map_map, List.map_map, List.map_map]
      exact List.map_congr_left fun h _ ↦ h.fidelity_normalize_normalize o
    rw [hhandlers, hfidelity]
    simp only [normalize]
    rw [Fidelity.max_assoc, Fidelity.max_self]
  rw [normalize]
  dsimp only
  rw [hentity.normalize_eq]
  dsimp only
  rw [hdoubts]
  unfold foundProblems conflictProblems
  dsimp only
  rw [hmembers]
  rfl

/-- A second normalization of an application changes nothing unless it changes a handler or judges
a missing identity otherwise. -/
theorem normalize_normalize_iff : (a.normalize o).normalize o = a.normalize o ↔
    (∀ h ∈ a.handlers, (h.normalize o).normalize o = h.normalize o) ∧
      (a.identities = [] → (a.normalize o).fidelity.incomplete = a.fidelity.incomplete) := by
  have hfound : (a.normalize o).foundProblems o = (a.normalize o).sourceProblems o kindText ++
      (a.normalize o).identityProblems ++ (a.normalize o).conflictProblems := rfl
  have hsame (n : Application) (handlers : List Handler) (problems : List Problem) :
      ({ n with handlers, problems } : Application) = n ↔
        handlers = n.handlers ∧ problems = n.problems :=
    ⟨fun heq ↦ ⟨congrArg Application.handlers heq, congrArg (fun n : Application ↦ n.problems) heq⟩,
      fun ⟨hh, hp⟩ ↦ by rw [hh, hp]⟩
  rw [normalize_normalize_eq, hsame]
  refine and_congr ?_ ?_
  · have hhandlers : (a.normalize o).handlers = a.handlers.map (Handler.normalize o) := rfl
    rw [hhandlers, List.map_map]
    exact List.map_inj_left
  · rw [problems_normalize, hfound, List.append_left_inj, List.append_right_inj]
    exact Entity.identityProblems_widen_iff rfl

end Application

namespace Component

variable {o : Options} {c : Component}

/-- An entity without identities is doubted late unless it comes out as incomplete as it was. -/
theorem not_doubtedLate_iff : ¬ c.DoubtedLate ↔
    (c.lacksIdentity → (c.normalize o).fidelity.incomplete = c.fidelity.incomplete) := by
  have hdoubt := incomplete_normalize (c := c) (o := o)
  constructor
  · intro hnot hlacks
    by_cases hmark : c.fidelity.incomplete
    · rw [hmark, hdoubt]
      exact ⟨c, .self c, hmark⟩
    · rw [Bool.not_eq_true] at hmark
      rw [hmark, ← Bool.not_eq_true, hdoubt]
      exact fun h ↦ hnot ⟨hlacks, hmark, h⟩
  · rintro hsame ⟨hlacks, hunmarked, h⟩
    rw [← hdoubt, hsame hlacks, hunmarked] at h
    exact absurd h (by decide)

/-- A second normalization changes nothing in a component if it changes none of its parts and the
component is not doubted late. -/
theorem normalize_normalize_iff_parts : (c.normalize o).normalize o = c.normalize o ↔
    ¬ c.DoubtedLate ∧ ∀ p ∈ c.parts, (p.normalize o).normalize o = p.normalize o := by
  have hidentity (i : Identity) :
      ((identity i).normalize o).normalize o = (identity i).normalize o :=
    congrArg identity i.normalize_normalize
  have hroute (r : Route) : ((route r).normalize o).normalize o = (route r).normalize o :=
    congrArg route (r.normalize_normalize o)
  have hflag (f : Flag) : ((flag f).normalize o).normalize o = (flag f).normalize o := rfl
  rw [not_doubtedLate_iff (o := o), and_comm]
  cases c with
  | application a =>
    have hparts : (∀ p ∈ (application a).parts, (p.normalize o).normalize o = p.normalize o) ↔
        ∀ h ∈ a.handlers, (h.normalize o).normalize o = h.normalize o := by
      simp only [parts, List.forall_mem_append, List.forall_mem_map, normalize, handler.injEq,
        Identity.normalize_normalize, implies_true, true_and]
    have hlacks : (application a).lacksIdentity ↔ a.identities = [] := List.isEmpty_iff
    rw [hparts, hlacks]
    simp only [normalize, application.injEq]
    exact Application.normalize_normalize_iff
  | handler h =>
    have hparts : ∀ p ∈ (handler h).parts, (p.normalize o).normalize o = p.normalize o := by
      simp only [parts, List.forall_mem_append, List.forall_mem_map]
      exact ⟨⟨fun i _ ↦ hidentity i, fun r _ ↦ hroute r⟩, fun f _ ↦ hflag f⟩
    have hlacks : (handler h).lacksIdentity ↔ h.identities = [] := List.isEmpty_iff
    rw [and_iff_right hparts, hlacks]
    simp only [normalize, handler.injEq]
    exact Handler.normalize_normalize_iff
  | identity i => simp [hidentity, parts, lacksIdentity]
  | route r => simp [hroute, parts, lacksIdentity]
  | flag f => simp [hflag, parts, lacksIdentity]

/-- Normalizing a component again changes nothing, in itself or in any of its parts, exactly if no
node is an entity without identities that is incomplete only through what is in it. -/
theorem normalize_normalize_eq_iff (o : Options) (c : Component) :
    (c.normalize o).normalize o = c.normalize o ↔ ∀ n, c.HasNode n → ¬ n.DoubtedLate := by
  induction c using induction_parts with
  | h c ih =>
    rw [normalize_normalize_iff_parts, forall_hasNode_iff]
    exact and_congr_right fun _ ↦ forall₂_congr ih

/-- A handler without identities and with a route of which nothing is known. -/
def unknownRoute : Component :=
  handler { kind := .projection, typeName := some "T", routes := [{ fidelity := .onlyIncomplete }] }

/-- The handler is found to have no identity, and the second time it is not. -/
theorem normalize_normalize_unknownRoute_ne :
    (unknownRoute.normalize .default).normalize .default ≠ unknownRoute.normalize .default := by
  decide

end Component
end Wiring.Config
