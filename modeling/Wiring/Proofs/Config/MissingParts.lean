import Wiring.Proofs.Config.Renormalization

/-!
# Missing parts

Whatever is missing from an incomplete component may be in the part of it that is not known. So it
is no problem there, but for the one case in which the doubt comes too late.
-/

namespace Wiring.Config

/-- The problem is that a required part is missing. -/
def Problem.saysMissing : Problem → Bool
  | missingIdentity | missingRequiredRoute _ => true
  | _ => false

variable {o : Options} {problem : Problem}

/-- Names and keys that are missing or malformed are no missing parts. -/
theorem Identity.saysMissing_eq_false {i : Identity} (h : problem ∈ i.normalize.problems) :
    problem.saysMissing = false := by
  have hmem : problem ∈ i.nameProblems ++ i.keyProblems := h
  unfold nameProblems keyProblems at hmem
  grind [Problem.saysMissing]

/-- What is wrong with a route is no missing part. -/
theorem Route.saysMissing_eq_false {r : Route} (h : problem ∈ (r.normalize o).problems) :
    problem.saysMissing = false := by
  have hmem : problem ∈ r.named.nameProblems ++ r.named.kindProblems ++
    r.named.availabilityProblems o := h
  unfold nameProblems kindProblems availabilityProblems at hmem
  grind [Problem.saysMissing]

theorem Entity.saysMissing_of_source {kind : String} {e : Entity}
    (h : problem ∈ e.sourceProblems o kind) : problem.saysMissing = false := by
  unfold sourceProblems at h
  grind [Problem.saysMissing]

/-- An entity is said to have no identity if that is so and it is not incomplete. -/
theorem Entity.missingIdentity_mem_iff {e : Entity} :
    .missingIdentity ∈ e.identityProblems ↔ e.identities = [] ∧ e.fidelity.incomplete = false := by
  unfold identityProblems
  rcases e.identities with _ | ⟨i, _ | ⟨j, l⟩⟩
  · cases e.fidelity.incomplete <;> simp
  · simp
  · simp

/-- Nothing else is said to be missing among the identities of an entity. -/
theorem Entity.missingRequiredRoute_notMem {e : Entity} (t : RouteType) :
    .missingRequiredRoute t ∉ e.identityProblems := by
  unfold identityProblems
  rcases e.identities with _ | ⟨i, _ | ⟨j, l⟩⟩
  · cases e.fidelity.incomplete <;> simp
  · simp
  · simp

theorem Handler.saysMissing_of_routes {kind : HandlerKind} {earlier : List RouteKey}
    {routes : List Route} (h : problem ∈ routeProblems kind earlier routes) :
    problem.saysMissing = false := by
  induction routes generalizing earlier with
  | nil => simp [routeProblems] at h
  | cons r rest ih =>
    unfold routeProblems at h
    grind [Problem.saysMissing]

theorem Application.saysMissing_of_conflict {a : Application}
    (h : problem ∈ a.conflictProblems) : problem.saysMissing = false := by
  unfold conflictProblems at h
  grind [Problem.saysMissing]

/-- Only the check for identities says that an application lacks something. -/
theorem Application.mem_problems_iff {a : Application} (hm : problem.saysMissing) :
    problem ∈ (a.normalize o).problems ↔
      problem ∈ (a.toEntity.normalize o kindText).identityProblems := by
  have hsource : problem ∉ (a.normalize o).sourceProblems o kindText := fun h ↦ by
    simp [Entity.saysMissing_of_source h] at hm
  have hconflict : problem ∉ (a.normalize o).conflictProblems := fun h ↦ by
    simp [saysMissing_of_conflict h] at hm
  rw [problems_normalize, List.mem_append, List.mem_append]
  simp only [hsource, hconflict, false_or, or_false]

/-- Only the checks for identities and for required routes say that a handler lacks something. -/
theorem Handler.mem_problems_iff {h : Handler} (hm : problem.saysMissing) :
    problem ∈ (h.normalize o).problems ↔
      problem ∈ (h.toEntity.normalize o h.kind.text).identityProblems ∨
        problem ∈ (h.normalize o).missingRouteProblems := by
  have hsource : problem ∉ (h.normalize o).sourceProblems o h.kind.text := fun h ↦ by
    simp [Entity.saysMissing_of_source h] at hm
  have hroutes : problem ∉ routeProblems h.kind [] (h.normalize o).routes := fun h ↦ by
    simp [saysMissing_of_routes h] at hm
  rw [problems_normalize, List.mem_append, List.mem_append, List.mem_append]
  simp only [hsource, hroutes, false_or, or_false]

/-- Whether an entity is said to have no identity is settled before it is normalized. -/
theorem Entity.missingIdentity_mem_normalize_iff {kind : String} {e : Entity} :
    .missingIdentity ∈ (e.normalize o kind).identityProblems ↔
      e.identities.isEmpty ∧ e.fidelity.incomplete = false := by
  rw [missingIdentity_mem_iff, identities_normalize_eq_nil, List.isEmpty_iff]
  exact and_congr_right fun h ↦ by rw [fidelity_normalize_of_nil h]

namespace Component

variable {c : Component}

/-- Nothing is said to be missing from a component that is no entity. -/
theorem saysMissing_eq_false (hc : ∀ a, c ≠ application a) (hc' : ∀ h, c ≠ handler h)
    (h : problem ∈ (c.normalize o).problems) : problem.saysMissing = false := by
  cases c with
  | application a => exact absurd rfl (hc a)
  | handler b => exact absurd rfl (hc' b)
  | identity i => exact Identity.saysMissing_eq_false h
  | route r => exact Route.saysMissing_eq_false h
  | flag f => exact absurd h List.not_mem_nil

/-- A normalized component is said to have no identity if it is an entity without identities that
does not say itself that it is incomplete. -/
theorem missingIdentity_mem_iff : .missingIdentity ∈ (c.normalize o).problems ↔
    c.lacksIdentity ∧ c.fidelity.incomplete = false := by
  have hother (hc : ∀ a, c ≠ application a) (hc' : ∀ h, c ≠ handler h) :
      .missingIdentity ∉ (c.normalize o).problems := fun h ↦ by
    simpa [Problem.saysMissing] using saysMissing_eq_false hc hc' h
  cases c with
  | application a =>
    exact (Application.mem_problems_iff rfl).trans Entity.missingIdentity_mem_normalize_iff
  | handler h =>
    have hroute : .missingIdentity ∉ (h.normalize o).missingRouteProblems := by
      unfold Handler.missingRouteProblems
      split <;> simp
    -- the check for identities is made of the entity as it stands before its parts are looked at
    have hproblems := (Handler.mem_problems_iff rfl).trans (or_iff_left hroute)
    exact hproblems.trans Entity.missingIdentity_mem_normalize_iff
  | identity | route | flag =>
    exact iff_of_false (hother (by simp) (by simp)) (by simp [lacksIdentity])

/-- No incomplete component is said to lack a route. -/
theorem missingRequiredRoute_notMem (t : RouteType) (h : (c.normalize o).fidelity.incomplete) :
    .missingRequiredRoute t ∉ (c.normalize o).problems := by
  intro hmem
  cases c with
  | application a =>
    exact Entity.missingRequiredRoute_notMem t ((Application.mem_problems_iff rfl).mp hmem)
  | handler a =>
    have hinc : (a.normalize o).fidelity.incomplete := h
    have hnone : (a.normalize o).missingRouteProblems = [] := if_pos hinc
    rcases (Handler.mem_problems_iff rfl).mp hmem with hmem | hmem
    · exact Entity.missingRequiredRoute_notMem t hmem
    · simp [hnone] at hmem
  | identity | route | flag =>
    simpa [Problem.saysMissing] using saysMissing_eq_false (by simp) (by simp) hmem

/-- An incomplete component is said to have no identity exactly if it is doubted late. -/
theorem doubtedLate_iff_missingIdentity_mem : c.DoubtedLate ↔
    (c.normalize o).fidelity.incomplete ∧ .missingIdentity ∈ (c.normalize o).problems := by
  rw [missingIdentity_mem_iff, incomplete_normalize]
  exact ⟨fun h ↦ ⟨h.doubt, h.lacks, h.unmarked⟩, fun h ↦ ⟨h.2.1, h.2.2, h.1⟩⟩

/-- No node of a normalized tree is both incomplete and said to lack a required route; and none is
both incomplete and said to have no identity, exactly if no node of the tree was an entity without
identities that is incomplete only through what is in it. -/
theorem missing_notMem_normalize_iff (o : Options) (c : Component) :
    (∀ n, (c.normalize o).HasNode n → n.fidelity.incomplete →
      ∀ t, .missingRequiredRoute t ∉ n.problems) ∧
    ((∀ n, (c.normalize o).HasNode n → n.fidelity.incomplete → .missingIdentity ∉ n.problems) ↔
      ∀ n, c.HasNode n → ¬ n.DoubtedLate) := by
  constructor
  · intro n hn hinc t
    obtain ⟨m, -, rfl⟩ := hasNode_normalize.mp hn
    exact missingRequiredRoute_notMem t hinc
  · constructor
    · intro h m hm hlate
      obtain ⟨hinc, hmem⟩ := (doubtedLate_iff_missingIdentity_mem (o := o)).mp hlate
      exact h _ (hasNode_normalize.mpr ⟨m, hm, rfl⟩) hinc hmem
    · intro h n hn hinc hmem
      obtain ⟨m, hm, rfl⟩ := hasNode_normalize.mp hn
      exact h m hm (doubtedLate_iff_missingIdentity_mem.mpr ⟨hinc, hmem⟩)

/-- The handler with a route of which nothing is known is incomplete, and said to have no
identity. -/
theorem missingIdentity_mem_unknownRoute :
    ¬ ∀ n, (unknownRoute.normalize .default).HasNode n → n.fidelity.incomplete →
      .missingIdentity ∉ n.problems :=
  fun h ↦ h _ (.self _) (by decide) (by decide)

end Component
end Wiring.Config
