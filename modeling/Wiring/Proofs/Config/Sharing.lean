import Wiring.Proofs.Config.Validity

/-!
# What entities share

A conflict is found of an element exactly if entities at different places of an application claim
it, and it names those entities in the order of their places. How often an entity claims the element
makes no difference, and neither does it whether the entities can be told apart by what they are
called.
-/

namespace Wiring.Config

/-- The reports tell what is claimed at more than one of the places with the descriptors: each such
element once, in ascending order, with the descriptors of the places where it is claimed. -/
structure TellsShared {κ : Type} [LT κ] (claims : Nat → κ → Prop) (descriptors : List String)
    (reports : List (κ × List String)) : Prop where
  ascending : (reports.map Prod.fst).Pairwise (· < ·)
  shared : ∀ k, k ∈ reports.map Prod.fst ↔ ∃ i j, i < j ∧ claims i k ∧ claims j k
  /-- The places come in order, and each of them once. -/
  described : ∀ k owners, (k, owners) ∈ reports → ∃ places : List Nat, places.Pairwise (· < ·) ∧
    (∀ i, i ∈ places ↔ claims i k) ∧ owners.map some = places.map fun i ↦ descriptors[i]?

theorem TellsShared.congr {κ : Type} [LT κ] {claims claims' : Nat → κ → Prop}
    {descriptors : List String} {reports : List (κ × List String)}
    (h : TellsShared claims descriptors reports) (hclaims : ∀ i k, claims i k ↔ claims' i k) :
    TellsShared claims' descriptors reports := by
  have heq : claims = claims' := funext₂ fun i k ↦ propext (hclaims i k)
  rwa [← heq]

/-- An element is claimed at a place exactly if a part of what is there gives it. -/
theorem claimed_filterMap_iff {α β κ : Type} {parts : α → List β} {f : β → Option κ} {l : List α}
    {i : Nat} {k : κ} : (∃ es, (l.map fun a ↦ (parts a).filterMap f)[i]? = some es ∧ k ∈ es) ↔
      ∃ a, l[i]? = some a ∧ ∃ b ∈ parts a, f b = some k := by
  simp [List.mem_filterMap]

section Claims

variable {α κ : Type} [DecidableEq κ] {elements : α → List κ} {owners : List α} {k : κ}

/-- The places of the owners that claim an element. -/
def claimedPlaces (elements : α → List κ) (owners : List α) (k : κ) : List Nat :=
  (owners.zipIdx.filter fun p ↦ (elements p.1).contains k).map Prod.snd

theorem pairwise_claimedPlaces : (claimedPlaces elements owners k).Pairwise (· < ·) := by
  have hall : (owners.zipIdx.map Prod.snd).Pairwise (· < ·) := by
    rw [List.zipIdx_map_snd]
    exact List.pairwise_lt_range' _
  unfold claimedPlaces
  rw [List.pairwise_map] at hall ⊢
  exact hall.filter _

theorem mem_claimedPlaces_iff {i : Nat} : i ∈ claimedPlaces elements owners k ↔
    ∃ l, (owners.map elements)[i]? = some l ∧ k ∈ l := by
  simp only [claimedPlaces, List.mem_map, List.mem_filter, List.contains_iff_mem, Prod.exists,
    List.mk_mem_zipIdx_iff_getElem?, List.getElem?_map, Option.map_eq_some_iff]
  constructor
  · rintro ⟨a, j, ⟨ha, hk⟩, rfl⟩
    exact ⟨elements a, ⟨a, ha, rfl⟩, hk⟩
  · rintro ⟨l, ⟨a, ha, rfl⟩, hk⟩
    exact ⟨a, i, ⟨ha, hk⟩, rfl⟩

/-- Claimants are the owners at the places where the element is claimed. -/
theorem map_claimants_eq {β : Type} (f : α → β) : ((claimants elements owners k).map f).map some =
    (claimedPlaces elements owners k).map fun i ↦ (owners.map f)[i]? := by
  have hclaimants : claimants elements owners k =
      (owners.zipIdx.filter fun p ↦ (elements p.1).contains k).map Prod.fst := by
    conv_lhs => rw [claimants, ← List.zipIdx_map_fst 0 owners]
    exact List.filter_map
  rw [hclaimants, claimedPlaces, List.map_map, List.map_map, List.map_map]
  apply List.map_congr_left
  intro p hp
  have hplace : owners[p.2]? = some p.1 :=
    List.mk_mem_zipIdx_iff_getElem?.mp (List.mem_of_mem_filter hp)
  simp [hplace]

/-- There are several claimants exactly if the element is claimed at different places. -/
theorem one_lt_length_claimants_iff : 1 < (claimants elements owners k).length ↔
    ∃ i j : Nat, i < j ∧ (∃ l, (owners.map elements)[i]? = some l ∧ k ∈ l) ∧
      ∃ l, (owners.map elements)[j]? = some l ∧ k ∈ l := by
  rw [← Nat.not_le, claimants, length_filter_le_one_iff, List.pairwise_iff_getElem]
  simp only [List.contains_iff_mem, List.getElem?_map, Option.map_eq_some_iff,
    List.getElem?_eq_some_iff]
  grind

variable [Keyed κ κ] [KeyOrder κ] [DecidableLT κ] (hkey : ∀ k : κ, Keyed.key k = k)
include hkey

/-- Conflicts tell what owners at different places share. -/
theorem tellsShared_conflicts (f : α → String) :
    TellsShared (fun i k ↦ ∃ l, (owners.map elements)[i]? = some l ∧ k ∈ l) (owners.map f)
      ((conflicts elements owners).map fun c ↦ (c.1, c.2.map f)) where
  ascending := by
    rw [List.map_map, List.pairwise_map]
    exact pairwise_conflicts hkey
  shared k := by
    rw [← one_lt_length_claimants_iff]
    simp only [List.map_map, List.mem_map, mem_conflicts_iff hkey, Function.comp_apply]
    constructor
    · rintro ⟨c, ⟨hlength, -⟩, rfl⟩
      exact hlength
    · intro hlength
      exact ⟨(k, claimants elements owners k), ⟨hlength, rfl⟩, rfl⟩
  described k names hnames := by
    obtain ⟨c, hc, heq⟩ := List.mem_map.mp hnames
    obtain ⟨rfl, rfl⟩ := Prod.mk.inj heq
    rw [((mem_conflicts_iff hkey).mp hc).2]
    exact ⟨_, pairwise_claimedPlaces, fun _ ↦ mem_claimedPlaces_iff, map_claimants_eq f⟩

end Claims

/-- The problem is something that entities share. -/
def Problem.isConflict : Problem → Bool
  | identityKeyConflict _ _ | identityNameConflict _ _ | conflictingRoute _ _ => true
  | _ => false

namespace Application

/-- The entity at the place has an identity of the canonical key. The application is at the first
place, before its handlers. -/
def HasKeyAt (a : Application) (i : Nat) (key : String) : Prop :=
  ∃ e, a.entities[i]? = some e ∧ ∃ x ∈ e.identities, x.canonicalKey = some key

/-- The handler at the place has an identity of the name. -/
def HasNameAt (a : Application) (i : Nat) (name : String) : Prop :=
  ∃ h, a.handlers[i]? = some h ∧ ∃ x ∈ h.identities, x.name = some name

/-- The handler at the place handles the command or records the event. A route without a name is
named for its message type. -/
def HasExclusiveRouteAt (a : Application) (i : Nat) (about : RouteKey) : Prop :=
  (about.routeType = .handlesCommand ∨ about.routeType = .recordsEvent) ∧
    ∃ h, a.handlers[i]? = some h ∧ ∃ r ∈ h.routes, r.routeType = some about.routeType ∧
      r.named.messageTypeName = some about.messageTypeName

variable {o : Options} {a : Application}

/-- The entities of a normalized application have the canonical keys that they had. -/
theorem keys_normalize_iff (i : Nat) (key : String) :
    (∃ l, (((a.normalize o).member :: (a.normalize o).handlers.map Handler.member).map
      Member.keys)[i]? = some l ∧ key ∈ l) ↔ a.HasKeyAt i key := by
  rw [map_keys_normalize]
  exact claimed_filterMap_iff

/-- The handlers of a normalized application have the names that they had. -/
theorem names_normalize_iff (i : Nat) (name : String) :
    (∃ l, (((a.normalize o).handlers.map Handler.member).map Member.names)[i]? = some l ∧
      name ∈ l) ↔ a.HasNameAt i name := by
  rw [map_names_normalize]
  exact claimed_filterMap_iff

/-- The handlers of a normalized application have the exclusive routes that they had. -/
theorem exclusiveRoutes_normalize_iff (i : Nat) (about : RouteKey) :
    (∃ l, (((a.normalize o).handlers.map Handler.member).map Member.exclusiveRoutes)[i]? = some l ∧
      about ∈ l) ↔ a.HasExclusiveRouteAt i about := by
  have hroutes : ((a.normalize o).handlers.map Handler.member).map Member.exclusiveRoutes =
      a.handlers.map fun h ↦ h.routes.filterMap fun r ↦
        r.named.key.filter fun about ↦ about.routeType.isExclusive := by
    have hhandlers : (a.normalize o).handlers = a.handlers.map (Handler.normalize o) := rfl
    rw [hhandlers, List.map_map, List.map_map]
    apply List.map_congr_left
    intro h _
    have hkeys : (h.normalize o).routes.filterMap Route.key =
        h.routes.filterMap fun r ↦ r.named.key := List.filterMap_map
    rw [← List.filter_filterMap, ← hkeys]
    rfl
  have hexclusive : about.routeType.isExclusive ↔
      about.routeType = .handlesCommand ∨ about.routeType = .recordsEvent := by
    cases about.routeType <;> simp [RouteType.isExclusive]
  rw [hroutes, claimed_filterMap_iff, HasExclusiveRouteAt, ← hexclusive]
  simp only [Option.filter_eq_some_iff, Route.key_eq_some_iff]
  constructor
  · rintro ⟨h, hh, r, hr, habout, he⟩
    exact ⟨he, h, hh, r, hr, habout⟩
  · rintro ⟨he, h, hh, r, hr, habout⟩
    exact ⟨h, hh, r, hr, habout, he⟩

/-- Of the problems of a normalized application, conflicts come last: first those between the keys
of its entities, then those between the names and between the exclusive routes of its handlers. Of
each kind, they are exactly what is shared. -/
theorem sharing_normalize (o : Options) (a : Application) :
    let n := a.normalize o
    let descriptors := n.handlers.map Handler.descriptor
    ∃ (own : List Problem) (keys names : List (String × List String))
      (routes : List (RouteKey × List String)),
      n.problems = own ++ (keys.map (fun c ↦ .identityKeyConflict c.1 c.2) ++
        names.map (fun c ↦ .identityNameConflict c.1 c.2) ++
          routes.map (fun c ↦ .conflictingRoute c.1 c.2)) ∧
      (∀ p ∈ own, p.isConflict = false) ∧
      TellsShared a.HasKeyAt (n.descriptor :: descriptors) keys ∧
      TellsShared a.HasNameAt descriptors names ∧
      TellsShared a.HasExclusiveRouteAt descriptors routes := by
  intro n descriptors
  have hdescriptors : (n.handlers.map Handler.member).map Member.descriptor = descriptors :=
    List.map_map
  rw [← hdescriptors]
  have hkeys := (tellsShared_conflicts (fun _ ↦ rfl) Member.descriptor).congr
    (keys_normalize_iff (o := o) (a := a))
  have hnames := (tellsShared_conflicts (fun _ ↦ rfl) Member.descriptor).congr
    (names_normalize_iff (o := o) (a := a))
  have hroutes := (tellsShared_conflicts (fun _ ↦ rfl) Member.descriptor).congr
    (exclusiveRoutes_normalize_iff (o := o) (a := a))
  refine ⟨(a.toEntity.normalize o kindText).problems, _, _, _, ?_,
    Entity.forall_mem_problems_normalize (fun _ _ ↦ rfl) (fun _ ↦ rfl) rfl fun _ ↦ rfl,
    hkeys, hnames, hroutes⟩
  have hproblems : n.problems =
      (a.toEntity.normalize o kindText).problems ++ n.conflictProblems := rfl
  rw [hproblems, conflictProblems_eq]
  simp only [List.map_map]
  rfl

end Application
end Wiring.Config
