import Mathlib.Data.List.Nodup
import Wiring.Config.Application
import Wiring.Proofs.Catalogue

/-!
# Absence of conflicts

Owners have no conflict exactly if no two of them claim one element, and the routes of a handler are
found in order exactly if each is allowed and no two are about the same.
-/

namespace Wiring.Config

namespace Member

/-- The canonical keys of the member's identities. -/
def keys (m : Member) : List String := m.identities.filterMap Identity.canonicalKey

/-- The names of the member's identities. -/
def names (m : Member) : List String := m.identities.filterMap Identity.name

/-- What the member's exclusive routes are about. -/
def exclusiveRoutes (m : Member) : List RouteKey :=
  (m.routes.filterMap Route.key).filter fun about ↦ about.routeType.isExclusive

end Member

section

variable {α κ : Type} [Keyed κ κ] [KeyOrder κ] [DecidableLT κ] [DecidableEq κ]

/-- The distinct elements that the owners claim, in ascending order. -/
def claimedElements (elements : α → List κ) (owners : List α) : List κ :=
  (Catalogue.ofList (owners.flatMap elements)).toList

/-- The owners that claim an element, in their order. -/
def claimants (elements : α → List κ) (owners : List α) (k : κ) : List α :=
  owners.filter fun a ↦ (elements a).contains k

/-- The elements that at least two owners claim, each with these owners. -/
def conflicts (elements : α → List κ) (owners : List α) : List (κ × List α) :=
  (claimedElements elements owners).filterMap fun k ↦
    let sharers := claimants elements owners k
    if 1 < sharers.length then some (k, sharers) else none

end

theorem length_filter_le_one_iff {α : Type} {p : α → Bool} {l : List α} :
    (l.filter p).length ≤ 1 ↔ l.Pairwise fun a b ↦ p a → ¬ p b := by
  have hlength (l : List α) : l.length ≤ 1 ↔ l.Pairwise fun _ _ ↦ False := by
    rcases l with _ | ⟨a, _ | ⟨b, l⟩⟩
    · simp
    · simp
    · exact iff_of_false (by simp) fun h ↦ List.rel_of_pairwise_cons h (List.mem_cons_self ..)
  rw [hlength, List.pairwise_filter]

section Conflicts

variable {α κ : Type} [Keyed κ κ] [KeyOrder κ] [DecidableLT κ] [DecidableEq κ]
  {elements : α → List κ} {owners : List α}

/-- There is no conflict if no element has two claimants. -/
theorem conflicts_eq_nil_iff_claimants (hkey : ∀ a b : κ, Keyed.key a = Keyed.key b → a = b) :
    conflicts elements owners = [] ↔ ∀ k, (claimants elements owners k).length ≤ 1 := by
  have hclaimed (k : κ) :
      k ∈ claimedElements elements owners ↔ ∃ a ∈ owners, k ∈ elements a := by
    rw [claimedElements, Catalogue.mem_ofList_iff hkey, List.mem_flatMap]
  simp only [conflicts, List.filterMap_eq_nil_iff, ite_eq_right_iff, reduceCtorEq, imp_false,
    Nat.not_lt]
  refine ⟨fun h k ↦ ?_, fun h k _ ↦ h k⟩
  by_cases hk : k ∈ claimedElements elements owners
  · exact h k hk
  · -- what no owner claims has no claimants
    have hnone : claimants elements owners k = [] := by
      refine List.filter_eq_nil_iff.mpr fun a ha hka ↦ hk ((hclaimed k).mpr ⟨a, ha, ?_⟩)
      simpa using hka
    simp [hnone]

/-- There is no conflict exactly if no two owners claim one element. -/
theorem conflicts_eq_nil_iff (hkey : ∀ a b : κ, Keyed.key a = Keyed.key b → a = b) :
    conflicts elements owners = [] ↔ (owners.map elements).Pairwise List.Disjoint := by
  rw [conflicts_eq_nil_iff_claimants hkey, List.pairwise_map]
  simp only [claimants, length_filter_le_one_iff, List.contains_iff_mem, List.pairwise_iff_getElem]
  exact ⟨fun h i j hi hj hij k hki hkj ↦ h k i j hi hj hij hki hkj,
    fun h k i j hi hj hij hki hkj ↦ h i j hi hj hij hki hkj⟩

section Told

variable (hkey : ∀ k : κ, Keyed.key k = k)
include hkey

/-- Conflicts are the elements with several claimants, and come with them. -/
theorem mem_conflicts_iff {c : κ × List α} : c ∈ conflicts elements owners ↔
    1 < (claimants elements owners c.1).length ∧ c.2 = claimants elements owners c.1 := by
  have hinj (a b : κ) (h : Keyed.key a = Keyed.key b) : a = b := by rwa [hkey, hkey] at h
  obtain ⟨k, sharers⟩ := c
  simp only [conflicts, List.mem_filterMap, claimedElements, Catalogue.mem_ofList_iff hinj,
    Option.ite_none_right_eq_some, Option.some.injEq, Prod.mk.injEq]
  constructor
  · rintro ⟨_, -, hlength, rfl, rfl⟩
    exact ⟨hlength, rfl⟩
  · rintro ⟨hlength, rfl⟩
    refine ⟨k, ?_, hlength, rfl, rfl⟩
    obtain ⟨a, ha⟩ := List.exists_mem_of_length_pos (Nat.zero_lt_of_lt hlength)
    obtain ⟨ha, hk⟩ := List.mem_filter.mp ha
    exact List.mem_flatMap.mpr ⟨a, ha, List.contains_iff_mem.mp hk⟩

theorem pairwise_conflicts : (conflicts elements owners).Pairwise fun c d ↦ c.1 < d.1 := by
  unfold conflicts
  rw [List.pairwise_filterMap]
  apply (Catalogue.ofList (owners.flatMap elements)).ascending.imp
  intro k k' hlt c hc d hd
  simp only [Option.ite_none_right_eq_some, Option.some.injEq] at hc hd
  rwa [← hc.2, ← hd.2, ← hkey k, ← hkey k']

end Told
end Conflicts

/-- Lists have nothing in common if no member of the one gives what a member of the other does. -/
theorem disjoint_filterMap_iff {α κ : Type} {f : α → Option κ} {l l' : List α} :
    (l.filterMap f).Disjoint (l'.filterMap f) ↔
      ∀ a ∈ l, ∀ b ∈ l', ∀ k, f a = some k → f b ≠ some k := by
  simp only [List.Disjoint, List.mem_filterMap]
  constructor
  · exact fun h a ha b hb k hak hbk ↦ h ⟨a, ha, hak⟩ ⟨b, hb, hbk⟩
  · rintro h k ⟨a, ha, hak⟩ ⟨b, hb, hbk⟩
    exact h a ha b hb k hak hbk

/-- A route is about its route type and its message type name, if it has both. -/
theorem Route.key_eq_some_iff {r : Route} {about : RouteKey} : r.key = some about ↔
    r.routeType = some about.routeType ∧ r.messageTypeName = some about.messageTypeName := by
  obtain ⟨t, name⟩ := about
  unfold key
  cases r.routeType <;> cases r.messageTypeName <;> simp

/-- Nothing is wrong with the next route exactly if the kind allows it and no earlier one is about
the same, and then it counts among the earlier ones. -/
theorem Handler.routeProblems_cons_eq_nil_iff {kind : HandlerKind} {earlier : List RouteKey}
    {r : Route} {rest : List Route} (hearlier : earlier.Nodup) :
    routeProblems kind earlier (r :: rest) = [] ↔
      ((∀ t, r.routeType = some t → kind.capability t ≠ .disallowed) ∧
        (earlier ++ r.key.toList).Nodup) ∧
      routeProblems kind (earlier ++ r.key.toList) rest = [] := by
  rw [routeProblems, List.append_eq_nil_iff, List.append_eq_nil_iff]
  refine and_congr_left' (and_congr ?_ ?_)
  · cases r.routeType <;> simp
  · cases r.key with
    | none => simpa using hearlier
    | some about =>
      have hcount : earlier.count about = 1 ↔ about ∈ earlier :=
        ⟨fun h ↦ List.count_pos_iff.mp (by omega), List.count_eq_one_of_mem hearlier⟩
      rw [Option.toList_some, ← List.concat_eq_append, List.nodup_concat]
      simp [hcount, hearlier]

/-- Nothing is wrong with single routes exactly if the kind allows each of them and no two are about
the same. -/
theorem Handler.routeProblems_eq_nil_iff {kind : HandlerKind} {earlier : List RouteKey}
    {routes : List Route} (hearlier : earlier.Nodup) : routeProblems kind earlier routes = [] ↔
      (∀ r ∈ routes, ∀ t, r.routeType = some t → kind.capability t ≠ .disallowed) ∧
        (earlier ++ routes.filterMap Route.key).Nodup := by
  induction routes generalizing earlier with
  | nil => simp [routeProblems, hearlier]
  | cons r rest ih =>
    have hkeys : earlier ++ (r :: rest).filterMap Route.key =
        earlier ++ r.key.toList ++ rest.filterMap Route.key := by
      cases h : r.key <;> simp [h]
    rw [routeProblems_cons_eq_nil_iff hearlier, hkeys, List.forall_mem_cons]
    constructor
    · rintro ⟨⟨hr, hnodup⟩, hrest⟩
      obtain ⟨hall, hdistinct⟩ := (ih hnodup).mp hrest
      exact ⟨⟨hr, hall⟩, hdistinct⟩
    · rintro ⟨⟨hr, hall⟩, hdistinct⟩
      have hnodup := (List.nodup_append.mp hdistinct).1
      exact ⟨⟨hr, hnodup⟩, (ih hnodup).mpr ⟨hall, hdistinct⟩⟩

end Wiring.Config
