import Mathlib.Data.List.Perm.Basic
import Wiring.Proofs.Config.Conflicts

/-!
# Recording owners

What is in conflict once owners have been recorded one after another: the elements that several of
them claim. However often the parts of an owner give an element, the owner stands under it once, and
owners stand in the order of their places.
-/

namespace Wiring.Config

namespace Claims

variable {α β κ : Type} [KeyOrder κ] [DecidableLT κ] [DecidableEq κ] {c : Claims κ} {k : κ}
  {place first : Nat} {called : String} {parts : α → List β} {element : β → Option κ}
  {descriptor : α → String}

theorem owners_file (claim : Claim κ) : owners (c.file claim) k =
    if claim.element = k then claim.owners else owners c k := by
  rw [owners, Catalogue.find?_file]
  change ((if claim.element = k then _ else _ : Option (Claim κ)).map _).getD _ = _
  split <;> rfl

/-- Adding an owner to an element leaves all other elements as they were, and the element too if the
place is there already. -/
theorem owners_add (j : κ) : owners (add c place called j) k =
    if k = j ∧ place ∉ (owners c k).map Prod.fst then owners c k ++ [(place, called)]
    else owners c k := by
  unfold add
  by_cases hrecorded : (owners c j).any fun o ↦ o.1 == place
  · have hmem : place ∈ (owners c j).map Prod.fst := by simpa using hrecorded
    rw [if_pos hrecorded, if_neg]
    rintro ⟨rfl, hnot⟩
    exact hnot hmem
  · have hnot : place ∉ (owners c j).map Prod.fst := by simpa using hrecorded
    rw [if_neg hrecorded, owners_file]
    by_cases hk : j = k
    · subst hk
      rw [if_pos rfl, if_pos ⟨rfl, hnot⟩]
    · rw [if_neg hk, if_neg fun h ↦ hk h.1.symm]

theorem record_cons_none {part : β} {l : List β} (h : element part = none) :
    record element c place called (part :: l) = record element c place called l := by
  unfold record
  rw [List.foldl_cons, h]

theorem record_cons_some {part : β} {l : List β} {j : κ} (h : element part = some j) :
    record element c place called (part :: l) =
      record element (add c place called j) place called l := by
  unfold record
  rw [List.foldl_cons, h]

/-- Recording an owner puts it last under each element that its parts give, unless its place is there
already. -/
theorem owners_record (l : List β) : owners (record element c place called l) k =
    if k ∈ l.filterMap element ∧ place ∉ (owners c k).map Prod.fst then
      owners c k ++ [(place, called)]
    else owners c k := by
  induction l generalizing c with
  | nil => simp [record]
  | cons part l ih =>
    cases hpart : element part with
    | none => rw [record_cons_none hpart, ih, List.filterMap_cons_none hpart]
    | some j =>
      -- once an element has come, the place is there, and nothing more is added to the element
      rw [record_cons_some hpart, ih, List.filterMap_cons_some hpart, owners_add]
      by_cases hk : k = j <;> by_cases hplace : place ∈ (owners c k).map Prod.fst <;>
        simp_all

/-- The places and descriptors of the owners of an element, where owners are recorded at places
from a first one on. -/
def standing (parts : α → List β) (element : β → Option κ) (descriptor : α → String) (first : Nat)
    (l : List α) (k : κ) : List (Nat × String) :=
  ((l.zipIdx first).filter fun o ↦ ((parts o.1).filterMap element).contains k).map
    fun o ↦ (o.2, descriptor o.1)

omit [KeyOrder κ] [DecidableLT κ] in
theorem standing_cons (a : α) (l : List α) : standing parts element descriptor first (a :: l) k =
    (if k ∈ (parts a).filterMap element then [(first, descriptor a)] else []) ++
      standing parts element descriptor (first + 1) l k := by
  unfold standing
  rw [List.zipIdx_cons, List.filter_cons]
  by_cases hk : k ∈ (parts a).filterMap element
  · rw [if_pos hk, if_pos (List.contains_iff_mem.mpr hk)]
    rfl
  · rw [if_neg hk, if_neg fun h ↦ hk (List.contains_iff_mem.mp h)]
    rfl

/-- Owners that are recorded one after another, at places that are new, stand under the elements that
their parts give. -/
theorem owners_foldl_record (l : List α) (hnew : ∀ o ∈ owners c k, o.1 < first) :
    owners ((l.zipIdx first).foldl
        (fun c o ↦ record element c o.2 (descriptor o.1) (parts o.1)) c) k =
      owners c k ++ standing parts element descriptor first l k := by
  induction l generalizing c first with
  | nil => simp [standing]
  | cons a l ih =>
    have hplace : first ∉ (owners c k).map Prod.fst := by
      intro hmem
      obtain ⟨o, ho, heq⟩ := List.mem_map.mp hmem
      exact Nat.lt_irrefl _ (heq ▸ hnew o ho)
    have hrecord : owners (record element c first (descriptor a) (parts a)) k =
        owners c k ++ if k ∈ (parts a).filterMap element then [(first, descriptor a)] else [] := by
      rw [owners_record]
      by_cases hk : k ∈ (parts a).filterMap element
      · rw [if_pos ⟨hk, hplace⟩, if_pos hk]
      · rw [if_neg fun h ↦ hk h.1, if_neg hk, List.append_nil]
    rw [List.zipIdx_cons, List.foldl_cons, ih, hrecord, standing_cons, List.append_assoc]
    -- the next place is new to the element, whether or not this one has come under it
    intro o ho
    rw [hrecord] at ho
    rcases List.mem_append.mp ho with ho | ho
    · exact Nat.lt_succ_of_lt (hnew o ho)
    · split at ho
      · rw [List.mem_singleton.mp ho]
        exact Nat.lt_succ_self first
      · simp at ho

theorem owners_ofOwners (l : List α) : owners (ofOwners parts element descriptor first l) k =
    standing parts element descriptor first l k :=
  owners_foldl_record l (by simp [owners, Catalogue.find?])

omit [KeyOrder κ] [DecidableLT κ] in
/-- Whoever stands under an element is called what the claimants of the element are. -/
theorem map_snd_standing (l : List α) : (standing parts element descriptor first l k).map Prod.snd =
    (claimants (fun a ↦ (parts a).filterMap element) l k).map descriptor := by
  have hclaimants : claimants (fun a ↦ (parts a).filterMap element) l k =
      ((l.zipIdx first).filter fun o ↦ ((parts o.1).filterMap element).contains k).map Prod.fst := by
    conv_lhs => rw [claimants, ← List.zipIdx_map_fst first l]
    exact List.filter_map
  rw [standing, hclaimants, List.map_map, List.map_map]
  rfl

section Order

variable (hirrefl : ∀ k : κ, ¬ k < k)
include hirrefl

omit [DecidableLT κ] in
/-- What is in conflict are the elements with several owners. -/
theorem mem_conflicts_iff {e : κ × List String} : e ∈ conflicts c ↔
    1 < (owners c e.1).length ∧ e.2 = (owners c e.1).map Prod.snd := by
  obtain ⟨k, names⟩ := e
  have howners {claim : Claim κ} (h : claim ∈ c.toList) :
      owners c claim.element = claim.owners := by
    have hfind : c.find? claim.element = some claim :=
      (Catalogue.find?_eq_some_iff hirrefl).mpr ⟨h, rfl⟩
    rw [owners, hfind]
    rfl
  simp only [conflicts, List.mem_filterMap, Option.ite_none_right_eq_some, Option.some.injEq,
    Prod.mk.injEq]
  constructor
  · rintro ⟨claim, hmem, hlength, rfl, rfl⟩
    rw [howners hmem]
    exact ⟨hlength, rfl⟩
  · rintro ⟨hlength, rfl⟩
    cases hfind : c.find? k with
    | none => simp [owners, hfind] at hlength
    | some claim =>
      obtain ⟨hmem, rfl⟩ := (Catalogue.find?_eq_some_iff hirrefl).mp hfind
      exact ⟨claim, hmem, howners hmem ▸ hlength, rfl, congrArg _ (howners hmem).symm⟩

omit [DecidableLT κ] [DecidableEq κ] hirrefl in
theorem pairwise_conflicts : (conflicts c).Pairwise fun d e ↦ d.1 < e.1 := by
  unfold conflicts
  rw [List.pairwise_filterMap]
  apply c.ascending.imp
  intro claim claim' hlt d hd e he
  simp only [Option.ite_none_right_eq_some, Option.some.injEq] at hd he
  rwa [← hd.2, ← he.2]

variable [Keyed κ κ] (hkey : ∀ k : κ, Keyed.key k = k)
include hkey

/-- Recording owners finds the elements that at least two of them claim. -/
theorem conflicts_ofOwners (l : List α) : conflicts (ofOwners parts element descriptor first l) =
    (Config.conflicts (fun a ↦ (parts a).filterMap element) l).map
      fun c ↦ (c.1, c.2.map descriptor) := by
  have hpairwise : ((Config.conflicts (fun a ↦ (parts a).filterMap element) l).map
      fun c ↦ (c.1, c.2.map descriptor)).Pairwise fun d e ↦ d.1 < e.1 := by
    rw [List.pairwise_map]
    exact Config.pairwise_conflicts hkey
  have hmem (e : κ × List String) : e ∈ conflicts (ofOwners parts element descriptor first l) ↔
      e ∈ (Config.conflicts (fun a ↦ (parts a).filterMap element) l).map
        fun c ↦ (c.1, c.2.map descriptor) := by
    rw [mem_conflicts_iff hirrefl, owners_ofOwners, map_snd_standing,
      ← List.length_map Prod.snd, map_snd_standing, List.length_map]
    simp only [List.mem_map, Config.mem_conflicts_iff hkey]
    constructor
    · rintro ⟨hlength, hnames⟩
      exact ⟨(e.1, _), ⟨hlength, rfl⟩, Prod.ext rfl hnames.symm⟩
    · rintro ⟨d, ⟨hlength, hsharers⟩, rfl⟩
      exact ⟨hlength, congrArg _ hsharers⟩
  have hne {d e : κ × List String} (hlt : d.1 < e.1) : d ≠ e := fun h ↦ hirrefl _ (h ▸ hlt)
  have hperm := (List.perm_ext_iff_of_nodup (pairwise_conflicts.imp hne) (hpairwise.imp hne)).mpr hmem
  exact hperm.eq_of_pairwise (fun d e _ _ hde hed ↦ (hirrefl _ (KeyOrder.trans hde hed)).elim)
    pairwise_conflicts hpairwise

end Order

/-- Owners that are changed in nothing that is looked at are recorded alike. -/
theorem ofOwners_map {f : α → α} {g : β → β} (hparts : ∀ a, parts (f a) = (parts a).map g)
    (helement : ∀ b, element (g b) = element b) (hdescriptor : ∀ a, descriptor (f a) = descriptor a)
    (l : List α) : ofOwners parts element descriptor first (l.map f) =
      ofOwners parts element descriptor first l := by
  have hrecord (c : Claims κ) (place : Nat) (called : String) (l : List β) :
      record element c place called (l.map g) = record element c place called l := by
    simp only [record, List.foldl_map, helement]
  simp only [ofOwners, List.zipIdx_map, List.foldl_map, Prod.map_fst, Prod.map_snd, hparts,
    hdescriptor, hrecord, id_eq]

end Claims

/-- The conflicts of an application are what its entities share: keys among all of them, names and
exclusive routes among the handlers. -/
theorem Application.conflictProblems_eq (a : Application) :
    let handlers := a.handlers.map Handler.member
    a.conflictProblems =
      (conflicts Member.keys (a.member :: handlers)).map
          (fun c ↦ .identityKeyConflict c.1 (c.2.map Member.descriptor)) ++
        (conflicts Member.names handlers).map
          (fun c ↦ .identityNameConflict c.1 (c.2.map Member.descriptor)) ++
        (conflicts Member.exclusiveRoutes handlers).map
          (fun c ↦ .conflictingRoute c.1 (c.2.map Member.descriptor)) := by
  intro handlers
  have hroutes (m : Member) : m.routes.filterMap Route.exclusiveKey = m.exclusiveRoutes :=
    List.filter_filterMap.symm
  unfold conflictProblems
  dsimp only
  rw [Claims.conflicts_ofOwners String.lt_irrefl fun _ ↦ rfl,
    Claims.conflicts_ofOwners String.lt_irrefl fun _ ↦ rfl,
    Claims.conflicts_ofOwners RouteKey.lt_irrefl fun _ ↦ rfl]
  simp only [List.map_map, hroutes]
  rfl

end Wiring.Config
