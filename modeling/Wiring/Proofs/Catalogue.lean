import Mathlib.Data.List.Nodup
import Wiring.Catalogue

/-!
# Filing

What a catalogue has once items have been filed. Items of different keys are all there, in order of
their keys; of other items, filing touches only those of the same key.
-/

namespace Wiring

section Filing

variable {α κ : Type} [Keyed α κ] [KeyOrder κ] [DecidableLT κ] [DecidableEq κ]

open Keyed (key)

/-- Filing brings in the item, and leaves all others there if no two items have one key. -/
theorem mem_fileInto_iff (hkey : ∀ a b : α, key a = key b → a = b) {a x : α} {l : List α} :
    x ∈ fileInto a l ↔ x = a ∨ x ∈ l := by
  induction l with
  | nil => simp [fileInto]
  | cons b rest ih =>
    unfold fileInto
    split
    · simp
    · split
      · next h =>
        obtain rfl := hkey a b h
        simp
      · rw [List.mem_cons, List.mem_cons, ih]
        exact or_left_comm

/-- Filing an item of a new key brings it in. -/
theorem fileInto_perm {a : α} {l : List α} (h : key a ∉ l.map key) :
    (fileInto a l).Perm (a :: l) := by
  induction l with
  | nil => exact .refl _
  | cons b l ih =>
    rw [List.map_cons, List.mem_cons, not_or] at h
    unfold fileInto
    rw [if_neg h.1]
    split
    · exact .refl _
    · exact ((ih h.2).cons b).trans (.swap a b l)

/-- An item that fails a test, filed in place of another one at most, is not missed by the test. -/
theorem filter_fileInto {p : α → Bool} {a : α} (ha : p a = false) {l : List α}
    (h : ∀ b ∈ l, key b = key a → p b = false) : (fileInto a l).filter p = l.filter p := by
  induction l with
  | nil => simp [fileInto, ha]
  | cons b rest ih =>
    rw [List.forall_mem_cons] at h
    unfold fileInto
    split
    · rw [List.filter_cons, if_neg (by simp [ha])]
    · split
      · next heq =>
        rw [List.filter_cons, List.filter_cons, if_neg (by simp [ha]),
          if_neg (by simp [h.1 heq.symm])]
      · rw [List.filter_cons, List.filter_cons, ih h.2]

namespace Catalogue

/-- If no two items have one key, a catalogue has the items that it is made of. -/
theorem mem_ofList_iff (hkey : ∀ a b : α, key a = key b → a = b) {x : α} {l : List α} :
    x ∈ (ofList l).toList ↔ x ∈ l := by
  have hfoldl (c : Catalogue α) : x ∈ (l.foldl file c).toList ↔ x ∈ l ∨ x ∈ c.toList := by
    induction l generalizing c with
    | nil => simp
    | cons a l ih =>
      rw [List.foldl_cons, ih, toList_file, mem_fileInto_iff hkey, List.mem_cons, or_left_comm,
        or_assoc]
  rw [ofList, hfoldl]
  simp

/-- Filing items of new and different keys brings them all in. -/
theorem foldl_file_perm {l : List α} {c : Catalogue α} (h : ((l ++ c.toList).map key).Nodup) :
    (l.foldl file c).toList.Perm (l ++ c.toList) := by
  induction l generalizing c with
  | nil => exact .refl _
  | cons a l ih =>
    have hnew : key a ∉ c.toList.map key := by
      rw [List.cons_append, List.map_cons, List.nodup_cons, List.map_append] at h
      exact fun ha ↦ h.1 (List.mem_append_right _ ha)
    have hperm : (l ++ (c.file a).toList).Perm (a :: l ++ c.toList) :=
      ((fileInto_perm hnew).append_left l).trans List.perm_middle
    rw [List.foldl_cons]
    exact (ih ((hperm.map key).nodup_iff.mpr h)).trans hperm

/-- A catalogue of items of different keys has them all. -/
theorem ofList_perm {l : List α} (h : (l.map key).Nodup) : (ofList l).toList.Perm l := by
  have hfiled : (ofList l).toList.Perm (l ++ (empty : Catalogue α).toList) := by
    apply foldl_file_perm
    rwa [toList_empty, List.append_nil]
  rwa [toList_empty, List.append_nil] at hfiled

omit [DecidableLT κ] [DecidableEq κ] in
/-- The items of a catalogue have different keys. -/
theorem nodup_keys (hirrefl : ∀ k : κ, ¬ k < k) (c : Catalogue α) : (c.toList.map key).Nodup := by
  rw [List.nodup_iff_pairwise_ne, List.pairwise_map]
  exact c.ascending.imp fun {a b} hlt (heq : key a = key b) ↦ hirrefl (key b) (heq ▸ hlt)

/-- The items of a catalogue, in whatever order, give the catalogue. -/
theorem ofList_eq_of_perm (hirrefl : ∀ k : κ, ¬ k < k) {c : Catalogue α} {l : List α}
    (h : l.Perm c.toList) : ofList l = c := by
  have hnodup : (l.map key).Nodup := (h.map key).nodup_iff.mpr (c.nodup_keys hirrefl)
  apply ext
  apply ((ofList_perm hnodup).trans h).eq_of_pairwise _ (ofList l).ascending c.ascending
  exact fun a b _ _ hab hba ↦ (hirrefl _ (KeyOrder.trans hab hba)).elim

/-- Of the items that are filed, the last one of a key is found. -/
theorem find?_foldl_file_eq (items : List α) (c : Catalogue α) (k : κ) :
    (items.foldl file c).find? k =
      (items.filter fun a ↦ key a = k).getLast?.or (c.find? k) := by
  induction items generalizing c with
  | nil => rfl
  | cons a items ih =>
    rw [List.foldl_cons, ih, find?_file, List.filter_cons]
    by_cases h : key a = k
    · rw [if_pos h, if_pos (by simpa using h), List.getLast?_cons]
      cases (items.filter fun a ↦ key a = k).getLast? <;> rfl
    · rw [if_neg h, if_neg (by simpa using h)]

/-- Filing items of other keys leaves a key as it was. -/
theorem find?_foldl_file {items : List α} {k : κ} (h : ∀ a ∈ items, key a ≠ k)
    (c : Catalogue α) : (items.foldl file c).find? k = c.find? k := by
  have hnone : items.filter (fun a ↦ key a = k) = [] := by
    rw [List.filter_eq_nil_iff]
    exact fun a ha ↦ by simpa using h a ha
  rw [find?_foldl_file_eq, hnone]
  rfl

omit [DecidableLT κ] in
/-- What is found of a key in a catalogue is the item of the key. -/
theorem find?_eq_some_iff (hirrefl : ∀ k : κ, ¬ k < k) {c : Catalogue α} {k : κ} {a : α} :
    c.find? k = some a ↔ a ∈ c.toList ∧ key a = k := by
  constructor
  · intro h
    exact ⟨List.mem_of_find?_eq_some h, by simpa using List.find?_some h⟩
  · rintro ⟨ha, rfl⟩
    cases hfind : c.find? (key a) with
    | none =>
      have hnone := List.find?_eq_none.mp hfind a ha
      simp at hnone
    | some b =>
      have hb : b ∈ c.toList := List.mem_of_find?_eq_some hfind
      have hkey : key b = key a := by simpa using List.find?_some hfind
      rw [List.inj_on_of_nodup_map (c.nodup_keys hirrefl) hb ha hkey]

/-- Items that fail a test, filed among items of other keys, make no difference to the test. -/
theorem filter_foldl_file {p : α → Bool} {items : List α}
    (hitems : ∀ a ∈ items, p a = false) {c : Catalogue α}
    (h : ∀ a ∈ items, ∀ b ∈ c.toList, key b = key a → p b = false) :
    (items.foldl file c).toList.filter p = c.toList.filter p := by
  induction items generalizing c with
  | nil => rfl
  | cons a items ih =>
    rw [List.forall_mem_cons] at hitems h
    rw [List.foldl_cons, ih hitems.2, toList_file, filter_fileInto hitems.1 h.1]
    intro d hd b hb hkey
    rcases mem_of_mem_fileInto hb with rfl | hb
    · exact hitems.1
    · exact h.2 d hd b hb hkey

end Catalogue
end Filing
end Wiring
