/-!
# Catalogues

Items kept in strictly ascending order of a key, hence one item per key. Filing an item replaces
the item of the same key. The order is part of the type, so two catalogues with the same items
are equal, and a listing of a catalogue is sorted without further proof.
-/

namespace Wiring

/-- Items of type `α` are told apart by a key of type `κ`. -/
class Keyed (α : Type) (κ : outParam Type) where
  /-- The key of an item. -/
  key : α → κ

/-- A linear order in the form that filing needs: any two keys compare, and order composes. -/
class KeyOrder (κ : Type) extends LT κ where
  /-- Order composes. -/
  trans : ∀ {a b c : κ}, a < b → b < c → a < c
  /-- Keys that are not ordered either way are equal. -/
  connected : ∀ {a b : κ}, ¬ a < b → ¬ a = b → b < a

/-- Texts are ordered by their code points, which is also the order of their UTF-8 bytes. -/
instance : KeyOrder String where
  trans := String.lt_trans
  connected := fun hab hne ↦ Std.lt_of_le_of_ne (String.not_lt.mp hab) (Ne.symm hne)

open Keyed (key)

section Filing

variable {α κ : Type} [Keyed α κ] [KeyOrder κ] [DecidableLT κ] [DecidableEq κ]

/-- File an item into an ascending list, in place of an item of the same key. -/
def fileInto (a : α) : List α → List α
  | [] => [a]
  | b :: rest =>
    if key a < key b then a :: b :: rest
    else if key a = key b then a :: rest
    else b :: fileInto a rest

/-- Filing brings in the item and nothing else that was not there. -/
theorem mem_of_mem_fileInto {a x : α} : ∀ {l : List α}, x ∈ fileInto a l → x = a ∨ x ∈ l
  | [], h => by simpa [fileInto] using h
  | b :: rest, h => by
    unfold fileInto at h
    split at h
    · simpa using h
    · split at h
      · rcases List.mem_cons.mp h with h | h
        · exact Or.inl h
        · exact Or.inr (List.mem_cons_of_mem _ h)
      · rcases List.mem_cons.mp h with h | h
        · exact Or.inr (by simp [h])
        · rcases mem_of_mem_fileInto h with h | h
          · exact Or.inl h
          · exact Or.inr (List.mem_cons_of_mem _ h)

/-- Filing keeps a list strictly ascending. -/
theorem pairwise_fileInto (a : α) : ∀ {l : List α},
    l.Pairwise (fun x y ↦ key x < key y) → (fileInto a l).Pairwise (fun x y ↦ key x < key y)
  | [], _ => by simp [fileInto]
  | b :: rest, h => by
    rw [List.pairwise_cons] at h
    unfold fileInto
    split
    · rename_i hlt
      refine List.pairwise_cons.mpr ⟨fun y hy ↦ ?_, List.pairwise_cons.mpr h⟩
      rcases List.mem_cons.mp hy with rfl | hy
      · exact hlt
      · exact KeyOrder.trans hlt (h.1 y hy)
    · split
      · rename_i heq
        exact List.pairwise_cons.mpr ⟨fun y hy ↦ heq ▸ h.1 y hy, h.2⟩
      · rename_i hlt heq
        refine List.pairwise_cons.mpr ⟨fun y hy ↦ ?_, pairwise_fileInto a h.2⟩
        rcases mem_of_mem_fileInto hy with rfl | hy
        · exact KeyOrder.connected hlt heq
        · exact h.1 y hy

/-- Filing puts the item under its key and leaves all other keys as they were. -/
theorem find?_fileInto (a : α) (k : κ) (l : List α) :
    (fileInto a l).find? (fun x ↦ key x = k) =
      if key a = k then some a else l.find? fun x ↦ key x = k := by
  induction l with
  | nil => by_cases h : key a = k <;> simp [fileInto, h]
  | cons b rest ih =>
    unfold fileInto
    split
    · by_cases h : key a = k <;> simp [h]
    · split
      · rename_i heq
        by_cases h : key a = k <;> simp [h, ← heq]
      · rename_i hne
        by_cases hb : key b = k
        · have ha : ¬ key a = k := fun h ↦ hne (h.trans hb.symm)
          simp [hb, ha]
        · simp [hb, ih]

end Filing

/-- Items in strictly ascending order of their keys. -/
structure Catalogue (α : Type) {κ : Type} [Keyed α κ] [LT κ] where
  /-- The items in order. -/
  toList : List α
  /-- Each key comes before the keys of all later items. -/
  ascending : toList.Pairwise (fun x y ↦ key x < key y)

namespace Catalogue

variable {α κ : Type} [Keyed α κ]

/-- A catalogue is its list of items. -/
@[ext] theorem ext [LT κ] {c d : Catalogue α} (h : c.toList = d.toList) : c = d := by
  cases c
  cases d
  simp_all

instance [LT κ] [DecidableEq α] : DecidableEq (Catalogue α) := fun c d ↦
  decidable_of_iff (c.toList = d.toList) ⟨ext, fun h ↦ h ▸ rfl⟩

/-- The catalogue without items. -/
def empty [LT κ] : Catalogue α := ⟨[], List.Pairwise.nil⟩

instance [LT κ] : Inhabited (Catalogue α) := ⟨empty⟩

/-- Catalogues are shown as their lists. -/
instance [LT κ] [Repr α] : Repr (Catalogue α) where
  reprPrec c := reprPrec c.toList

/-- The item of a key. -/
def find? [LT κ] [DecidableEq κ] (c : Catalogue α) (k : κ) : Option α :=
  c.toList.find? fun a ↦ key a = k

/-- File an item, in place of an item of the same key. -/
def file [KeyOrder κ] [DecidableLT κ] [DecidableEq κ] (c : Catalogue α) (a : α) : Catalogue α :=
  ⟨fileInto a c.toList, pairwise_fileInto a c.ascending⟩

/-- File items one after another, so that the last item of a key stays. -/
def ofList [KeyOrder κ] [DecidableLT κ] [DecidableEq κ] (items : List α) : Catalogue α :=
  items.foldl file empty

@[simp] theorem toList_empty [LT κ] : (empty : Catalogue α).toList = [] := rfl

@[simp] theorem toList_file [KeyOrder κ] [DecidableLT κ] [DecidableEq κ] (c : Catalogue α)
    (a : α) : (c.file a).toList = fileInto a c.toList := rfl

/-- What filing an item does to look-up. -/
theorem find?_file [KeyOrder κ] [DecidableLT κ] [DecidableEq κ] (c : Catalogue α) (a : α) (k : κ) :
    (c.file a).find? k = if key a = k then some a else c.find? k :=
  find?_fileInto a k c.toList

end Catalogue

/-- A text is its own key. -/
instance : Keyed String String := ⟨id⟩

end Wiring
