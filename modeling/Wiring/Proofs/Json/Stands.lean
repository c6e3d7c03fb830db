import Mathlib.Data.List.Pairwise
import Mathlib.Data.List.Perm.Basic
import Wiring.Json.Decoder
import Wiring.Program.Encoding
import Wiring.Proofs.Json.Digits

/-!
# Nodes that stand for values

A node stands for a value if it is what the value may look like when it is read: numbers as they
are written, strings in whatever way they are escaped, the members of an object in any order. A
decoder that is put together for values of some shape gives the same of every node that stands for
one.
-/

namespace Wiring.Json

mutual

/-- The node stands for the value. -/
inductive Stands : Node → Json → Prop
  | null : Stands .null .null
  | bool (b : Bool) : Stands (.bool b) (.bool b)
  | int (i : Int) : Stands (.number (.ofInt i)) (.int i)
  | string {t : StringToken} {s : String} (h : t.value = .ok s) : Stands (.string t) (.string s)
  | array {items : Items} {l : List Json} (h : ItemsStand items l) :
    Stands (.array items) (.array l)
  | object {members : Members} {l l' : List (String × Json)} (hperm : l.Perm l')
    (h : MembersStand members l) : Stands (.object members) (.object l')

/-- The items stand for those of a list. -/
inductive ItemsStand : Items → List Json → Prop
  | done : ItemsStand (.done .closed) []
  | item {n : Node} {v : Json} {items : Items} {l : List Json} (h : Stands n v)
    (hrest : ItemsStand items l) : ItemsStand (.item n items) (v :: l)

/-- The members stand for those of an object, in order. -/
inductive MembersStand : Members → List (String × Json) → Prop
  | done : MembersStand (.done .closed) []
  | member {t : StringToken} {k : String} {n : Node} {v : Json} {members : Members}
    {l : List (String × Json)} (hkey : t.value = .ok k) (h : Stands n v)
    (hrest : MembersStand members l) : MembersStand (.member (.string t) n members) ((k, v) :: l)

end

/-- The token that stands for a string has it as its value. -/
theorem value_ofString (s : String) : (StringToken.ofString s).value = .ok s := by
  have hcharacters (l : List Char) :
      StringToken.characters none (l.map .char) = .ok l := by
    induction l with
    | nil => rfl
    | cons c l ih =>
      rw [List.map_cons, StringToken.characters, ih]
      rfl
  unfold StringToken.value StringToken.ofString
  rw [hcharacters]
  exact congrArg Except.ok s.ofList_toList

mutual

/-- The node of a value stands for it. -/
theorem stands_toNode : (v : Json) → Stands v.toNode v
  | .null => .null
  | .bool b => .bool b
  | .int i => .int i
  | .string s => .string (value_ofString s)
  | .array items => .array (stands_itemsNode items)
  | .object members => .object (.refl _) (stands_membersNode members)

theorem stands_itemsNode : (l : List Json) → ItemsStand (toNode.itemsNode l) l
  | [] => .done
  | v :: rest => .item (stands_toNode v) (stands_itemsNode rest)

theorem stands_membersNode : (l : List (String × Json)) →
    MembersStand (toNode.membersNode l) l
  | [] => .done
  | (k, v) :: rest => .member (value_ofString k) (stands_toNode v) (stands_membersNode rest)

end

/-- Of whatever node stands for the value, the decoder gives the same. -/
def Decodes {α : Type} (f : Node → Decoded α) (v : Json) (a : α) : Prop :=
  ∀ n, Stands n v → f n = .ok a

namespace Decodes

variable {α β γ δ : Type} {f : Node → Decoded α} {v : Json} {a : α}

/-- What is decoded may be turned into something else. -/
theorem map (h : Decodes f v a) (g : α → β) : Decodes (fun n ↦ g <$> f n) v (g a) := by
  intro n hn
  dsimp only
  rw [h n hn]
  rfl

/-- What is decoded may be judged. -/
theorem bind (h : Decodes f v a) {g : α → Decoded β} {b : β} (hg : g a = .ok b) :
    Decodes (fun n ↦ f n >>= g) v b := by
  intro n hn
  dsimp only
  rw [h n hn]
  exact hg

/-- A string. -/
theorem asString (s : String) : Decodes Node.asString (.string s) s := by
  intro n hn
  cases hn with
  | string h =>
    unfold Node.asString
    dsimp only
    rw [h]
    rfl

/-- A natural number below the bound. -/
theorem asNat {bound n : Nat} (h : n < bound) : Decodes (Node.asNat bound) (.nat n) n := by
  intro node hnode
  cases hnode with
  | int =>
    have hvalue : (NumberToken.ofInt n).integer? = some (.ofNat n) := NumberToken.integer?_ofInt n
    unfold Node.asNat
    simp only [hvalue, h, if_true]

/-- The items of a list. -/
theorem items {toJson : α → Json} {l : List α} (h : ∀ a ∈ l, Decodes f (toJson a) a)
    {items : Items} (hitems : ItemsStand items (l.map toJson)) : items.decode f = .ok l := by
  induction l generalizing items with
  | nil =>
    cases hitems
    rfl
  | cons a l ih =>
    cases hitems with
    | item hitem hrest =>
      rw [Items.decode, h a (by simp) _ hitem, ih (fun a ha ↦ h a (by simp [ha])) hrest]
      rfl

/-- A list. -/
theorem asList {toJson : α → Json} {l : List α} (h : ∀ a ∈ l, Decodes f (toJson a) a) :
    Decodes (Node.asList f) (.array (l.map toJson)) l := by
  intro n hn
  cases hn with
  | array hitems => exact items h hitems

/-- The members of an object of any keys. -/
theorem members {toJson : α → Json} {l : List (String × α)}
    (h : ∀ m ∈ l, Decodes f (toJson m.2) m.2) {members : Members}
    (hmembers : MembersStand members (l.map fun m ↦ (m.1, toJson m.2))) :
    members.decode f = .ok l := by
  induction l generalizing members with
  | nil =>
    cases hmembers
    rfl
  | cons m l ih =>
    cases hmembers with
    | member hkey hvalue hrest =>
      rw [Members.decode, Node.asKey, hkey, h m (by simp) _ hvalue,
        ih (fun m hm ↦ h m (by simp [hm])) hrest]
      rfl

/-- A permutation of what a function gives is what it gives of a permutation. -/
theorem exists_perm_of_perm_map {g : α → β} {l : List β} {l' : List α} (h : l.Perm (l'.map g)) :
    ∃ l₂ : List α, l₂.Perm l' ∧ l₂.map g = l := by
  have hmap : List.Forall₂ (fun b a ↦ b = g a) (l'.map g) l' :=
    List.forall₂_map_left_iff.mpr (List.forall₂_same.mpr fun _ _ ↦ rfl)
  obtain ⟨l₂, hl₂, hperm⟩ := List.perm_comp_forall₂ h hmap
  refine ⟨l₂, hperm, ?_⟩
  rw [← List.forall₂_eq_eq_eq, List.forall₂_map_left_iff]
  exact hl₂.flip.imp fun _ _ h ↦ h.symm

/-- An object of any keys: its members are found, though in any order. -/
theorem asMap {toJson : α → Json} {l : List (String × α)}
    (h : ∀ m ∈ l, Decodes f (toJson m.2) m.2) {n : Node}
    (hn : Stands n (.object (l.map fun m ↦ (m.1, toJson m.2)))) :
    ∃ l' : List (String × α), l'.Perm l ∧ n.asMap f = .ok l' := by
  cases hn with
  | object hperm hmembers =>
    obtain ⟨l', hl', rfl⟩ := exists_perm_of_perm_map hperm
    exact ⟨l', hl', members (fun m hm ↦ h m (hl'.mem_iff.mp hm)) hmembers⟩

/-- A field together with a value, and what reading the value adds to the record. -/
structure Filled (σ : Type) where
  field : Field σ
  value : Json
  add : σ → σ
  decodes : ∀ s, Decodes (field.read s) value (add s)

namespace Filled

variable {σ : Type}

/-- A field that is read by a decoder and put into the record. -/
def of (name : String) (put : σ → α → σ) (h : Decodes f v a) : Filled σ :=
  ⟨⟨name, fun s n ↦ put s <$> f n⟩, v, fun s ↦ put s a, fun s ↦ h.map (put s)⟩

/-- The member of an object that the field is read from. -/
def member (f : Filled σ) : String × Json := (f.field.name, f.value)

/-- A field is found by its name, if no two fields have the same. -/
theorem find?_field {all : List (Filled σ)} (h : (all.map fun f ↦ f.field.name).Nodup)
    {f : Filled σ} (hf : f ∈ all) :
    (all.map Filled.field).find? (·.name = f.field.name) = some f.field := by
  induction all with
  | nil => cases hf
  | cons other all ih =>
    rw [List.map_cons, List.nodup_cons] at h
    rw [List.map_cons]
    rcases List.mem_cons.mp hf with rfl | hf
    · simp
    · have hne : other.field.name ≠ f.field.name := fun heq ↦
        h.1 (heq ▸ List.mem_map_of_mem (f := fun f : Filled σ ↦ f.field.name) hf)
      rw [List.find?_cons_of_neg (by simpa using hne), ih h.2 hf]

/-- The members of a record, from some field on. -/
theorem recordMembers {all : List (Field σ)} {fields : List (Filled σ)} {seen : List String}
    (hfind : ∀ f ∈ fields, all.find? (·.name = f.field.name) = some f.field)
    (hnodup : (fields.map fun f ↦ f.field.name).Nodup)
    (hseen : ∀ f ∈ fields, f.field.name ∉ seen) {s : σ} {members : Members}
    (hmembers : MembersStand members (fields.map member)) :
    members.record all seen s = .ok (fields.foldl (fun s f ↦ f.add s) s) := by
  induction fields generalizing seen s members with
  | nil =>
    cases hmembers
    rfl
  | cons f fields ih =>
    cases hmembers with
    | @member t _ n _ members _ hkey hvalue hmembers =>
      rw [List.map_cons, List.nodup_cons] at hnodup
      have hnot : seen.contains f.field.name = false := by
        simpa using hseen f (by simp)
      have hstep : (Members.member (.string t) n members).record all seen s =
          members.record all (f.field.name :: seen) (f.add s) := by
        rw [Members.record, Node.asKey, hkey]
        change (pure f.field.name >>= _ : Decoded σ) = _
        rw [pure_bind, hfind f (by simp)]
        dsimp only
        rw [hnot, f.decodes s n hvalue]
        rfl
      rw [hstep]
      refine ih (fun g hg ↦ hfind g (by simp [hg])) hnodup.2 (fun g hg ↦ ?_) hmembers
      have hne : g.field.name ≠ f.field.name := fun heq ↦
        hnodup.1 (heq ▸ List.mem_map_of_mem (f := fun f : Filled σ ↦ f.field.name) hg)
      simpa [hne] using hseen g (by simp [hg])

end Filled

/-- A record whose fields are all given, in any order. -/
theorem record {σ : Type} (s : σ) (fields : List (Filled σ))
    (hnodup : (fields.map fun f ↦ f.field.name).Nodup)
    (hcomm : fields.Pairwise fun f g ↦ ∀ s, g.add (f.add s) = f.add (g.add s)) :
    Decodes (Node.record (fields.map Filled.field) s) (.object (fields.map Filled.member))
      (fields.foldl (fun s f ↦ f.add s) s) := by
  intro n hn
  cases hn with
  | object hperm hmembers =>
    obtain ⟨given, hgiven, rfl⟩ := exists_perm_of_perm_map hperm
    have hfind : ∀ f ∈ given,
        (fields.map Filled.field).find? (·.name = f.field.name) = some f.field := fun f hf ↦
      Filled.find?_field hnodup (hgiven.mem_iff.mp hf)
    have hread := Filled.recordMembers (s := s) hfind ((hgiven.map _).nodup_iff.mpr hnodup)
      (fun _ _ ↦ List.not_mem_nil) hmembers
    have hsymm : Std.Symm fun f g : Filled σ ↦ ∀ s, g.add (f.add s) = f.add (g.add s) :=
      ⟨fun _ _ h s ↦ (h s).symm⟩
    have hany := hcomm.forall_of_forall fun _ _ _ ↦ rfl
    rw [← hgiven.symm.foldl_eq' (fun _ hf _ hg ↦ hany hf hg) s] at hread
    exact hread

section Records

variable {x y z w : String} {g : Node → Decoded β} {h : Node → Decoded γ} {i : Node → Decoded δ}
  {v₂ v₃ v₄ : Json} {b : β} {c : γ} {d : δ}

/-- A record of one field. -/
theorem record₁ (ha : Decodes f v a) :
    Decodes (Node.record₁ (x, f)) (.object [(x, v)]) (some a) :=
  record none [.of x (fun _ a ↦ some a) ha] (by simp) (by simp)

/-- A record of two fields. -/
theorem record₂ (hnodup : [x, y].Nodup) (ha : Decodes f v a) (hb : Decodes g v₂ b) :
    Decodes (Node.record₂ (x, f) (y, g)) (.object [(x, v), (y, v₂)]) (some a, some b) :=
  record (none, none)
    [.of x (fun s a ↦ (some a, s.2)) ha, .of y (fun s b ↦ (s.1, some b)) hb]
    hnodup (by simp [Filled.of])

/-- A record of three fields. -/
theorem record₃ (hnodup : [x, y, z].Nodup) (ha : Decodes f v a) (hb : Decodes g v₂ b)
    (hc : Decodes h v₃ c) : Decodes (Node.record₃ (x, f) (y, g) (z, h))
      (.object [(x, v), (y, v₂), (z, v₃)]) (some a, some b, some c) :=
  record (none, none, none)
    [.of x (fun s a ↦ (some a, s.2)) ha, .of y (fun s b ↦ (s.1, some b, s.2.2)) hb,
      .of z (fun s c ↦ (s.1, s.2.1, some c)) hc]
    hnodup (by simp [Filled.of])

/-- A record of four fields. -/
theorem record₄ (hnodup : [x, y, z, w].Nodup) (ha : Decodes f v a) (hb : Decodes g v₂ b)
    (hc : Decodes h v₃ c) (hd : Decodes i v₄ d) :
    Decodes (Node.record₄ (x, f) (y, g) (z, h) (w, i))
      (.object [(x, v), (y, v₂), (z, v₃), (w, v₄)]) (some a, some b, some c, some d) :=
  record (none, none, none, none)
    [.of x (fun s a ↦ (some a, s.2)) ha, .of y (fun s b ↦ (s.1, some b, s.2.2)) hb,
      .of z (fun s c ↦ (s.1, s.2.1, some c, s.2.2.2)) hc,
      .of w (fun s d ↦ (s.1, s.2.1, s.2.2.1, some d)) hd]
    hnodup (by simp [Filled.of])

end Records

/-- A variant with content. -/
theorem tagged {variants : List (String × Content α)} {tag : String}
    (htag : variants.find? (·.1 = tag) = some (tag, .decoded f)) (h : Decodes f v a) :
    Decodes (Node.tagged variants) (Program.tagged tag v) a := by
  intro n hn
  cases hn with
  | object hperm hmembers =>
    obtain rfl := List.perm_singleton.mp hperm
    cases hmembers with
    | member hkey hvalue hrest =>
      cases hrest
      have hvariant : variant variants tag = .ok (.decoded f) := by rw [variant, htag]
      rw [Node.tagged, Node.asKey, hkey]
      change (do
        let content ← variant variants tag
        _) = _
      rw [hvariant]
      change (do
        let a ← f _
        _) = _
      rw [h _ hvalue]
      rfl

/-- A variant without content. -/
theorem tag {variants : List (String × Content α)} {tag : String}
    (htag : variants.find? (·.1 = tag) = some (tag, .empty a)) :
    Decodes (Node.tagged variants) (.string tag) a := by
  intro n hn
  cases hn with
  | string hvalue =>
    have hvariant : variant variants tag = .ok (.empty a) := by rw [variant, htag]
    rw [Node.tagged, hvalue]
    change (do
      let content ← variant variants tag
      _) = _
    rw [hvariant]
    rfl

end Decodes
end Wiring.Json
