import Mathlib.Data.List.Forall2
import Wiring.Proofs.Config.Canonical

/-!
# Letter case of keys

Keys are read without regard to letter case. Components that differ only in the case of letters in
valid keys come to the same once they are normalized, and no answer that is given about a component
tells them apart.
-/

namespace Wiring.Config

/-- Lists come to the same if their elements do one by one. -/
theorem map_eq_of_forall₂ {α β : Type} {R : α → α → Prop} {f : α → β} {l m : List α}
    (h : List.Forall₂ R l m) (hf : ∀ a b, R a b → f b = f a) : m.map f = l.map f := by
  induction h with
  | nil => rfl
  | cons hab _ ih => rw [List.map_cons, List.map_cons, ih, hf _ _ hab]

namespace IdentityKey

/-- The texts are the same but for the case of some letters: where they differ, one has the letter
in lower case. -/
def Recased (s t : String) : Prop :=
  List.Forall₂ (fun c d ↦ c = d ∨ d = c.toLower ∨ c = d.toLower) s.toList t.toList

/-- What may stand at a place in lower case may stand there. -/
theorem Slot.admits_of_toLower {s : Slot} {c : Char} (h : s.admits c.toLower) : s.admits c := by
  unfold Char.toLower at h
  split at h
  · next hupper =>
    have hlow : 65 ≤ c.val.toNat := UInt32.le_iff_toNat_le.mp hupper.1
    have hhigh : c.val.toNat ≤ 90 := UInt32.le_iff_toNat_le.mp hupper.2
    cases s with
    | hyphen =>
      simp [admits, Char.ext_iff, ← UInt32.toNat_inj] at *
      omega
    | digit =>
      simp [admits, isHexDigit, Char.le_def, UInt32.le_iff_toNat_le] at *
      omega
    | variant =>
      simp [admits, Char.ext_iff, ← UInt32.toNat_inj] at *
      omega
  · exact h

/-- A text fits if it fits in lower case. -/
theorem fits_of_toLower : ∀ {l : List Slot} {cs : List Char}, fits l (cs.map Char.toLower) →
    fits l cs
  | [], [], h => h
  | s :: l, c :: cs, h => by
    simp only [List.map_cons, fits, Bool.and_eq_true] at h ⊢
    exact ⟨s.admits_of_toLower h.1, fits_of_toLower h.2⟩

/-- Whether a text is a key can be told from it in lower case. -/
theorem isKey_lower_iff {s : String} : isKey (lower s) ↔ isKey s := by
  constructor
  · intro h
    unfold isKey lower at h
    rw [String.toList_ofList] at h
    exact fits_of_toLower h
  · exact isKey_lower

/-- Texts that differ only in letter case are the same in lower case. -/
theorem Recased.lower_eq {s t : String} (h : Recased s t) : lower t = lower s := by
  unfold lower
  rw [map_eq_of_forall₂ h]
  rintro c d (rfl | rfl | rfl)
  · rfl
  · exact toLower_toLower c
  · exact (toLower_toLower d).symm

/-- What differs only in letter case from a key is a key. -/
theorem Recased.isKey_iff {s t : String} (h : Recased s t) : isKey t ↔ isKey s := by
  rw [← isKey_lower_iff, h.lower_eq, isKey_lower_iff]

end IdentityKey

/-- The second identity is the first, but for letter case if the key is valid. -/
inductive Identity.Respelled : Identity → Identity → Prop
  | refl (i : Identity) : Respelled i i
  | key {i : Identity} {key other : String} (hkey : i.key = some key)
      (hvalid : IdentityKey.isKey key) (h : IdentityKey.Recased key other) :
      Respelled i { i with key := some other }

/-- The second handler is the first, but for letter case in valid keys. -/
structure Handler.Respelled (h k : Handler) : Prop where
  identities : List.Forall₂ Identity.Respelled h.identities k.identities
  rest : k = { h with identities := k.identities }

/-- The second application is the first, but for letter case in valid keys. -/
structure Application.Respelled (a b : Application) : Prop where
  identities : List.Forall₂ Identity.Respelled a.identities b.identities
  handlers : List.Forall₂ Handler.Respelled a.handlers b.handlers
  rest : b = { a with identities := b.identities, handlers := b.handlers }

/-- Identities that differ only in the letter case of a valid key come to the same. -/
theorem Identity.Respelled.normalize_eq {i j : Identity} (h : i.Respelled j) :
    j.normalize = i.normalize := by
  cases h with
  | refl => rfl
  | @key key other hkey hvalid h =>
    have hother : IdentityKey.isKey other := h.isKey_iff.mpr hvalid
    simp only [normalize, nameProblems, keyProblems, hkey, hvalid, hother, Option.map_some,
      IdentityKey.canonical?, if_true, Option.getD_some, h.lower_eq]

/-- An entity is normalized with its identities as they are normalized. -/
theorem Entity.normalize_congr {o : Options} {kind : String} {e : Entity}
    {identities : List Identity} (h : List.Forall₂ Identity.Respelled e.identities identities) :
    Entity.normalize o kind { e with identities } = e.normalize o kind := by
  unfold normalize
  simp only [map_eq_of_forall₂ h fun _ _ hi ↦ hi.normalize_eq]

theorem Handler.Respelled.normalize_eq {h k : Handler} (hk : h.Respelled k) (o : Options) :
    k.normalize o = h.normalize o := by
  rw [hk.rest]
  unfold normalize
  simp only [Entity.normalize_congr hk.identities]

theorem Application.Respelled.normalize_eq {a b : Application} (h : a.Respelled b) (o : Options) :
    b.normalize o = a.normalize o := by
  rw [h.rest]
  unfold normalize
  simp only [Entity.normalize_congr h.identities,
    map_eq_of_forall₂ h.handlers fun _ _ hk ↦ hk.normalize_eq o]

namespace Component

/-- The second component is the first, but for letter case in valid keys. -/
inductive Respelled : Component → Component → Prop
  | application {a b : Application} (h : a.Respelled b) : Respelled (application a) (application b)
  | handler {h k : Handler} (hk : h.Respelled k) : Respelled (handler h) (handler k)
  | identity {i j : Identity} (h : i.Respelled j) : Respelled (identity i) (identity j)
  | route (r : Route) : Respelled (route r) (route r)
  | flag (f : Flag) : Respelled (flag f) (flag f)

/-- The answer to the question who the component is, which only entities know. -/
def identityAnswer : Component → Option (Except Entity.IdentityFault Identity)
  | application a => some a.identity
  | handler h => some h.identity
  | identity _ | route _ | flag _ => none

/-- The answer to the question which routes the component has, which only handlers know. -/
def routeSetAnswer : Component → Option (Except Handler.RouteSetFault RouteSet)
  | handler h => some h.routeSet
  | application _ | identity _ | route _ | flag _ => none

/-- The answers depend on what the component is once it is normalized. -/
theorem answers_congr {c d : Component} (h : d.normalize .default = c.normalize .default) :
    d.identityAnswer = c.identityAnswer ∧ d.routeSetAnswer = c.routeSetAnswer := by
  cases c <;> cases d <;>
    simp_all [normalize, identityAnswer, routeSetAnswer, Application.identity, Handler.identity,
      Handler.routeSet]

/-- The letter case of valid keys goes into nothing. Components that differ in nothing else are
equal once they are normalized, whatever is asked of them; so the same is found wrong with them, the
same is reported of them, and they give the same identity and the same routes. -/
theorem normalize_eq_of_respelled {c d : Component} (h : c.Respelled d) :
    (∀ o, d.normalize o = c.normalize o) ∧ (∀ o, d.validate o = c.validate o) ∧
      d.details = c.details ∧ d.identityAnswer = c.identityAnswer ∧
      d.routeSetAnswer = c.routeSetAnswer := by
  have hnormalize (o : Options) : d.normalize o = c.normalize o := by
    cases h with
    | application h => exact congrArg application (h.normalize_eq o)
    | handler hk => exact congrArg handler (hk.normalize_eq o)
    | identity h => exact congrArg identity h.normalize_eq
    | route | flag => rfl
  refine ⟨hnormalize, fun o ↦ ?_, ?_, answers_congr (hnormalize .default)⟩
  · unfold validate
    rw [hnormalize]
  · unfold details
    rw [hnormalize]

/-- A shop with one shelf, each with a key. -/
def shop (key shelfKey : String) : Component :=
  application {
    typeName := some "Shop"
    identities := [{ name := some "shop", key := some key }]
    handlers := [{
      kind := .projection
      typeName := some "Shelf"
      identities := [{ name := some "shelf", key := some shelfKey }] }] }

/-- The shop in two spellings gives the same answers. -/
theorem normalize_eq_of_respelled_shop :
    let c := shop "0bd3f5b1-73fe-4a5f-9ab2-7c5e9e0c3d11" "C1F0E2D4-2f0b-4c7a-8a7e-1f6f3b1c9a02"
    let d := shop "0BD3F5B1-73FE-4A5F-9AB2-7C5E9E0C3D11" "C1f0e2d4-2F0b-4c7a-8A7e-1f6f3b1c9a02"
    c.Respelled d ∧ c ≠ d ∧ (∀ o, d.normalize o = c.normalize o) ∧
      (∀ o, d.validate o = c.validate o) ∧ d.details = c.details ∧
      d.identityAnswer = c.identityAnswer ∧ d.routeSetAnswer = c.routeSetAnswer := by
  intro c d
  have h : c.Respelled d := by
    refine .application ⟨.cons ?_ .nil, .cons ⟨.cons ?_ .nil, rfl⟩ .nil, rfl⟩
    · exact .key rfl (by decide) (by unfold IdentityKey.Recased; decide)
    · exact .key rfl (by decide) (by unfold IdentityKey.Recased; decide)
  exact ⟨h, by decide, normalize_eq_of_respelled h⟩

end Component
end Wiring.Config
