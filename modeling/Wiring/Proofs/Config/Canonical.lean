import Wiring.Config.Component

/-!
# Canonical forms

What normalization fills in or rewrites stays as it is when it is normalized again: keys in lower
case are keys in lower case, and names and doubts that have been taken over are there already. Only
which problems are found may differ.
-/

namespace Wiring.Config

namespace IdentityKey

/-- A hexadecimal digit stays one in lower case. -/
theorem isHexDigit_toLower {c : Char} (h : isHexDigit c) : isHexDigit c.toLower := by
  unfold Char.toLower
  split
  · next hupper =>
    have hlow : 65 ≤ c.val.toNat := UInt32.le_iff_toNat_le.mp hupper.1
    have hhigh : c.val.toNat ≤ 90 := UInt32.le_iff_toNat_le.mp hupper.2
    simp [isHexDigit, Char.le_def, UInt32.le_iff_toNat_le] at *
    omega
  · exact h

/-- What may stand at a place may stand there in lower case. -/
theorem Slot.admits_toLower {s : Slot} {c : Char} (h : s.admits c) : s.admits c.toLower := by
  cases s with
  | hyphen =>
    obtain rfl : c = '-' := by simpa [admits] using h
    decide
  | digit => exact isHexDigit_toLower h
  | variant =>
    simp only [admits, Bool.or_eq_true, decide_eq_true_eq] at h
    rcases h with ((((rfl | rfl) | rfl) | rfl) | rfl) | rfl <;> decide

/-- Lower case fits wherever the text does. -/
theorem fits_toLower : ∀ {l : List Slot} {cs : List Char}, fits l cs → fits l (cs.map Char.toLower)
  | [], [], h => h
  | s :: l, c :: cs, h => by
    simp only [List.map_cons, fits, Bool.and_eq_true] at h ⊢
    exact ⟨s.admits_toLower h.1, fits_toLower h.2⟩

theorem toLower_toLower (c : Char) : c.toLower.toLower = c.toLower := by
  unfold Char.toLower
  grind

theorem isKey_lower {s : String} (h : isKey s) : isKey (lower s) := by
  unfold isKey lower
  rw [String.toList_ofList]
  exact fits_toLower h

theorem lower_lower (s : String) : lower (lower s) = lower s := by
  unfold lower
  rw [String.toList_ofList, List.map_map]
  congr 2
  funext c
  exact toLower_toLower c

end IdentityKey

/-- Normalizing an identity again changes nothing: its key is canonical, and valid if it was. -/
theorem Identity.normalize_normalize (i : Identity) : i.normalize.normalize = i.normalize := by
  obtain ⟨f, problems, name, key⟩ := i
  cases key with
  | none => rfl
  | some key =>
    by_cases h : IdentityKey.isKey key
    · simp [normalize, nameProblems, keyProblems, IdentityKey.canonical?, h,
        IdentityKey.isKey_lower, IdentityKey.lower_lower]
    · simp [normalize, nameProblems, keyProblems, IdentityKey.canonical?, h]

/-- Normalizing a route again changes nothing: it is named already. -/
theorem Route.normalize_normalize (o : Options) (r : Route) :
    (r.normalize o).normalize o = r.normalize o := by
  obtain ⟨f, problems, routeType, name, messageType⟩ := r
  cases name <;> cases messageType <;> rfl

theorem Flag.normalize_normalize (f : Flag) : f.normalize.normalize = f.normalize := rfl

namespace Entity

/-- Nothing is left to be filled in, rewritten or taken over from identities. -/
structure Canonical (e : Entity) : Prop where
  typeName : (e.typeName <|> e.source) = e.typeName
  identities : e.identities.map Identity.normalize = e.identities
  fidelity : max e.fidelity (.unions (e.identities.map Identity.fidelity)) = e.fidelity

variable {o : Options} {kind : String} {e e' : Entity}

/-- Further doubts and other problems leave an entity canonical. -/
theorem Canonical.widen (h : e.Canonical) (f : Fidelity) (problems : List Problem) :
    Canonical { e with fidelity := max e.fidelity f, problems } where
  typeName := h.typeName
  identities := h.identities
  fidelity := by
    dsimp only
    -- bring the identities' doubts next to the entity's own, which has them already
    rw [Fidelity.max_assoc, Fidelity.max_comm f, ← Fidelity.max_assoc, h.fidelity]

/-- A normalized entity is canonical. -/
theorem canonical_normalize (o : Options) (kind : String) (e : Entity) :
    (e.normalize o kind).Canonical where
  typeName := by
    cases ht : e.typeName <;> cases hs : e.source <;> simp [normalize, ht, hs]
  identities := by
    simp only [normalize, List.map_map]
    exact List.map_congr_left fun i _ ↦ i.normalize_normalize
  fidelity := by
    simp only [normalize]
    rw [Fidelity.max_assoc, Fidelity.max_self]

/-- Of a canonical entity, normalization finds the problems and leaves the rest alone. -/
theorem Canonical.normalize_eq (h : e.Canonical) : e.normalize o kind =
    { e with problems := e.sourceProblems o kind ++ e.identityProblems } := by
  unfold normalize
  dsimp only
  rw [h.typeName, h.identities, h.fidelity]

/-- With the same identities, the same problem is found unless there are none and only one of the
entities is incomplete. -/
theorem identityProblems_eq_iff (h : e.identities = e'.identities) :
    e.identityProblems = e'.identityProblems ↔
      (e.identities = [] → e.fidelity.incomplete = e'.fidelity.incomplete) := by
  unfold identityProblems
  rw [← h]
  rcases e.identities with _ | ⟨i, _ | ⟨j, l⟩⟩
  · cases e.fidelity.incomplete <;> cases e'.fidelity.incomplete <;> simp
  · simp
  · simp

end Entity

namespace Handler

/-- Nothing is left to be filled in, rewritten or taken over from parts. -/
structure Canonical (o : Options) (h : Handler) : Prop where
  entity : h.toEntity.Canonical
  routes : h.routes.map (Route.normalize o) = h.routes
  disabled : h.disabled.map Flag.normalize = h.disabled
  fidelity : max h.fidelity (.unions (h.routes.map Route.fidelity ++
    h.disabled.map Flag.fidelity)) = h.fidelity

/-- What is wrong with a handler as it stands. -/
def foundProblems (o : Options) (h : Handler) : List Problem :=
  h.sourceProblems o h.kind.text ++ h.identityProblems ++ routeProblems h.kind [] h.routes ++
    h.missingRouteProblems

variable {o : Options} {h : Handler}

/-- A normalized handler is canonical. -/
theorem canonical_normalize (o : Options) (h : Handler) : (h.normalize o).Canonical o where
  entity := (Entity.canonical_normalize o h.kind.text h.toEntity).widen _ _
  routes := by
    simp only [normalize, List.map_map]
    exact List.map_congr_left fun r _ ↦ r.normalize_normalize o
  disabled := by
    simp only [normalize, List.map_map]
    rfl
  fidelity := by
    simp only [normalize]
    rw [Fidelity.max_assoc, Fidelity.max_self]

/-- Of a canonical handler, normalization finds the problems and leaves the rest alone. -/
theorem Canonical.normalize_eq (hc : h.Canonical o) :
    h.normalize o = { h with problems := h.foundProblems o } := by
  unfold normalize
  dsimp only
  rw [hc.entity.normalize_eq, hc.routes, hc.disabled]
  dsimp only
  rw [hc.fidelity]
  rfl

end Handler
end Wiring.Config
