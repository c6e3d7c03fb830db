import Mathlib.Data.List.Forall2
import Wiring.Proofs.Config.Node

/-!
# What normalization changes

Normalization leaves the tree of a component in shape: at each node stands what the node comes to on
its own, wherever it is. There the doubts are those about all that is in the node, what was missing
is filled in where the rest of the node tells it, and a key is canonical. Nothing else is changed,
but for the problems that are found.
-/

namespace Wiring.Config

/-- The type name of the second entity is that of the first, or else the one that its source gives;
the source is the same. -/
structure Entity.FilledIn (e n : Entity) : Prop where
  kept : ∀ name, e.typeName = some name → n.typeName = some name
  filled : e.typeName = none → n.typeName = e.source
  source : n.source = e.source

/-- The key of the second identity is that of the first, in canonical form if it has one; the name
is the same. -/
structure Identity.FilledIn (i n : Identity) : Prop where
  canonical : ∀ key, i.key = some key → IdentityKey.isKey key →
    n.key = some (IdentityKey.lower key)
  kept : (∀ key, i.key = some key → ¬ IdentityKey.isKey key) → n.key = i.key
  name : n.name = i.name

/-- The second route is named as the first, or else for its message type; the rest is the same. -/
structure Route.FilledIn (r n : Route) : Prop where
  kept : ∀ name, r.messageTypeName = some name → n.messageTypeName = some name
  filled : r.messageTypeName = none → n.messageTypeName = r.messageType.map MessageType.name
  routeType : n.routeType = r.routeType
  messageType : n.messageType = r.messageType

theorem Entity.filledIn_normalize (o : Options) (kind : String) (e : Entity) :
    e.FilledIn (e.normalize o kind) where
  kept name h := by simp [normalize, h]
  filled h := by simp [normalize, h]
  source := rfl

theorem Identity.filledIn_normalize (i : Identity) : i.FilledIn i.normalize where
  canonical key hkey h := by simp [normalize, hkey, IdentityKey.canonical?, h]
  kept h := by
    cases hkey : i.key with
    | none => simp [normalize, hkey]
    | some key => simp [normalize, hkey, IdentityKey.canonical?, h key hkey]
  name := rfl

theorem Route.filledIn_normalize (o : Options) (r : Route) : r.FilledIn (r.normalize o) where
  kept name h := by simp [normalize, named, h]
  filled h := by simp [normalize, named, h]
  routeType := rfl
  messageType := rfl

namespace Component

/-- The second component is the first with what was missing filled in and its key canonical. Of
doubts, problems and parts this says nothing. -/
inductive FilledIn : Component → Component → Prop
  | application {a b : Application} (h : a.toEntity.FilledIn b.toEntity) :
      FilledIn (application a) (application b)
  | handler {a b : Handler} (h : a.toEntity.FilledIn b.toEntity) (hkind : b.kind = a.kind) :
      FilledIn (handler a) (handler b)
  | identity {i j : Identity} (h : i.FilledIn j) : FilledIn (identity i) (identity j)
  | route {r s : Route} (h : r.FilledIn s) : FilledIn (route r) (route s)
  | flag {f g : Flag} (hvalue : g.value = f.value) : FilledIn (flag f) (flag g)

/-- The doubts about a component and about everything in it. -/
def doubts (c : Component) : Fidelity := .unions ((c.nodes 0).map fun n ↦ n.2.fidelity)

variable {c : Component} {o : Options}

/-- How deep the nodes are has no bearing on what they are. -/
theorem map_snd_nodes (depth depth' : Nat) (c : Component) :
    (c.nodes depth).map Prod.snd = (c.nodes depth').map Prod.snd := by
  induction c using induction_parts generalizing depth depth' with
  | h c ih =>
    rw [nodes_eq, nodes_eq, List.map_cons, List.map_cons, List.map_flatMap, List.map_flatMap]
    refine congrArg (c :: ·) ?_
    rw [List.flatMap_def, List.flatMap_def, List.map_congr_left fun p hp ↦ ih p hp _ _]

/-- The doubts about a component are its own and those about its parts. -/
theorem doubts_eq (c : Component) :
    c.doubts = max c.fidelity (.unions (c.parts.map doubts)) := by
  have hunions (l : List Component) : Fidelity.unions ((l.flatMap (nodes 1)).map fun n ↦
      n.2.fidelity) = .unions (l.map doubts) := by
    induction l with
    | nil => rfl
    | cons p l ih =>
      have hp : (p.nodes 1).map (fun n ↦ n.2.fidelity) = (p.nodes 0).map fun n ↦ n.2.fidelity := by
        have h := congrArg (List.map fidelity) (map_snd_nodes 1 0 p)
        rwa [List.map_map, List.map_map] at h
      rw [List.flatMap_cons, List.map_append, Fidelity.unions_append, ih, hp]
      rfl
  unfold doubts
  rw [nodes_eq, List.map_cons, Fidelity.unions_cons, hunions]
  rfl

/-- A normalized component is in doubt as its nodes are, all together. -/
theorem fidelity_normalize_eq_doubts : (c.normalize o).fidelity = c.doubts := by
  induction c using induction_parts with
  | h c ih => rw [fidelity_normalize, doubts_eq, List.map_congr_left ih]

/-- The nodes of a normalized component are its nodes, each normalized where it is. -/
theorem nodes_normalize (depth : Nat) : (c.normalize o).nodes depth =
    (c.nodes depth).map fun n ↦ (n.1, n.2.normalize o) := by
  induction c using induction_parts generalizing depth with
  | h c ih =>
    rw [nodes_eq, nodes_eq, parts_normalize, List.map_cons, List.map_flatMap, List.flatMap_map,
      List.flatMap_def, List.flatMap_def, List.map_congr_left fun p hp ↦ ih p hp _]

theorem filledIn_normalize (o : Options) (c : Component) : c.FilledIn (c.normalize o) := by
  cases c with
  | application a =>
    have h := a.toEntity.filledIn_normalize o Application.kindText
    exact .application ⟨h.kept, h.filled, h.source⟩
  | handler a =>
    have h := a.toEntity.filledIn_normalize o a.kind.text
    exact .handler ⟨h.kept, h.filled, h.source⟩ rfl
  | identity i => exact .identity i.filledIn_normalize
  | route r => exact .route (r.filledIn_normalize o)
  | flag f => exact .flag rfl

/-- Normalization goes through a tree node by node, and none is moved, lost or added. What a node
comes to is what it comes to on its own, and its parts are what they come to on their own. It is in
doubt as it was, together with all that is in it; it is filled in where something was missing and
its key is canonical; and but for its problems, nothing else about it changes. -/
theorem normalize_frame (o : Options) (c : Component) :
    List.Forall₂ (fun m n ↦ n.1 = m.1 ∧ n.2 = m.2.normalize o ∧
        n.2.parts = m.2.parts.map (normalize o) ∧ n.2.fidelity = m.2.doubts ∧ m.2.FilledIn n.2)
      (c.nodes 0) ((c.normalize o).nodes 0) := by
  rw [nodes_normalize, List.forall₂_map_right_iff, List.forall₂_same]
  intro m _
  exact ⟨rfl, rfl, parts_normalize o m.2, fidelity_normalize_eq_doubts,
    filledIn_normalize o m.2⟩

end Component
end Wiring.Config
