import Wiring.Config.Component

/-!
# Nodes of a component tree

The nodes are the component itself and those of its parts. Normalization goes through the tree part
by part, and takes over the doubts about the parts.
-/

namespace Wiring.Config.Component

/-- The parts of a component in order. -/
def parts : Component → List Component
  | application a => a.identities.map identity ++ a.handlers.map handler
  | handler h => h.identities.map identity ++ h.routes.map route ++ h.disabled.map flag
  | identity _ | route _ | flag _ => []

/-- A node of the tree of a component. -/
inductive HasNode : Component → Component → Prop
  | self (c : Component) : HasNode c c
  | part {c p n : Component} (hp : p ∈ c.parts) (hn : HasNode p n) : HasNode c n

/-- How many levels of parts a component may have. -/
def height : Component → Nat
  | application _ => 2
  | handler _ => 1
  | identity _ | route _ | flag _ => 0

variable {c n p : Component} {o : Options}

theorem height_lt (h : p ∈ c.parts) : p.height < c.height := by
  cases c with
  | application a =>
    simp only [parts, List.mem_append, List.mem_map] at h
    rcases h with ⟨i, -, rfl⟩ | ⟨b, -, rfl⟩ <;> simp [height]
  | handler a =>
    simp only [parts, List.mem_append, List.mem_map] at h
    rcases h with (⟨i, -, rfl⟩ | ⟨r, -, rfl⟩) | ⟨f, -, rfl⟩ <;> simp [height]
  | identity | route | flag => cases h

/-- The nodes of a component, each before those of its parts, with how many others it is in. -/
def nodes (depth : Nat) (c : Component) : List (Nat × Component) :=
  (depth, c) :: c.parts.attach.flatMap fun p ↦ nodes (depth + 1) p.1
termination_by c.height
decreasing_by exact height_lt p.2

/-- What holds of a component if it holds of its parts holds of every component. -/
theorem induction_parts {P : Component → Prop} (h : ∀ c, (∀ p ∈ c.parts, P p) → P c)
    (c : Component) : P c := by
  -- Trees have three levels: leaves, handlers, and applications, of which handlers are parts.
  have hleaf (c : Component) (hc : c.parts = []) : P c := h c (by simp [hc])
  have hidentity (i : Identity) : P (identity i) := hleaf _ rfl
  have hhandler (a : Handler) : P (handler a) := by
    refine h _ fun p hp ↦ ?_
    simp only [parts, List.mem_append, List.mem_map] at hp
    rcases hp with (⟨i, -, rfl⟩ | ⟨r, -, rfl⟩) | ⟨f, -, rfl⟩
    · exact hidentity i
    · exact hleaf _ rfl
    · exact hleaf _ rfl
  cases c with
  | application a =>
    refine h _ fun p hp ↦ ?_
    simp only [parts, List.mem_append, List.mem_map] at hp
    rcases hp with ⟨i, -, rfl⟩ | ⟨b, -, rfl⟩
    · exact hidentity i
    · exact hhandler b
  | handler a => exact hhandler a
  | identity i => exact hidentity i
  | route r => exact hleaf _ rfl
  | flag f => exact hleaf _ rfl

/-- The nodes are the component and those of its parts, one level deeper. -/
theorem nodes_eq (depth : Nat) (c : Component) :
    c.nodes depth = (depth, c) :: c.parts.flatMap (nodes (depth + 1)) := by
  rw [nodes, List.flatMap_subtype (g := nodes (depth + 1)) fun _ _ ↦ rfl, List.unattach_attach]

/-- A node is the component itself or a node of a part. -/
theorem hasNode_iff : c.HasNode n ↔ n = c ∨ ∃ p ∈ c.parts, p.HasNode n := by
  constructor
  · rintro (_ | ⟨hp, hn⟩)
    · exact Or.inl rfl
    · exact Or.inr ⟨_, hp, hn⟩
  · rintro (rfl | ⟨p, hp, hn⟩)
    · exact .self _
    · exact .part hp hn

/-- The nodes of a node are nodes of the component. -/
theorem HasNode.trans {m : Component} (hn : c.HasNode n) (hm : n.HasNode m) : c.HasNode m := by
  induction hn with
  | self => exact hm
  | part hp _ ih => exact .part hp (ih hm)

/-- Every node is listed. -/
theorem mem_nodes_iff (depth : Nat) : (∃ d, (d, n) ∈ c.nodes depth) ↔ c.HasNode n := by
  induction c using induction_parts generalizing depth with
  | h c ih =>
    rw [hasNode_iff, nodes_eq]
    simp only [List.mem_cons, Prod.mk.injEq, List.mem_flatMap, exists_or, exists_eq_left]
    refine or_congr Iff.rfl ⟨?_, ?_⟩
    · rintro ⟨d, p, hp, hn⟩
      exact ⟨p, hp, (ih p hp _).mp ⟨d, hn⟩⟩
    · rintro ⟨p, hp, hn⟩
      obtain ⟨d, hd⟩ := (ih p hp (depth + 1)).mpr hn
      exact ⟨d, p, hp, hd⟩

/-- A property of all nodes, by that of the component and those of its parts. -/
theorem forall_hasNode_iff {P : Component → Prop} :
    (∀ n, c.HasNode n → P n) ↔ P c ∧ ∀ p ∈ c.parts, ∀ n, p.HasNode n → P n := by
  simp only [hasNode_iff (c := c), or_imp, forall_and, forall_eq, exists_imp, and_imp]
  exact and_congr_right fun _ ↦ ⟨fun h p hp n hn ↦ h n p hp hn, fun h n p hp hn ↦ h p hp n hn⟩

/-- The parts of a normalized component are its normalized parts. -/
theorem parts_normalize (o : Options) (c : Component) :
    (c.normalize o).parts = c.parts.map (normalize o) := by
  cases c with
  | application a =>
    simp only [normalize, parts, Application.normalize, Entity.normalize, List.map_append,
      List.map_map]
    rfl
  | handler h =>
    simp only [normalize, parts, Handler.normalize, Entity.normalize, List.map_append,
      List.map_map]
    rfl
  | identity | route | flag => rfl

/-- The nodes of a normalized component are its normalized nodes. -/
theorem hasNode_normalize : (c.normalize o).HasNode n ↔ ∃ m, c.HasNode m ∧ m.normalize o = n := by
  induction c using induction_parts with
  | h c ih =>
    rw [hasNode_iff, parts_normalize]
    constructor
    · rintro (rfl | ⟨_, hmem, hn⟩)
      · exact ⟨c, .self c, rfl⟩
      · obtain ⟨p, hp, rfl⟩ := List.mem_map.mp hmem
        obtain ⟨m, hm, rfl⟩ := (ih p hp).mp hn
        exact ⟨m, .part hp hm, rfl⟩
    · rintro ⟨m, hm, rfl⟩
      rcases hasNode_iff.mp hm with rfl | ⟨p, hp, hm⟩
      · exact Or.inl rfl
      · exact Or.inr ⟨_, List.mem_map_of_mem hp, (ih p hp).mpr ⟨m, hm, rfl⟩⟩

/-- Normalization takes over the doubts about the parts. -/
theorem fidelity_normalize (o : Options) (c : Component) : (c.normalize o).fidelity =
    max c.fidelity (.unions (c.parts.map fun p ↦ (p.normalize o).fidelity)) := by
  cases c with
  | application a =>
    simp only [normalize, parts, Application.normalize, Entity.normalize, List.map_append,
      List.map_map, Fidelity.unions_append, ← Fidelity.max_assoc]
    rfl
  | handler h =>
    simp only [normalize, parts, Handler.normalize, Entity.normalize, List.map_append,
      List.map_map, Fidelity.unions_append, ← Fidelity.max_assoc]
    rfl
  | identity i => exact (Fidelity.max_comm _ _).trans (Fidelity.immaculate_max _) |>.symm
  | route r => exact (Fidelity.max_comm _ _).trans (Fidelity.immaculate_max _) |>.symm
  | flag f => exact (Fidelity.max_comm _ _).trans (Fidelity.immaculate_max _) |>.symm

/-- A normalized component is incomplete if one of its nodes was. -/
theorem incomplete_normalize :
    (c.normalize o).fidelity.incomplete ↔ ∃ n, c.HasNode n ∧ n.fidelity.incomplete := by
  induction c using induction_parts with
  | h c ih =>
    have hparts : (Fidelity.unions (c.parts.map fun p ↦ (p.normalize o).fidelity)).incomplete ↔
        ∃ p ∈ c.parts, ∃ n, p.HasNode n ∧ n.fidelity.incomplete := by
      simp only [Fidelity.incomplete_unions, List.any_map, List.any_eq_true, Function.comp_apply]
      exact exists_congr fun p ↦ and_congr_right fun hp ↦ ih p hp
    rw [fidelity_normalize, Fidelity.incomplete_max, Bool.or_eq_true, hparts]
    constructor
    · rintro (hc | ⟨p, hp, n, hn, hinc⟩)
      · exact ⟨c, .self c, hc⟩
      · exact ⟨n, .part hp hn, hinc⟩
    · rintro ⟨n, hn, hinc⟩
      rcases hasNode_iff.mp hn with rfl | ⟨p, hp, hn⟩
      · exact Or.inl hinc
      · exact Or.inr ⟨p, hp, n, hn, hinc⟩

end Wiring.Config.Component
