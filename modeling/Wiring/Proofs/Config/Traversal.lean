import Mathlib.Data.List.Basic
import Wiring.Proofs.Config.Node

/-!
# Traversals of component trees

Each kind of component goes through its parts in two ways of its own, to collect findings and to
write details. Both ways come to the same parts in the same order, and so to the same nodes.
-/

namespace Wiring.Config

open Reportable (findings headline writeDetails writeEach)
open Wiring.Text (Outline)

theorem collectOwn_eq (descriptor : String) (problems : List Problem) (found : List Finding) :
    collectOwn descriptor problems found = found ++ problems.map (⟨descriptor, ·⟩) := by
  induction problems generalizing found with
  | nil => exact (List.append_nil found).symm
  | cons p problems ih =>
    rw [List.map_cons, List.append_cons, ← ih]
    rfl

section Each

variable {α : Type} {descriptor : α → String} {problems : α → List Problem}

/-- Components that are gone through one after another add their own findings in this order. -/
theorem foldl_collectOwn_eq (l : List α) (found : List Finding) :
    l.foldl (fun found a ↦ collectOwn (descriptor a) (problems a) found) found =
      found ++ l.flatMap fun a ↦ (problems a).map (⟨descriptor a, ·⟩) := by
  induction l generalizing found with
  | nil => exact (List.append_nil found).symm
  | cons a l ih => rw [List.foldl_cons, ih, collectOwn_eq, List.flatMap_cons, List.append_assoc]

end Each

theorem Entity.collect_eq (descriptor : String) (e : Entity) (found : List Finding) :
    e.collect descriptor found = found ++ (e.problems.map (⟨descriptor, ·⟩) ++
      e.identities.flatMap fun i ↦ i.problems.map (⟨i.descriptor, ·⟩)) := by
  rw [collect, foldl_collectOwn_eq, collectOwn_eq, List.append_assoc]

theorem Handler.collect_eq (h : Handler) (found : List Finding) :
    h.collect found = found ++ findings h := by
  change h.collect found = found ++ h.collect []
  simp only [collect, foldl_collectOwn_eq, Entity.collect_eq, List.append_assoc, List.nil_append]

theorem Application.collect_eq (a : Application) (found : List Finding) : a.collect found =
    found ++ (a.toEntity.collect a.descriptor [] ++ a.handlers.flatMap findings) := by
  have hhandlers (l : List Handler) (found : List Finding) :
      l.foldl (fun found h ↦ h.collect found) found = found ++ l.flatMap findings := by
    induction l generalizing found with
    | nil => exact (List.append_nil found).symm
    | cons h l ih =>
      rw [List.foldl_cons, ih, Handler.collect_eq, List.flatMap_cons, List.append_assoc]
  simp only [collect, hhandlers, Entity.collect_eq, List.append_assoc, List.nil_append]

namespace Component

/-- The findings about a component are its own problems, then the findings about its parts. -/
theorem findings_eq (c : Component) :
    findings c = c.problems.map (⟨c.descriptor, ·⟩) ++ c.parts.flatMap findings := by
  have hleaf {d : String} {l : List Problem} : collectOwn d l [] = l.map (⟨d, ·⟩) :=
    collectOwn_eq d l []
  have hleaves {α : Type} {f : α → Component} {own : α → List Finding}
      (hf : ∀ a, findings (f a) = own a) (l : List α) :
      (l.map f).flatMap findings = l.flatMap own := by
    rw [List.flatMap_map]
    exact List.flatMap_congr fun a _ ↦ hf a
  have hidentities := hleaves (f := identity) fun _ ↦ hleaf
  cases c with
  | application a =>
    change a.collect [] = _
    rw [Application.collect_eq, Entity.collect_eq, parts, List.flatMap_append, hidentities,
      hleaves (f := handler) fun _ ↦ rfl, List.nil_append, List.nil_append, List.append_assoc]
    rfl
  | handler h =>
    change h.collect [] = _
    simp only [Handler.collect, foldl_collectOwn_eq, Entity.collect_eq, parts,
      List.flatMap_append, hidentities, hleaves (f := route) fun _ ↦ hleaf,
      hleaves (f := flag) fun _ ↦ hleaf, List.append_assoc]
    rfl
  | identity | route | flag => exact hleaf.trans (List.append_nil _).symm

/-- The details of the parts are written one block after the other. -/
theorem writeParts_eq (c : Component) (o : Outline) :
    Reportable.writeParts c o = writeEach c.parts o := by
  have hmap {α : Type} [Reportable α] (f : α → Component)
      (hf : ∀ a o, writeDetails (f a) o = writeDetails a o) (l : List α) (o : Outline) :
      writeEach (l.map f) o = writeEach l o := by
    simp only [writeEach, List.foldl_map, hf]
  have happend (l l' : List Component) (o : Outline) :
      writeEach (l ++ l') o = writeEach l' (writeEach l o) := List.foldl_append
  cases c with
  | application a =>
    rw [parts, happend, hmap identity fun _ _ ↦ rfl, hmap handler fun _ _ ↦ rfl]
    rfl
  | handler h =>
    rw [parts, happend, happend, hmap identity fun _ _ ↦ rfl, hmap route fun _ _ ↦ rfl,
      hmap flag fun _ _ ↦ rfl]
    rfl
  | identity | route | flag => rfl

/-- The details of a component are its headline, a bullet for each of its own problems, and the
details of its parts. -/
theorem writeDetails_eq (c : Component) (o : Outline) : writeDetails c o = writeEach c.parts
    (c.problems.foldl (fun o p ↦ o.printBullet (p.text ++ "\n")) (o.print (headline c))) :=
  writeParts_eq c _

/-- The findings about a component are the problems of its nodes, each with its node, in the order
of the nodes. -/
theorem findings_eq_nodes (depth : Nat) (c : Component) : findings c =
    (c.nodes depth).flatMap fun n ↦ n.2.problems.map (⟨n.2.descriptor, ·⟩) := by
  induction c using induction_parts generalizing depth with
  | h c ih =>
    rw [findings_eq, nodes_eq, List.flatMap_cons, List.flatMap_assoc]
    exact congrArg _ (List.flatMap_congr fun p hp ↦ ih p hp (depth + 1))

end Component
end Wiring.Config
