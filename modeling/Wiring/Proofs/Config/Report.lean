import Wiring.Proofs.Config.Validity
import Wiring.Proofs.Text.Indentation

/-!
# Reports

The details of a component are passages, of which there is one for each node and one for each of its
problems. So a report and a validation go through the same nodes and name the same problems.
-/

namespace Wiring.Config

open Reportable (findings headline report verdict writeDetails writeEach)
open Wiring.Text (bulleted bulletMargin margin opensWithText opensWithText_append Outline)

/-- A passage of a report, so many levels deep. -/
inductive Passage where
  /-- The line about a node. -/
  | headline (depth : Nat) (n : Component)
  /-- The bullet for a problem. -/
  | bullet (depth : Nat) (f : Finding)

namespace Passage

/-- How deep the passage is. -/
def depth : Passage → Nat
  | headline depth _ | bullet depth _ => depth

/-- What the passage says, up to its end of line. -/
def words : Passage → String
  | headline _ n =>
    verdict n ++ (if n.fidelity.speculative then " speculative" else "") ++ " " ++
      n.descriptor
  | bullet _ f => f.problem.text

/-- The passage as it is printed. -/
def text (p : Passage) : String := bulleted p.depth (p.words ++ "\n")

end Passage

/-- What a problem is called does not begin with an empty line. -/
theorem Problem.opensWithText_text (p : Problem) : opensWithText p.text := by
  unfold text
  cases p <;> (repeat with_reducible apply opensWithText_append) <;> decide

theorem Component.verdict_cases (c : Component) :
    verdict c = "invalid" ∨ verdict c = "incomplete" ∨ verdict c = "valid" := by
  unfold verdict
  split_ifs <;> simp

namespace Component

/-- The passages of a report about a component that is so many levels deep. -/
def passages (depth : Nat) (c : Component) : List Passage :=
  (c.nodes depth).flatMap fun n ↦
    .headline n.1 n.2 :: n.2.problems.map fun p ↦ .bullet (n.1 + 1) ⟨n.2.descriptor, p⟩

variable {c n : Component}

theorem headline_eq (depth : Nat) (c : Component) :
    headline c = (Passage.headline depth c).words ++ "\n" := rfl

theorem opensWithText_headline (depth : Nat) (c : Component) :
    opensWithText (Passage.headline depth c).words := by
  unfold Passage.words
  refine opensWithText_append (opensWithText_append (opensWithText_append ?_))
  rcases c.verdict_cases with h | h | h <;> rw [h] <;> decide

/-- Problems are printed one bullet after the other. -/
theorem foldl_printBullet (t descriptor : String) (depth : Nat) (problems : List Problem) :
    problems.foldl (fun o p ↦ o.printBullet (p.text ++ "\n"))
        (Outline.mk t (Outline.marked depth) true) =
      ⟨t ++ String.join (problems.map fun p ↦ (Passage.bullet (depth + 1) ⟨descriptor, p⟩).text),
        Outline.marked depth, true⟩ := by
  induction problems generalizing t with
  | nil => simp
  | cons p problems ih =>
    have hp : Outline.printBullet ⟨t, Outline.marked depth, true⟩ (p.text ++ "\n") =
        ⟨t ++ (Passage.bullet (depth + 1) ⟨descriptor, p⟩).text, Outline.marked depth, true⟩ := by
      unfold Outline.printBullet
      rw [Outline.indentBullet_marked, Outline.print_unmarked t _ p.opensWithText_text,
        Outline.dedent_marked]
      rfl
    rw [List.foldl_cons, hp, ih, List.map_cons, String.join_cons, String.append_assoc]

/-- The passages about a component are its headline and bullets, and the passages about its parts
one level deeper. -/
theorem passages_eq (depth : Nat) (c : Component) : c.passages depth =
    .headline depth c :: (c.problems.map fun p ↦ .bullet (depth + 1) ⟨c.descriptor, p⟩) ++
      c.parts.flatMap (passages (depth + 1)) := by
  unfold passages
  rw [nodes_eq, List.flatMap_cons, List.flatMap_assoc]

/-- What is written about a component is its passages. -/
theorem writeDetails_eq_passages (t : String) (depth : Nat) (c : Component) :
    writeDetails c ⟨t, Outline.unmarked depth, true⟩ =
      ⟨t ++ String.join ((c.passages depth).map Passage.text), Outline.marked depth, true⟩ := by
  induction c using induction_parts generalizing t depth with
  | h c ih =>
    have hparts (l : List Component) (hl : ∀ p ∈ l, p ∈ c.parts) (t : String) :
        writeEach l ⟨t, Outline.marked depth, true⟩ =
          ⟨t ++ String.join ((l.flatMap (passages (depth + 1))).map Passage.text),
            Outline.marked depth, true⟩ := by
      induction l generalizing t with
      | nil => simp [writeEach]
      | cons p l ihl =>
        rw [List.forall_mem_cons] at hl
        rw [writeEach, List.foldl_cons, Outline.indentBullet_marked,
          ih p hl.1, Outline.dedent_marked, ← writeEach, ihl hl.2, List.flatMap_cons, List.map_append,
          String.join_append, String.append_assoc]
    rw [writeDetails_eq, headline_eq depth,
      Outline.print_unmarked t depth (opensWithText_headline depth c),
      foldl_printBullet _ c.descriptor, hparts _ fun _ hp ↦ hp, passages_eq]
    simp only [List.cons_append, List.map_cons, List.map_append, List.map_map, String.join_cons,
      String.join_append, String.append_assoc]
    rfl

/-- The findings of plain validation, in their order. -/
def found (c : Component) : List Finding :=
  match c.validate .default with
  | .ok () => []
  | .error f => f.all

end Component
end Wiring.Config
