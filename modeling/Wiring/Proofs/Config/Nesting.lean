import Mathlib.Logic.Function.Iterate
import Wiring.Proofs.Config.Report
import Wiring.Proofs.Text.Blocks

/-!
# Nested reports

The report about a component is its headline, a bullet for each of its problems, and as a bullet for
each of its parts the report about that part alone. So a report can be read part by part: whatever
it says about a node, at any depth, is what the report about the node says, moved to the right.
-/

namespace Wiring.Config

open Reportable (headline report writeDetails writeEach)
open Wiring.Text (bullet shifted bulleted bulleted_succ hang_empty IsBlock Outline)

theorem Problem.isBlock_text (p : Problem) : IsBlock (p.text ++ "\n") :=
  ⟨p.text, p.opensWithText_text, rfl⟩

namespace Component

variable {c n : Component}

theorem isBlock_headline (c : Component) : IsBlock (headline c) :=
  ⟨_, opensWithText_headline 0 c, headline_eq 0 c⟩

/-- The headline of a component, the bullets for its problems, and the bulleted reports about its
parts. -/
def outlined (c : Component) : String :=
  headline c ++ String.join (c.problems.map fun p ↦ bullet (p.text ++ "\n")) ++
    String.join (c.parts.map fun p ↦ bullet (report p))

theorem isBlock_outlined (h : ∀ p ∈ c.parts, IsBlock (report p)) : IsBlock c.outlined := by
  have hproblems : ∀ s ∈ c.problems.map fun p ↦ bullet (p.text ++ "\n"), IsBlock s :=
    List.forall_mem_map.mpr fun p _ ↦ p.isBlock_text.bullet
  have hparts : ∀ s ∈ c.parts.map fun p ↦ bullet (report p), IsBlock s :=
    List.forall_mem_map.mpr fun p hp ↦ (h p hp).bullet
  exact (c.isBlock_headline.append_join hproblems).append_join hparts

/-- Parts are written one bullet after the other, if writing about each is printing the report about
it. -/
theorem writeEach_eq {l : List Component} (hblock : ∀ p ∈ l, IsBlock (report p))
    (hprint : ∀ p ∈ l, ∀ o : Outline, o.atLineStart = true →
      writeDetails p o = o.print (report p)) {o : Outline} (ho : o.Settled) :
    writeEach l o =
      (l.map report).foldl Outline.printBullet o := by
  induction l generalizing o with
  | nil => rfl
  | cons p l ih =>
    rw [List.forall_mem_cons] at hblock hprint
    have hsettled : (o.printBullet (report p)).Settled := by
      rw [ho.printBullet_eq hblock.1]
      exact Outline.settled_print ho.atLineStart hblock.1.bullet
    rw [writeEach, List.foldl_cons, hprint.1 o.indentBullet ho.atLineStart, List.map_cons,
      List.foldl_cons]
    exact ih hblock.2 hprint.2 hsettled

/-- What is written about a component at the beginning of a line is printed as one text, which is
the report about it and consists of the reports about its parts. -/
theorem details_eq_outlined (c : Component) :
    IsBlock (report c) ∧ report c = c.outlined ∧
      ∀ o : Outline, o.atLineStart = true →
        writeDetails c o = o.print (report c) := by
  induction c using induction_parts with
  | h c ih =>
    have hproblems : ∀ s ∈ c.problems.map fun p ↦ p.text ++ "\n", IsBlock s :=
      List.forall_mem_map.mpr fun p _ ↦ p.isBlock_text
    have hparts : ∀ s ∈ c.parts.map report, IsBlock s :=
      List.forall_mem_map.mpr fun p hp ↦ (ih p hp).1
    have hblock : IsBlock c.outlined := isBlock_outlined fun p hp ↦ (ih p hp).1
    have hwrite (o : Outline) (ho : o.atLineStart = true) :
        writeDetails c o = o.print c.outlined := by
      -- the outline after the headline, and after the problems
      let o₁ := o.print (headline c)
      let o₂ := o₁.print (String.join (c.problems.map fun p ↦ bullet (p.text ++ "\n")))
      obtain ⟨hprinted, hsettled⟩ :=
        (Outline.settled_print ho c.isBlock_headline).foldl_printBullet hproblems
      rw [List.map_map, List.foldl_map] at hprinted
      rw [List.foldl_map, hprinted] at hsettled
      have hsettled : o₂.Settled := hsettled
      calc writeDetails c o
          = writeEach c.parts
              (c.problems.foldl (fun o p ↦ o.printBullet (p.text ++ "\n")) o₁) :=
            writeDetails_eq c o
        _ = writeEach c.parts o₂ := congrArg _ hprinted
        _ = (c.parts.map report).foldl Outline.printBullet o₂ :=
            writeEach_eq (fun p hp ↦ (ih p hp).1) (fun p hp ↦ (ih p hp).2.2) hsettled
        _ = o₂.print (String.join (c.parts.map fun p ↦ bullet (report p))) := by
            rw [(hsettled.foldl_printBullet hparts).1, List.map_map]
            rfl
        _ = o.print c.outlined := by
            rw [Outline.print_print, Outline.print_print, ← String.append_assoc]
            rfl
    have hreport : report c = c.outlined := by
      unfold report
      rw [hwrite .empty rfl, Outline.print_block rfl hblock]
      exact (String.empty_append).trans (hang_empty _)
    rw [hreport]
    exact ⟨hblock, rfl, hwrite⟩

/-- The passages of a report about a node are among those of the report about the whole. -/
theorem passages_infix {depth d : Nat} (h : (d, n) ∈ c.nodes depth) :
    n.passages d <:+: c.passages depth := by
  induction c using induction_parts generalizing depth with
  | h c ih =>
    rw [nodes_eq, List.mem_cons] at h
    rcases h with h | h
    · obtain ⟨rfl, rfl⟩ := Prod.mk.inj h
      exact List.infix_rfl
    · obtain ⟨p, hp, hn⟩ := List.mem_flatMap.mp h
      have hpart : p.passages (depth + 1) <:+: (c.parts.map (passages (depth + 1))).flatten :=
        List.infix_of_mem_flatten (List.mem_map_of_mem hp)
      rw [passages_eq depth c, List.flatMap_def]
      exact (ih p hp hn).trans (hpart.trans (List.suffix_append _ _).isInfix)

/-- The passages of a report are the report, so many levels deep. -/
theorem join_passages (depth : Nat) (c : Component) :
    String.join ((c.passages depth).map Passage.text) = bulleted depth (report c) := by
  obtain ⟨hblock, -, hprint⟩ := c.details_eq_outlined
  have hwritten := congrArg Outline.text (writeDetails_eq_passages "" depth c)
  rw [hprint _ rfl, Outline.print_block rfl hblock] at hwritten
  simpa [bulleted, Outline.columns_unmarked, Outline.columns_marked,
    Outline.map_indented_unmarked] using hwritten.symm

/-- The report about a component is its headline, followed by the bullets for its problems and by
the bulleted reports about its parts. So what it says about any of its nodes is what the report
about the node says, as a bullet that is moved to the right. -/
theorem details_nest (c : Component) :
    report c =
        headline c ++ String.join (c.problems.map fun p ↦ bullet (p.text ++ "\n")) ++
          String.join (c.parts.map fun p ↦ bullet (report p)) ∧
      ∀ depth n, (depth + 1, n) ∈ c.nodes 0 → ∃ before after,
        report c = before ++ shifted^[depth] (bullet (report n)) ++ after := by
  refine ⟨c.details_eq_outlined.2.1, fun depth n hn ↦ ?_⟩
  obtain ⟨before, after, hpassages⟩ := passages_infix hn
  refine ⟨String.join (before.map Passage.text), String.join (after.map Passage.text), ?_⟩
  have hreport : bulleted 0 (report c) = report c := hang_empty _
  rw [← bulleted_succ, ← join_passages, ← String.join_append, ← String.join_append,
    ← List.map_append, ← List.map_append, hpassages, join_passages, hreport]

end Component
end Wiring.Config
