import Wiring.Proofs.Text.Blocks

/-!
# Texts in pieces

A text may be printed line by line, the indentation being written when the first piece of a line
arrives that is not empty. Where the text is cut does not matter: the outline is the same after the
pieces as after the whole text, its levels and their bullets included.
-/

namespace Wiring.Text.Outline

/-- Write what is left of a line, without its end. An empty piece does not begin the line. -/
def putLine (o : Outline) (line : String) : Outline :=
  if line = "" then o
  else
    let o := if o.atLineStart then o.beginLine else o
    { o with text := o.text ++ line }

/-- End a line; the next piece begins one. -/
def endLine (o : Outline) : Outline := { o with text := o.text.push '\n', atLineStart := true }

/-- Write a text line by line. -/
def printLines (o : Outline) (s : String) : Outline :=
  match lines s with
  | [] => o
  | line :: rest => rest.foldl (fun o line ↦ o.endLine.putLine line) (o.putLine line)

/-- What is done with an outline. A text arrives in pieces. -/
inductive Action where
  | indent
  | indentBullet
  | dedent
  | write (pieces : List String)
  deriving DecidableEq, Repr

/-- Do it, printing the pieces one by one and each line by line. -/
def Action.inPieces (o : Outline) : Action → Outline
  | indent => o.indent
  | indentBullet => o.indentBullet
  | dedent => o.dedent
  | write pieces => pieces.foldl printLines o

/-- Do it, printing the whole text. -/
def Action.atOnce (o : Outline) : Action → Outline
  | indent => o.indent
  | indentBullet => o.indentBullet
  | dedent => o.dedent
  | write pieces => o.print (String.join pieces)

variable {o : Outline} {s : String}

/-- In a line that has begun, text is written as it is. -/
theorem foldl_put_of_begun {cs : List Char} (hcs : '\n' ∉ cs) (ho : o.atLineStart = false) :
    cs.foldl put o = { o with text := o.text ++ String.ofList cs } := by
  induction cs generalizing o with
  | nil => simp
  | cons c cs ih =>
    rw [List.mem_cons, not_or] at hcs
    have hput : put o c = { o with text := o.text.push c } := by
      simp [put, Ne.symm hcs.1, ho]
    have htext : o.text.push c ++ String.ofList cs = o.text ++ String.ofList (c :: cs) := by
      apply String.toList_injective
      simp
    rw [List.foldl_cons, hput, ih (o := { o with text := o.text.push c }) hcs.2 ho, htext]

/-- Characters of a line begin it once, before the first of them. -/
theorem print_of_notMem (o : Outline) (hs : '\n' ∉ s.toList) : o.print s = o.putLine s := by
  unfold print putLine
  cases hcs : s.toList with
  | nil =>
    rw [if_pos (String.toList_eq_nil_iff.mp hcs)]
    rfl
  | cons c cs =>
    have hne : s ≠ "" := fun h ↦ by simp [h] at hcs
    rw [hcs, List.mem_cons, not_or] at hs
    -- the line is as it is after its first character, but for the text
    let begun : Outline := if o.atLineStart then o.beginLine else o
    have hbegun : begun.atLineStart = false := by
      cases h : o.atLineStart <;> simp [begun, beginLine, h]
    have hput : put o c = { begun with text := begun.text.push c } := by
      simp [put, Ne.symm hs.1, begun]
    have htext : begun.text.push c ++ String.ofList cs = begun.text ++ s := by
      apply String.toList_injective
      simp [hcs]
    rw [List.foldl_cons, hput, if_neg hne,
      foldl_put_of_begun (o := { begun with text := begun.text.push c }) hs.2 hbegun, htext]

theorem print_newline (o : Outline) : o.print "\n" = o.endLine := rfl

theorem print_intercalate {line : String} {rest : List String}
    (h : ∀ l ∈ line :: rest, '\n' ∉ l.toList) (o : Outline) :
    o.print ("\n".intercalate (line :: rest)) =
      rest.foldl (fun o line ↦ o.endLine.putLine line) (o.putLine line) := by
  induction rest generalizing o line with
  | nil =>
    rw [String.intercalate_singleton]
    exact print_of_notMem o (h line (by simp))
  | cons next rest ih =>
    rw [List.forall_mem_cons] at h
    rw [String.intercalate_cons_of_ne_nil (by simp), ← print_print, ← print_print, ih h.2,
      print_of_notMem o h.1, print_newline, List.foldl_cons]

/-- Printing character by character is printing line by line. -/
theorem print_eq_printLines (o : Outline) (s : String) : o.print s = o.printLines s := by
  unfold printLines
  cases hls : lines s with
  | nil => simp [lines] at hls
  | cons line rest =>
    have hmem (l : String) (hl : l ∈ line :: rest) : '\n' ∉ l.toList :=
      notMem_of_mem_lines (s := s) (hls ▸ hl)
    calc o.print s
        = o.print ("\n".intercalate (line :: rest)) := by rw [← hls, intercalate_lines]
      _ = _ := print_intercalate hmem o

theorem printLines_printLines (o : Outline) (s t : String) :
    (o.printLines s).printLines t = o.printLines (s ++ t) := by
  rw [← print_eq_printLines, ← print_eq_printLines, ← print_eq_printLines, print_print]

theorem foldl_printLines (o : Outline) (pieces : List String) :
    pieces.foldl printLines o = o.printLines (String.join pieces) := by
  induction pieces generalizing o with
  | nil => rw [← print_eq_printLines]; rfl
  | cons s pieces ih => rw [List.foldl_cons, ih, printLines_printLines, String.join_cons]

/-- An action comes to the same in pieces and at once. -/
theorem Action.inPieces_eq (o : Outline) (a : Action) : a.inPieces o = a.atOnce o := by
  cases a with
  | write pieces => exact (foldl_printLines o pieces).trans (print_eq_printLines o _).symm
  | indent | indentBullet | dedent => rfl

/-- Where a text is cut does not matter, in whatever state the outline is. Printing line by line
does what printing character by character does; two texts printed one after the other leave the
outline that the one text made of them leaves, and so do any number of pieces, empty ones and parts
of lines included; so whole reports that are written in pieces are as if each text had been printed
at once. -/
theorem print_of_pieces (o : Outline) :
    (∀ s, o.print s = o.printLines s) ∧
    (∀ s t, (o.printLines s).printLines t = o.printLines (s ++ t)) ∧
    (∀ pieces : List String, pieces.foldl printLines o = o.printLines (String.join pieces)) ∧
    ∀ actions : List Action,
      actions.foldl Action.inPieces o = actions.foldl Action.atOnce o := by
  refine ⟨print_eq_printLines o, printLines_printLines o, foldl_printLines o, fun actions ↦ ?_⟩
  induction actions generalizing o with
  | nil => rfl
  | cons a actions ih => rw [List.foldl_cons, List.foldl_cons, a.inPieces_eq, ih]

example : [Action.write ["a", "\n"], .indentBullet, .write ["", "b", "c\n", "", "\nd"]].foldl
    Action.inPieces .empty = ⟨"a\n- bc\n\n  d", [⟨true, true⟩], false⟩ := by decide

end Wiring.Text.Outline
