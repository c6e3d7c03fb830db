import Mathlib.Logic.Function.Iterate
import Wiring.Proofs.Text.Indentation

/-!
# Blocks of lines

What printing to an outline comes to, said of lines: columns are put in front of the lines that are
not empty. Columns in front of columns add up, so a bulleted level that is opened around a text does
what putting a bullet in front of the text does before it is printed.
-/

namespace Wiring.Text

/-- The lines of a text. The last one is what follows the last line end. -/
def lines (s : String) : List String := (s.toList.splitOn '\n').map String.ofList

/-- The lines with `first` in front of the first one that is not empty, and `later` in front of the
other such lines. -/
def hangLines (first later : String) : List String → List String
  | [] => []
  | line :: rest =>
    if line = "" then line :: hangLines first later rest
    else (first ++ line) :: hangLines later later rest

/-- The text as a bullet: a dash in front of its first line that is not empty, and blanks in front
of the other such lines. -/
def bullet (s : String) : String := "\n".intercalate (hangLines "- " "  " (lines s))

/-- The text with blanks in front of the lines that are not empty. -/
def shifted (s : String) : String := "\n".intercalate (hangLines "  " "  " (lines s))

/-- A text is its lines. -/
theorem intercalate_lines (s : String) : "\n".intercalate (lines s) = s := by
  apply String.toList_injective
  rw [String.toList_intercalate, lines, List.map_map]
  have hid : String.toList ∘ String.ofList = id := funext fun l ↦ String.toList_ofList
  rw [hid, List.map_id]
  exact List.intercalate_splitOn '\n'

/-- No line has a line end in it. -/
theorem notMem_of_mem_lines {s line : String} (h : line ∈ lines s) : '\n' ∉ line.toList := by
  have hsplit (cs : List Char) : ∀ l ∈ cs.splitOn '\n', '\n' ∉ l := by
    induction cs with
    | nil => simp
    | cons c cs ih =>
      rw [List.splitOn_cons_eq_if_modifyHead]
      split
      · simpa using ih
      · next hc =>
        cases hcs : cs.splitOn '\n' with
        | nil => simp
        | cons l ls =>
          rw [hcs, List.forall_mem_cons] at ih
          rw [List.modifyHead_cons, List.forall_mem_cons, List.mem_cons, not_or]
          exact ⟨⟨fun h ↦ hc (beq_iff_eq.mpr h.symm), ih.1⟩, ih.2⟩
  obtain ⟨l, hl, rfl⟩ := List.mem_map.mp h
  rw [String.toList_ofList]
  exact hsplit _ l hl

theorem hangLines_ne_nil {first later : String} {ls : List String} (h : ls ≠ []) :
    hangLines first later ls ≠ [] := by
  cases ls with
  | nil => exact absurd rfl h
  | cons s ls =>
    unfold hangLines
    split <;> simp

/-- The first line gets the first columns, unless it is empty. -/
theorem hang_line {first later s : String} (h : '\n' ∉ s.toList) (t : String) :
    hang first later (s ++ "\n" ++ t) =
      if s = "" then s ++ "\n" ++ hang first later t
      else first ++ s ++ "\n" ++ hang later later t := by
  apply String.toList_injective
  split
  · next hs =>
    subst hs
    simp [hang, indentFrom]
  · next hs =>
    rw [String.append_assoc, toList_hang_append hs h]
    simp [hang, indentFrom]

/-- Columns are put in front of the lines of a text. -/
theorem hang_intercalate {ls : List String} (h : ∀ line ∈ ls, '\n' ∉ line.toList)
    (first later : String) :
    hang first later ("\n".intercalate ls) = "\n".intercalate (hangLines first later ls) := by
  induction ls generalizing first with
  | nil => rfl
  | cons s ls ih =>
    rw [List.forall_mem_cons] at h
    by_cases hls : ls = []
    · subst hls
      by_cases hs : s = ""
      · subst hs
        simp [hang, indentFrom, hangLines]
      · have hline : (hang first later (s ++ "")).toList = _ := toList_hang_append hs h.1
        apply String.toList_injective
        simpa [hangLines, hs, indentFrom] using hline
    · rw [String.intercalate_cons_of_ne_nil hls, hang_line h.1, hangLines]
      split
      · rw [String.intercalate_cons_of_ne_nil (hangLines_ne_nil hls), ih h.2]
      · rw [String.intercalate_cons_of_ne_nil (hangLines_ne_nil hls), ih h.2]

theorem hang_eq (first later s : String) :
    hang first later s = "\n".intercalate (hangLines first later (lines s)) := by
  calc hang first later s
      = hang first later ("\n".intercalate (lines s)) := by rw [intercalate_lines]
    _ = _ := hang_intercalate (fun _ ↦ notMem_of_mem_lines) first later

theorem hang_bullet (s : String) : hang "- " "  " s = bullet s := hang_eq ..

example : bullet "\na\n\nb\n" = "\n- a\n\n  b\n" := by decide

theorem hang_shifted (s : String) : hang "  " "  " s = shifted s := hang_eq ..

theorem hangLines_hangLines (first later first' later' : String) (ls : List String) :
    hangLines first later (hangLines first' later' ls) =
      hangLines (first ++ first') (later ++ later') ls := by
  induction ls generalizing first first' with
  | nil => rfl
  | cons s ls ih =>
    by_cases hs : s = ""
    · rw [hangLines, if_pos hs, hangLines, if_pos hs, hangLines, if_pos hs, ih]
    · have hne : first' ++ s ≠ "" := fun h ↦ hs (String.append_eq_empty_iff.mp h).2
      rw [hangLines, if_neg hs, hangLines, if_neg hne, hangLines, if_neg hs, ih,
        String.append_assoc]

theorem notMem_of_mem_hangLines {first later : String} (hfirst : '\n' ∉ first.toList)
    (hlater : '\n' ∉ later.toList) {ls : List String} (h : ∀ line ∈ ls, '\n' ∉ line.toList) :
    ∀ line ∈ hangLines first later ls, '\n' ∉ line.toList := by
  induction ls generalizing first with
  | nil => simp [hangLines]
  | cons s ls ih =>
    rw [List.forall_mem_cons] at h
    unfold hangLines
    split
    · rw [List.forall_mem_cons]
      exact ⟨h.1, ih hfirst h.2⟩
    · rw [List.forall_mem_cons, String.toList_append, List.mem_append, not_or]
      exact ⟨⟨hfirst, h.1⟩, ih hlater h.2⟩

/-- Columns in front of columns add up. -/
theorem hang_hang {first' later' : String} (hfirst : '\n' ∉ first'.toList)
    (hlater : '\n' ∉ later'.toList) (first later s : String) :
    hang first later (hang first' later' s) = hang (first ++ first') (later ++ later') s := by
  have hlines : ∀ line ∈ hangLines first' later' (lines s), '\n' ∉ line.toList :=
    notMem_of_mem_hangLines hfirst hlater fun _ ↦ notMem_of_mem_lines
  rw [hang_eq first', hang_intercalate hlines, hangLines_hangLines, hang_eq]

theorem hang_empty (s : String) : hang "" "" s = s := by
  have hid (ls : List String) : hangLines "" "" ls = ls := by
    induction ls with
    | nil => rfl
    | cons s ls ih => simp [hangLines, ih]
  rw [hang_eq, hid, intercalate_lines]

theorem margin_succ (depth : Nat) : margin (depth + 1) = margin depth ++ "  " := by
  unfold margin
  rw [List.replicate_succ', String.join_append]
  rfl

/-- A text that is moved to the right several times has that many columns in front. -/
theorem iterate_shifted (depth : Nat) (s : String) :
    shifted^[depth] s = hang (margin depth) (margin depth) s := by
  induction depth generalizing s with
  | zero => exact (hang_empty s).symm
  | succ depth ih =>
    rw [Function.iterate_succ_apply, ih, ← hang_shifted, hang_hang (by decide) (by decide),
      margin_succ]

/-- A text inside bulleted levels is the bullet, moved to the right. -/
theorem bulleted_succ (depth : Nat) (s : String) :
    bulleted (depth + 1) s = shifted^[depth] (bullet s) := by
  rw [iterate_shifted, ← hang_bullet, hang_hang (by decide) (by decide), ← margin_succ]
  rfl

/-- A text that does not begin with an empty line and ends its last line. -/
def IsBlock (s : String) : Prop := ∃ x, opensWithText x ∧ s = x ++ "\n"

theorem IsBlock.append {s t : String} (hs : IsBlock s) (ht : IsBlock t) : IsBlock (s ++ t) := by
  obtain ⟨x, hx, rfl⟩ := hs
  obtain ⟨y, -, rfl⟩ := ht
  refine ⟨x ++ "\n" ++ y, opensWithText_append (opensWithText_append hx), ?_⟩
  simp only [String.append_assoc]

theorem IsBlock.append_join {s : String} {ts : List String} (hs : IsBlock s)
    (hts : ∀ t ∈ ts, IsBlock t) : IsBlock (s ++ String.join ts) := by
  induction ts generalizing s with
  | nil => simpa using hs
  | cons t ts ih =>
    rw [List.forall_mem_cons] at hts
    rw [String.join_cons, ← String.append_assoc]
    exact ih (hs.append hts.1) hts.2

theorem hang_append_newline (first later s : String) :
    hang first later (s ++ "\n") = hang first later s ++ "\n" := by
  have hchars (cs : List Char) (atLineStart : Bool) (first : String) :
      indentFrom atLineStart first later (cs ++ ['\n']) =
        indentFrom atLineStart first later cs ++ ['\n'] := by
    induction cs generalizing atLineStart first with
    | nil => simp [indentFrom]
    | cons c cs ih =>
      rw [List.cons_append, indentFrom, indentFrom]
      split
      · rw [ih, List.cons_append]
      · split
        · rw [ih, List.append_assoc, List.cons_append]
        · rw [ih, List.cons_append]
  apply String.toList_injective
  simpa [hang] using hchars s.toList true first

/-- The bullet of a block is a block. -/
theorem IsBlock.bullet {s : String} (hs : IsBlock s) : IsBlock (bullet s) := by
  obtain ⟨x, hx, rfl⟩ := hs
  refine ⟨hang "- " "  " x, ?_, by rw [← hang_bullet, hang_append_newline]⟩
  unfold opensWithText at hx ⊢
  unfold hang
  rw [String.toList_ofList]
  cases hl : x.toList with
  | nil => simp [hl] at hx
  | cons c l =>
    have hc : c ≠ '\n' := by simpa [hl] using hx
    simp [indentFrom, hc]

namespace Outline

theorem print_print (o : Outline) (s t : String) : (o.print s).print t = o.print (s ++ t) := by
  unfold print
  rw [String.toList_append, List.foldl_append]

/-- The next character begins a line, and the levels have their bullets. -/
structure Settled (o : Outline) : Prop where
  atLineStart : o.atLineStart = true
  levels : o.levels.map .indented = o.levels

variable {o : Outline} {s : String}

/-- A block is printed behind the columns of the levels, and these have their bullets then. -/
theorem print_block (ho : o.atLineStart = true) (hs : IsBlock s) :
    o.print s = ⟨o.text ++ hang (columns o.levels) (columns (o.levels.map .indented)) s,
      o.levels.map .indented, true⟩ := by
  obtain ⟨x, hx, rfl⟩ := hs
  obtain ⟨t, levels, _⟩ := o
  cases ho
  exact print_line t levels hx

theorem settled_print (ho : o.atLineStart = true) (hs : IsBlock s) : (o.print s).Settled := by
  rw [print_block ho hs]
  exact ⟨rfl, map_indented_indented o.levels⟩

/-- Printing inside a bulleted level is printing the bullet. -/
theorem Settled.printBullet_eq (ho : o.Settled) (hs : IsBlock s) :
    o.printBullet s = o.print (bullet s) := by
  have hfirst : columns (o.levels ++ [Level.mk true false]) = columns o.levels ++ "- " := by
    rw [columns_append]
    rfl
  have hlater : columns (o.levels ++ [Level.mk true true]) = columns o.levels ++ "  " := by
    rw [columns_append]
    rfl
  have hlevels : o.indentBullet.levels.map .indented = o.levels ++ [Level.mk true true] := by
    unfold indentBullet openLevel
    rw [List.map_append, ho.levels]
    rfl
  calc o.printBullet s
      = (o.indentBullet.print s).dedent := rfl
    _ = ⟨o.text ++ hang (columns o.levels ++ "- ") (columns o.levels ++ "  ") s, o.levels,
          true⟩ := by
        rw [print_block (o := o.indentBullet) ho.atLineStart hs, hlevels, hlater, ← hfirst]
        unfold dedent
        rw [List.dropLast_concat]
        rfl
    _ = o.print (bullet s) := by
        rw [print_block ho.atLineStart hs.bullet, ho.levels, ← hang_bullet,
          hang_hang (by decide) (by decide)]

/-- Printing inside one bulleted level after the other is printing the bullets. -/
theorem Settled.foldl_printBullet (ho : o.Settled) {ss : List String} (hss : ∀ s ∈ ss, IsBlock s) :
    ss.foldl printBullet o = o.print (String.join (ss.map bullet)) ∧
      (ss.foldl printBullet o).Settled := by
  induction ss generalizing o with
  | nil => exact ⟨rfl, ho⟩
  | cons s ss ih =>
    rw [List.forall_mem_cons] at hss
    have hsettled := settled_print ho.atLineStart hss.1.bullet
    rw [List.foldl_cons, ho.printBullet_eq hss.1, List.map_cons, String.join_cons, ← print_print]
    exact ih hsettled hss.2

end Outline
end Wiring.Text
