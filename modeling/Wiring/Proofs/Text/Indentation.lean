import Wiring.Text.Outline

/-!
# Indented texts

What printing to an outline comes to, said of the texts: a text is printed with the columns of the
open levels before each of its lines that holds text. A bulleted level has its bullet in front of
the first such line and blanks in front of the others.
-/

namespace Wiring.Text

/-- The characters with `first` in front of the first line that holds text and `later` in front of
the other such lines; of a line that has begun before, only what follows it counts. -/
def indentFrom (atLineStart : Bool) (first later : String) : List Char → List Char
  | [] => []
  | c :: cs =>
    if c = '\n' then c :: indentFrom true first later cs
    else if atLineStart then first.toList ++ c :: indentFrom false later later cs
    else c :: indentFrom false first later cs

/-- The text with `first` in front of its first line that holds text and `later` in front of the
other such lines. Empty lines stay empty. -/
def hang (first later text : String) : String :=
  String.ofList (indentFrom true first later text.toList)

/-- The columns of levels that have their bullets. -/
def margin (depth : Nat) : String := String.join (List.replicate depth "  ")

/-- The columns of levels of which the innermost has yet to get its bullet. -/
def bulletMargin : Nat → String
  | 0 => ""
  | depth + 1 => margin depth ++ "- "

/-- The text as a bullet that is so many levels deep. -/
def bulleted (depth : Nat) (text : String) : String :=
  hang (bulletMargin depth) (margin depth) text

/-- The text does not begin with an empty line. -/
def opensWithText (s : String) : Bool := s.toList.head?.any (· ≠ '\n')

theorem opensWithText_append {s t : String} (h : opensWithText s) : opensWithText (s ++ t) := by
  unfold opensWithText at h ⊢
  rw [String.toList_append]
  cases hs : s.toList with
  | nil => simp [hs] at h
  | cons c cs => simpa [hs] using h

/-- A line that has begun goes on as it is. -/
theorem indentFrom_append {first later : String} {l cs : List Char} (h : '\n' ∉ l) :
    indentFrom false first later (l ++ cs) = l ++ indentFrom false first later cs := by
  induction l with
  | nil => rfl
  | cons c l ih =>
    rw [List.mem_cons, not_or] at h
    rw [List.cons_append, indentFrom, if_neg (Ne.symm h.1), if_neg Bool.false_ne_true, ih h.2,
      List.cons_append]

/-- What a text begins with stands behind the first margin. -/
theorem toList_hang_append {first later s t : String} (hs : s ≠ "") (h : '\n' ∉ s.toList) :
    (hang first later (s ++ t)).toList =
      first.toList ++ (s.toList ++ indentFrom false later later t.toList) := by
  unfold hang
  rw [String.toList_ofList, String.toList_append]
  cases hl : s.toList with
  | nil => exact absurd (String.toList_eq_nil_iff.mp hl) hs
  | cons c l =>
    rw [hl, List.mem_cons, not_or] at h
    rw [List.cons_append, indentFrom, if_neg (Ne.symm h.1), if_pos rfl, indentFrom_append h.2,
      List.cons_append]

namespace Outline

/-- What levels put in front of a line. -/
def columns (levels : List Level) : String := String.join (levels.map Level.columns)

theorem columns_append (levels inner : List Level) :
    columns (levels ++ inner) = columns levels ++ columns inner := by
  unfold columns
  rw [List.map_append, String.join_append]

theorem foldl_columns (levels : List Level) (t : String) :
    levels.foldl (fun t l ↦ t ++ l.columns) t = t ++ columns levels := by
  induction levels generalizing t with
  | nil => simp [columns]
  | cons l levels ih =>
    rw [List.foldl_cons, ih, columns, columns, List.map_cons, String.join_cons, String.append_assoc]

theorem map_indented_indented (levels : List Level) :
    (levels.map Level.indented).map Level.indented = levels.map Level.indented := by
  rw [List.map_map]
  refine List.map_congr_left fun l _ ↦ ?_
  unfold Level.indented
  cases h : l.bulleted <;> simp [h]

/-- Printing puts the columns of the open levels in front of the lines that hold text. -/
theorem text_foldl_put (cs : List Char) (o : Outline) :
    (cs.foldl put o).text = o.text ++ String.ofList
      (indentFrom o.atLineStart (columns o.levels) (columns (o.levels.map .indented)) cs) := by
  induction cs generalizing o with
  | nil => simp [indentFrom]
  | cons c cs ih =>
    apply String.toList_injective
    rw [List.foldl_cons, ih]
    by_cases hc : c = '\n'
    · simp [put, indentFrom, hc]
    · cases hstart : o.atLineStart
      · simp [put, indentFrom, hc, hstart]
      · simp [put, beginLine, indentFrom, hc, hstart, foldl_columns, -List.map_map,
          map_indented_indented]

/-- Levels that have their bullets keep them. -/
theorem levels_foldl_put (cs : List Char) {o : Outline} (h : o.levels.map .indented = o.levels) :
    (cs.foldl put o).levels = o.levels := by
  induction cs generalizing o with
  | nil => rfl
  | cons c cs ih =>
    have hput : (put o c).levels = o.levels := by
      unfold put beginLine
      split
      · rfl
      · split
        · exact h
        · rfl
    rw [List.foldl_cons, ih (by rw [hput, h]), hput]

/-- A text that begins in a line of its own, and ends it, is printed with the columns of the levels,
and then these have their bullets. -/
theorem print_line (t : String) (levels : List Level) {s : String} (hs : opensWithText s) :
    print ⟨t, levels, true⟩ (s ++ "\n") =
      ⟨t ++ hang (columns levels) (columns (levels.map .indented)) (s ++ "\n"),
        levels.map .indented, true⟩ := by
  let o : Outline := ⟨t, levels, true⟩
  have htext : (o.print (s ++ "\n")).text =
      t ++ hang (columns levels) (columns (levels.map .indented)) (s ++ "\n") :=
    text_foldl_put (s ++ "\n").toList o
  have hlevels : (o.print (s ++ "\n")).levels = levels.map .indented := by
    unfold print
    unfold opensWithText at hs
    rw [String.toList_append]
    cases hl : s.toList with
    | nil => simp [hl] at hs
    | cons c l =>
      have hc : c ≠ '\n' := by simpa [hl] using hs
      -- the first character begins the line, and the others find it begun
      have hput : (put o c).levels = levels.map .indented := by simp [put, beginLine, hc, o]
      rw [List.cons_append, List.foldl_cons, levels_foldl_put, hput]
      rw [hput, map_indented_indented]
  have hstart : (o.print (s ++ "\n")).atLineStart = true := by
    unfold print
    rw [String.toList_append, List.foldl_append]
    rfl
  calc o.print (s ++ "\n")
      = ⟨(o.print (s ++ "\n")).text, (o.print (s ++ "\n")).levels,
          (o.print (s ++ "\n")).atLineStart⟩ := rfl
    _ = _ := by rw [htext, hlevels, hstart]

/-- Levels that have their bullets. -/
def marked (depth : Nat) : List Level := List.replicate depth ⟨true, true⟩

/-- Levels of which the innermost has yet to get its bullet. -/
def unmarked : Nat → List Level
  | 0 => []
  | depth + 1 => marked depth ++ [⟨true, false⟩]

theorem columns_marked (depth : Nat) : columns (marked depth) = margin depth := by
  unfold columns marked
  rw [List.map_replicate]
  rfl

theorem columns_unmarked (depth : Nat) : columns (unmarked depth) = bulletMargin depth := by
  cases depth with
  | zero => rfl
  | succ depth =>
    unfold unmarked
    rw [columns_append, columns_marked]
    rfl

theorem map_indented_unmarked (depth : Nat) :
    (unmarked depth).map .indented = marked depth := by
  cases depth with
  | zero => rfl
  | succ depth => simp [unmarked, marked, Level.indented, List.replicate_succ']

/-- A text that is printed first in bulleted levels is a bullet of the innermost. -/
theorem print_unmarked (t : String) (depth : Nat) {s : String} (hs : opensWithText s) :
    print ⟨t, unmarked depth, true⟩ (s ++ "\n") =
      ⟨t ++ bulleted depth (s ++ "\n"), marked depth, true⟩ := by
  rw [print_line t _ hs, map_indented_unmarked, columns_unmarked, columns_marked]
  rfl

theorem indentBullet_marked (t : String) (depth : Nat) :
    indentBullet ⟨t, marked depth, true⟩ = ⟨t, unmarked (depth + 1), true⟩ := rfl

theorem dedent_marked (t : String) (depth : Nat) :
    dedent ⟨t, marked (depth + 1), true⟩ = ⟨t, marked depth, true⟩ := by
  unfold dedent marked
  rw [List.dropLast_replicate, Nat.add_sub_cancel]

end Outline
end Wiring.Text
