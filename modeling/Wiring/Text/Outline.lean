/-!
# Indented outlines

A writer that indents what is printed to it. Nesting levels are open around the text; a level
adds two columns to every line that holds text, and the first such line of a bulleted level
carries its bullet there. The indentation of a line is written when its first character arrives,
so empty lines stay empty and text may be printed in pieces of any size.
-/

namespace Wiring.Text

/-- An open nesting level. -/
structure Level where
  /-- The level marks its first line with a bullet. -/
  bulleted : Bool
  /-- The bullet has been written. -/
  bulletWritten : Bool := false
  deriving DecidableEq, Repr

namespace Level

/-- The two columns that the level adds to its next line. -/
def columns (l : Level) : String :=
  if l.bulleted && !l.bulletWritten then "- " else "  "

/-- The level after a line has been indented. -/
def indented (l : Level) : Level :=
  if l.bulleted then { l with bulletWritten := true } else l

end Level

/-- What has been written, the open levels from the outermost, and whether the next character
begins a line. -/
structure Outline where
  text : String := ""
  levels : List Level := []
  atLineStart : Bool := true
  deriving DecidableEq, Repr

namespace Outline

/-- Nothing written and no level open. -/
def empty : Outline := {}

/-- Open a level inside the open ones. -/
def openLevel (o : Outline) (bulleted : Bool) : Outline :=
  { o with levels := o.levels ++ [{ bulleted }] }

/-- Open a level that only indents. -/
def indent (o : Outline) : Outline := o.openLevel false

/-- Open a level that marks its first line with a bullet. -/
def indentBullet (o : Outline) : Outline := o.openLevel true

/-- Close the innermost level, if any. -/
def dedent (o : Outline) : Outline := { o with levels := o.levels.dropLast }

/-- Write the indentation of a line. -/
def beginLine (o : Outline) : Outline :=
  { text := o.levels.foldl (fun t l ↦ t ++ l.columns) o.text
    levels := o.levels.map Level.indented
    atLineStart := false }

/-- Write one character; only text, never a line end, starts a line. -/
def put (o : Outline) (c : Char) : Outline :=
  if c = '\n' then { o with text := o.text.push '\n', atLineStart := true }
  else
    let o := if o.atLineStart then o.beginLine else o
    { o with text := o.text.push c }

/-- Write a text. -/
def print (o : Outline) (s : String) : Outline := s.toList.foldl put o

/-- Write a text inside a bulleted level of its own. -/
def printBullet (o : Outline) (s : String) : Outline := (o.indentBullet.print s).dedent

/-- An empty text changes nothing. -/
theorem print_empty (o : Outline) : o.print "" = o := rfl

end Outline
end Wiring.Text
