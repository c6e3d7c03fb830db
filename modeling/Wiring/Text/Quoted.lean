import Wiring.Text.DefaultIgnorable
import Wiring.Text.Graphic
import Wiring.Text.GraphemeExtend

/-!
# Quoted texts

A text between double quotes, in which every character is either visible on its own or written
as an escape. The quote and the backslash are escaped too, so the end of a quoted text can be
told from its inside.
-/

namespace Wiring.Text

/-- The digit of a value below sixteen, in lower case. -/
def hexDigit (n : Nat) : Char :=
  if n < 10 then Char.ofNat ('0'.toNat + n) else Char.ofNat ('a'.toNat + (n - 10))

/-- A number in base sixteen, without leading zeros. -/
def hex (n : Nat) : List Char :=
  if n < 16 then [hexDigit n] else hex (n / 16) ++ [hexDigit (n % 16)]

/-- A space and the graphic characters, those apart that would not be seen, or would be drawn onto
the opening quote or the character before them. -/
def isPlain (c : Char) : Bool :=
  (c = ' ' || isGraphic c) && !extendsGrapheme c && !isDefaultIgnorable c

/-- One character of a quoted text. -/
def quoteChar (c : Char) : List Char :=
  if c = '"' then ['\\', '"']
  else if c = '\\' then ['\\', '\\']
  else if c = '\t' then ['\\', 't']
  else if c = '\n' then ['\\', 'n']
  else if c = '\r' then ['\\', 'r']
  else if c = '\x00' then ['\\', '0']
  else if isPlain c then [c]
  else ['\\', 'u', '\x7b'] ++ hex c.toNat ++ ['\x7d']

/-- A text between double quotes. -/
def quoted (s : String) : String :=
  String.ofList ('"' :: s.toList.flatMap quoteChar ++ ['"'])

end Wiring.Text
