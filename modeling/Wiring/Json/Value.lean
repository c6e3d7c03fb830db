import Wiring.Text.Quoted

/-!
# JSON values

The values of the interchange format and their compact text: no blanks, members in the order
given, and in strings an escape only where the format asks for one.
-/

namespace Wiring

/-- A value without fractions, as programs are saved in. -/
inductive Json where
  | null
  | bool (b : Bool)
  | int (i : Int)
  | string (s : String)
  | array (items : List Json)
  | object (members : List (String × Json))
  deriving Repr

namespace Json

/-- A natural number. -/
def nat (n : Nat) : Json := .int n

/-- An array of strings. -/
def strings (l : List String) : Json := .array (l.map .string)

/-- One character of a string. -/
def escape (c : Char) : List Char :=
  if c = '"' then ['\\', '"']
  else if c = '\\' then ['\\', '\\']
  else if c = '\x08' then ['\\', 'b']
  else if c = '\x0c' then ['\\', 'f']
  else if c = '\n' then ['\\', 'n']
  else if c = '\r' then ['\\', 'r']
  else if c = '\t' then ['\\', 't']
  else if c.toNat < 0x20 then
    ['\\', 'u', '0', '0', Text.hexDigit (c.toNat / 16), Text.hexDigit (c.toNat % 16)]
  else [c]

/-- A string between double quotes. -/
def renderString (s : String) : List Char := '"' :: s.toList.flatMap escape ++ ['"']

/-- The compact text of a value. -/
def render : Json → List Char
  | null => "null".toList
  | bool b => if b then "true".toList else "false".toList
  | int i => (toString i).toList
  | string s => renderString s
  | array items => '[' :: renderItems items ++ [']']
  | object members => '\x7b' :: renderMembers members ++ ['\x7d']
where
  renderItems : List Json → List Char
    | [] => []
    | [v] => v.render
    | v :: rest => v.render ++ ',' :: renderItems rest
  renderMembers : List (String × Json) → List Char
    | [] => []
    | [(k, v)] => renderString k ++ ':' :: v.render
    | (k, v) :: rest => renderString k ++ ':' :: v.render ++ ',' :: renderMembers rest

/-- The compact text of a value, as a string. -/
def text (v : Json) : String := String.ofList v.render

end Json
end Wiring
