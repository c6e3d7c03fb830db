/-!
# Identity keys

The form of a key: a UUID of the standard variant, as five hyphenated groups of hexadecimal
digits. Letter case does not matter; the canonical form is in lower case.
-/

namespace Wiring.Config.IdentityKey

/-- What may stand at one place of a key. -/
inductive Slot where
  | hyphen
  | digit
  /-- The digit whose two high bits give the variant. -/
  | variant
  deriving DecidableEq, Repr

/-- A hexadecimal digit of either case. -/
def isHexDigit (c : Char) : Bool :=
  ('0' ≤ c && c ≤ '9') || ('a' ≤ c && c ≤ 'f') || ('A' ≤ c && c ≤ 'F')

/-- The character may stand at the place. -/
def Slot.admits : Slot → Char → Bool
  | hyphen, c => c = '-'
  | digit, c => isHexDigit c
  | variant, c => c = '8' || c = '9' || c = 'a' || c = 'b' || c = 'A' || c = 'B'

/-- The places of a key. -/
def slots : List Slot :=
  .replicate 8 .digit ++ [.hyphen] ++ .replicate 4 .digit ++ [.hyphen] ++ .replicate 4 .digit ++
    [.hyphen] ++ (.variant :: .replicate 3 .digit) ++ [.hyphen] ++ .replicate 12 .digit

/-- Each place holds a character that it admits, and nothing is left over. -/
def fits : List Slot → List Char → Bool
  | [], [] => true
  | s :: slots, c :: cs => s.admits c && fits slots cs
  | _, _ => false

/-- The text is a key. -/
def isKey (s : String) : Bool := fits slots s.toList

/-- The text in lower case. -/
def lower (s : String) : String := String.ofList (s.toList.map Char.toLower)

/-- The canonical form of a text that is a key. -/
def canonical? (s : String) : Option String := if isKey s then some (lower s) else none

end Wiring.Config.IdentityKey
