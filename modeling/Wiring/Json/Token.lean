/-!
# Tokens of JSON text

The strings and numbers of JSON text as they stand in it, before anyone asks for their values.
A text may break off or go wrong in the middle of a token; where it does is kept, since what a
reader reports depends on how far it got.
-/

namespace Wiring.Json

/-- Why a text cannot be read on. -/
inductive Fault where
  /-- The text does not follow the grammar. -/
  | malformed
  /-- The text ends too early. -/
  | truncated
  deriving DecidableEq, Repr

/-- What a string consists of. -/
inductive StringUnit where
  | char (c : Char)
  /-- A code unit of sixteen bits, written as an escape; two may make one character. -/
  | code (n : Nat)
  deriving DecidableEq, Repr

/-- A string as it is written. -/
structure StringToken where
  units : List StringUnit
  /-- What comes in place of the closing quote. -/
  fault : Option Fault := none
  deriving DecidableEq, Repr

namespace StringToken

/-- A code unit that opens a pair. -/
def isHighSurrogate (n : Nat) : Bool := 0xd800 ≤ n && n ≤ 0xdbff

/-- A code unit that closes a pair. -/
def isLowSurrogate (n : Nat) : Bool := 0xdc00 ≤ n && n ≤ 0xdfff

/-- The character of a pair of code units. -/
def pair (high low : Nat) : Char := Char.ofNat (0x10000 + (high - 0xd800) * 0x400 + (low - 0xdc00))

/-- The characters of a string; code units have to pair up. The fault that ends the units counts
where it stands, after all that is wrong before it. -/
def characters (ending : Option Fault) : List StringUnit → Except Fault (List Char)
  | [] => match ending with
    | none => .ok []
    | some f => .error f
  | .char c :: rest => (characters ending rest).map (c :: ·)
  | [.code n] =>
    if isHighSurrogate n then .error (ending.getD .malformed)
    else if isLowSurrogate n then .error .malformed
    else match ending with
      | none => .ok [Char.ofNat n]
      | some f => .error f
  | .code n :: .code m :: rest =>
    if isHighSurrogate n then
      if isLowSurrogate m then (characters ending rest).map (pair n m :: ·)
      else .error .malformed
    else if isLowSurrogate n then .error .malformed
    else (characters ending (.code m :: rest)).map (Char.ofNat n :: ·)
  | .code n :: .char c :: rest =>
    if isHighSurrogate n || isLowSurrogate n then .error .malformed
    else (characters ending (.char c :: rest)).map (Char.ofNat n :: ·)

/-- The string that the token stands for. -/
def value (t : StringToken) : Except Fault String :=
  (characters t.fault t.units).map String.ofList

/-- Passing over a string needs its end, but not that its code units pair up. -/
def skip (t : StringToken) : Except Fault Unit :=
  match t.fault with
  | none => .ok ()
  | some f => .error f

/-- The token that stands for a string. -/
def ofString (s : String) : StringToken := { units := s.toList.map .char }

end StringToken

/-- A number as it is written, by its digits. -/
structure NumberToken where
  negative : Bool := false
  integer : List Char
  fraction : List Char := []
  hasFraction : Bool := false
  exponentNegative : Bool := false
  exponent : List Char := []
  hasExponent : Bool := false
  deriving DecidableEq, Repr

namespace NumberToken

/-- The natural number that decimal digits stand for, after digits already read. -/
def ofDigits (start : Nat) (digits : List Char) : Nat :=
  digits.foldl (fun n c ↦ 10 * n + (c.toNat - '0'.toNat)) start

/-- The integer that the token stands for, unless it has a fraction or an exponent or is a zero
with a sign. -/
def integer? (t : NumberToken) : Option Int :=
  let n := ofDigits 0 t.integer
  if t.hasFraction || t.hasExponent then none
  else if t.negative then if n = 0 then none else some (-n)
  else some n

/-- The significant digits that are kept: as many from the left as stay below the bound. Gives
their value and how many digits they are. -/
def significand (bound : Nat) : (value count : Nat) → List Char → Nat × Nat
  | value, count, [] => (value, count)
  | value, count, c :: rest =>
    let next := ofDigits value [c]
    if next < bound then significand bound next (count + 1) rest else (value, count)

/-- The number of binary digits of a natural number. -/
def bitLength (n : Nat) : Nat := if n = 0 then 0 else n.log2 + 1

/-- The natural number rounded to 53 significant binary digits, a tie to the even neighbour. -/
def roundTo53 (n : Nat) : Nat :=
  let shift := bitLength n - 53
  let quotient := n >>> shift
  let rest := n - (quotient <<< shift)
  let half := if shift = 0 then 0 else 1 <<< (shift - 1)
  let up := shift ≠ 0 && (half < rest || (rest = half && quotient % 2 = 1))
  (if up then quotient + 1 else quotient) <<< shift

/-- The number is too large for a binary floating-point number of 64 bits. Its significand, the
power of ten and their product are each rounded. -/
def isOutOfRange (t : NumberToken) : Bool :=
  let digits := t.integer ++ t.fraction
  let (value, count) := significand UInt64.size 0 0 digits
  let dropped : Int := (t.integer.length : Int) - count
  let written := ofDigits 0 t.exponent
  let exponent : Int := dropped + (if t.exponentNegative then -(written : Int) else written)
  if t.integer?.isSome && dropped ≤ 0 then false
  else if value = 0 || exponent < 0 then false
  else if 308 < exponent then true
  else 1 <<< 1024 ≤ roundTo53 (roundTo53 value * roundTo53 (Nat.pow 10 exponent.toNat))

/-- The token that stands for an integer. -/
def ofInt (i : Int) : NumberToken :=
  { negative := i < 0, integer := (toString i.natAbs).toList }

end NumberToken
end Wiring.Json
