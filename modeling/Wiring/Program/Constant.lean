import Wiring.Text.Quoted

/-!
# Constants and operators

The values that a program's text fixes, and the arithmetic on them that can be done without
running it. Integers have 64 bits; a result out of their range is not computed.
-/

namespace Wiring.Program

/-- A value fixed by the program's text. -/
inductive Constant where
  | bool (b : Bool)
  | int (i : Int64)
  | string (s : String)
  | nil
  deriving DecidableEq, Repr

namespace Constant

/-- The constant as it is shown. -/
def text : Constant → String
  | bool true => "true"
  | bool false => "false"
  | int i => toString i.toInt
  | string s => Text.quoted s
  | nil => "nil"

/-- An integer as a constant, if it is in range. -/
def ofInt? (i : Int) : Option Constant :=
  if Int64.minValue.toInt ≤ i ∧ i ≤ Int64.maxValue.toInt then some (int (Int64.ofInt i)) else none

/-- The order of two integers or two texts; other constants have none. -/
def order? : Constant → Constant → Option Ordering
  | int a, int b => some (compare a.toInt b.toInt)
  | string a, string b => some (compareOfLessAndEq a b)
  | _, _ => none

end Constant

/-- An operator on two values. -/
inductive BinaryOp where
  | add
  | sub
  | mul
  | eq
  | ne
  | lt
  | le
  | gt
  | ge
  deriving DecidableEq, Repr

namespace BinaryOp

/-- Every operator. -/
def all : List BinaryOp := [add, sub, mul, eq, ne, lt, le, gt, ge]

/-- The operator applied to constants, where it is defined on them. -/
def fold (op : BinaryOp) (a b : Constant) : Option Constant :=
  match op with
  | eq => some (.bool (a = b))
  | ne => some (.bool (a ≠ b))
  | lt => (a.order? b).map fun o ↦ .bool o.isLT
  | le => (a.order? b).map fun o ↦ .bool o.isLE
  | gt => (a.order? b).map fun o ↦ .bool o.isGT
  | ge => (a.order? b).map fun o ↦ .bool o.isGE
  | add =>
    match a, b with
    | .int i, .int j => Constant.ofInt? (i.toInt + j.toInt)
    | .string s, .string t => some (.string (s ++ t))
    | _, _ => none
  | sub =>
    match a, b with
    | .int i, .int j => Constant.ofInt? (i.toInt - j.toInt)
    | _, _ => none
  | mul =>
    match a, b with
    | .int i, .int j => Constant.ofInt? (i.toInt * j.toInt)
    | _, _ => none

end BinaryOp
end Wiring.Program
