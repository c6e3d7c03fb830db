import Wiring.Program.Instruction

/-!
# Static values

What can be known of a value before the program runs.
-/

namespace Wiring.Analysis

open Wiring.Program (Constant BinaryOp)

/-- A value that is known, at least in part. -/
inductive StaticValue where
  | const (c : Constant)
  /-- An interface value that holds a known value of a concrete type. -/
  | boxed (typeName : String) (held : StaticValue)
  /-- An interface value of which only the concrete type is known. -/
  | boxedUnknown (typeName : String)
  /-- A route made by one of the route constructors. -/
  | constructed (function : String) (typeArgs : List String)
  deriving DecidableEq, Repr

namespace StaticValue

/-- Put a value, if it is known, into an interface. -/
def box (typeName : String) : Option StaticValue → StaticValue
  | some v => boxed typeName v
  | none => boxedUnknown typeName

/-- The value inside all interfaces, if it is known. -/
def unboxed : StaticValue → Option StaticValue
  | boxed _ held => held.unboxed
  | boxedUnknown _ => none
  | v => some v

/-- The constant inside all interfaces, if there is one. -/
def constant? (v : StaticValue) : Option Constant :=
  match v.unboxed with
  | some (const c) => some c
  | _ => none

/-- The truth value inside all interfaces, if there is one. -/
def bool? (v : StaticValue) : Option Bool :=
  match v.constant? with
  | some (.bool b) => some b
  | _ => none

/-- The text inside all interfaces, if there is one. -/
def string? (v : StaticValue) : Option String :=
  match v.constant? with
  | some (.string s) => some s
  | _ => none

/-- The concrete type of an interface value. -/
def concreteType? : StaticValue → Option String
  | boxed typeName _ | boxedUnknown typeName => some typeName
  | const _ | constructed _ _ => none

/-- The value that all of a list agree on; none for an empty list. -/
def agreement : List StaticValue → Option StaticValue
  | [] => none
  | v :: rest => if rest.all (· = v) then some v else none

/-- An operator applied to two values. -/
def fold (op : BinaryOp) (a b : StaticValue) : Option StaticValue := do
  return const (← op.fold (← a.constant?) (← b.constant?))

/-- The opposite truth value. -/
def negation (v : StaticValue) : Option StaticValue := v.bool?.map fun b ↦ const (.bool !b)

end StaticValue
end Wiring.Analysis
