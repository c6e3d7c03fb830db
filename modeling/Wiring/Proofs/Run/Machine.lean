import Wiring.Analysis.Environment
import Wiring.Proofs.Run.Operators

/-!
# Runs

What a program does when it runs. A run goes step by step through the instructions of functions
that call each other, with a memory of local variables. Code outside the program may give any value
that can be made from what it has been handed, and may change any local whose address it knows. A
global variable that the program lists holds its constant throughout. What the program's form does
not say, such as the edge by which a block is entered, is left open.
-/

namespace Wiring.Run

open Wiring.Program (Constant BinaryOp Computes ValueId Operand Callee Instruction Terminator Function Block)
open Wiring.Analysis (Environment)

/-- A value in a run. -/
inductive Value where
  | const (c : Constant)
  /-- An interface value that holds a value of a concrete type. -/
  | boxed (typeName : String) (held : Value)
  /-- The address of a local, which is one of the memory's cells. -/
  | address (cell : Nat)
  /-- The address of a global variable. -/
  | global (name : String)
  | function (name : String)
  /-- The configurer that the run was started with. -/
  | configurer
  /-- A value of which nothing is known. -/
  | foreign (tag : Nat)
  deriving DecidableEq, Repr

namespace Value

/-- No address of a local is in the value. -/
def AddressFree : Value → Prop
  | address _ => False
  | boxed _ held => held.AddressFree
  | _ => True

/-- The value is the configurer, perhaps inside interfaces. -/
def isConfigurer : Value → Bool
  | configurer => true
  | boxed _ held => held.isConfigurer
  | _ => false

/-- The value inside all interfaces. -/
def unboxed : Value → Value
  | boxed _ held => held.unboxed
  | v => v

/-- The types whose zero value is the number. -/
def integerTypes : List String :=
  ["int", "int8", "int16", "int32", "int64", "uint", "uint8", "uint16", "uint32", "uint64", "byte",
    "rune", "uintptr"]

/-- What a local of the type holds before anything is stored to it. -/
def IsZero (typeName : String) (v : Value) : Prop :=
  if typeName = "string" then v = const (.string "")
  else if typeName = "bool" then v = const (.bool false)
  else if typeName ∈ integerTypes then v = const (.int 0)
  else v = const .nil ∨ ∃ tag, v = foreign tag

end Value

/-- A local variable, and what has been stored to it last. -/
structure Cell where
  typeName : String
  held : Option Value := none
  deriving DecidableEq, Repr

/-- What a run remembers apart from the values of functions. -/
structure Memory where
  cells : List Cell := []
  /-- The values that code outside the program has been handed. -/
  outside : List Value := []
  deriving DecidableEq, Repr

namespace Memory

/-- The values that code outside the program can make. -/
inductive Known (m : Memory) : Value → Prop
  | given {v : Value} (h : v ∈ m.outside) : Known m v
  | const (c : Constant) : Known m (.const c)
  | global (name : String) : Known m (.global name)
  | function (name : String) : Known m (.function name)
  | foreign (tag : Nat) : Known m (.foreign tag)
  | boxed {typeName : String} {v : Value} (h : Known m v) : Known m (.boxed typeName v)
  | held {typeName : String} {v : Value} (h : Known m (.boxed typeName v)) : Known m v
  | content {i : Nat} {typeName : String} {v : Value} (h : Known m (.address i))
      (hc : m.cells[i]? = some ⟨typeName, some v⟩) : Known m v

/-- What is left when code outside the program has run: it may have stored values that it can make
to locals whose address it knows. -/
structure Touched (m m' : Memory) : Prop where
  length : m'.cells.length = m.cells.length
  cell : ∀ i c', m'.cells[i]? = some c' → m.cells[i]? = some c' ∨
    m.Known (.address i) ∧ ∃ v, m.Known v ∧ c'.held = some v
  outside : m'.outside = m.outside

/-- Hand values to code outside the program. -/
def hand (m : Memory) (vs : List Value) : Memory := { m with outside := vs ++ m.outside }

/-- Store a value to a local. -/
def store (m : Memory) (i : Nat) (v : Value) : Memory :=
  { m with cells := m.cells.modify i fun c ↦ { c with held := some v } }

/-- A fresh local. -/
def allocate (m : Memory) (typeName : String) : Memory :=
  { m with cells := m.cells ++ [{ typeName }] }

variable {m : Memory}

/-- What storing does to the locals. -/
theorem getElem?_store (i : Nat) (v : Value) (j : Nat) : (m.store i v).cells[j]? =
    if i = j then (m.cells[j]?).map fun c ↦ { c with held := some v } else m.cells[j]? := by
  simp only [store, List.getElem?_modify]
  by_cases hij : i = j
  · simp [hij]
  · cases m.cells[j]? <;> simp [hij]

/-- The locals once there is a fresh one. -/
theorem getElem?_allocate (typeName : String) (j : Nat) : (m.allocate typeName).cells[j]? =
    if j = m.cells.length then some { typeName } else m.cells[j]? := by
  simp only [allocate, List.getElem?_append, List.getElem?_singleton]
  by_cases hlt : j < m.cells.length
  · rw [if_pos hlt, if_neg (by omega)]
  · rw [if_neg hlt]
    by_cases hj : j = m.cells.length
    · rw [if_pos hj, if_pos (by omega)]
    · rw [if_neg hj, if_neg (by omega), List.getElem?_eq_none (by omega)]

@[simp] theorem length_store (i : Nat) (v : Value) :
    (m.store i v).cells.length = m.cells.length := by
  simp [store]

@[simp] theorem length_allocate (typeName : String) :
    (m.allocate typeName).cells.length = m.cells.length + 1 := by
  simp [allocate]

end Memory

/-- A call of a function that has not ended. -/
structure Activation where
  function : Function
  args : List Value := []
  /-- What instructions have defined: all results of a call, one value of any other instruction. -/
  values : ValueId → Option (List Value) := fun _ ↦ none
  block : Nat := 0
  /-- The position in the block of what runs next. -/
  next : Nat := 0

namespace Activation

/-- The value of an operand; that of a call is its first result. -/
def operand (a : Activation) : Operand → Option Value
  | .param index => a.args[index.toNat]?
  | .value id => (a.values id).bind List.head?
  | .const c => some (.const c)
  | .global name => some (.global name)
  | .function name => some (.function name)

/-- The values of operands. -/
def operands (a : Activation) (l : List Operand) : Option (List Value) := l.mapM a.operand

/-- The instruction that runs next. -/
def instruction? (a : Activation) : Option Instruction :=
  (a.function.blocks[a.block]?).bind fun block ↦ block.instructions[a.next]?

/-- How the block ends, once its instructions have run. -/
def terminator? (a : Activation) : Option Terminator :=
  (a.function.blocks[a.block]?).bind fun block ↦
    if a.next = block.instructions.length then some block.terminator else none

/-- Go on after an instruction that has defined a value. -/
def define (a : Activation) (dest : Option ValueId) (results : List Value) : Activation :=
  { a with
    values := fun id ↦ if dest = some id then some results else a.values id
    next := a.next + 1 }

/-- Go on with another block. -/
def goto (a : Activation) (block : Nat) : Activation := { a with block, next := 0 }

/-- What a call that is not followed hands to code outside the program: the arguments, and the value
that is called or whose method is called. The configurer's own methods are not counted as such code:
they know it already, and do not pass it on. -/
inductive Hands (a : Activation) : Callee → List Value → List Value → Prop
  | static (function : String) (typeArgs : List String) (vs : List Value) :
      Hands a (.static function typeArgs) vs vs
  | dynamic {o : Operand} {v : Value} (h : a.operand o = some v) (vs : List Value) :
      Hands a (.dynamic o) vs (if v.isConfigurer then vs else v :: vs)
  | invoke {o : Operand} {v : Value} (h : a.operand o = some v) (method : String)
      (vs : List Value) : Hands a (.invoke o method) vs (if v.isConfigurer then vs else v :: vs)

/-- What an instruction defines and does to the memory, unless it is a call that is followed. -/
inductive Performs (env : Environment) (a : Activation) (m : Memory) :
    Instruction → List Value → Memory → Prop
  | makeInterface {dest : ValueId} {o : Operand} {typeName : String} {v : Value}
      (h : a.operand o = some v) :
      Performs env a m (.makeInterface dest o typeName) [.boxed typeName v] m
  | changeInterface {dest : ValueId} {o : Operand} {v : Value} (h : a.operand o = some v) :
      Performs env a m (.changeInterface dest o) [v] m
  | extract {dest tuple : ValueId} {index : UInt64} {dest' : Option ValueId} {callee : Callee}
      {args : List Operand} {results : List Value} {v : Value}
      (ht : a.function.definition tuple = some (.call dest' callee args))
      (h : a.values tuple = some results) (hi : results[index.toNat]? = some v) :
      Performs env a m (.extract dest (.value tuple) index) [v] m
  | extractElsewhere {dest : ValueId} {tuple : Operand} {index : UInt64} {v : Value}
      (ht : ∀ id dest' callee args, tuple = .value id →
        a.function.definition id ≠ some (.call dest' callee args))
      (h : m.Known v) : Performs env a m (.extract dest tuple index) [v] m
  | alloc (dest : ValueId) (typeName : String) :
      Performs env a m (.alloc dest typeName) [.address m.cells.length] (m.allocate typeName)
  | storeLocal {addr o : Operand} {i : Nat} {v : Value} (ha : a.operand addr = some (.address i))
      (h : a.operand o = some v) : Performs env a m (.store addr o) [] (m.store i v)
  | storeElsewhere {addr o : Operand} {p v : Value} (ha : a.operand addr = some p)
      (hp : ∀ i, p ≠ .address i) (h : a.operand o = some v) :
      Performs env a m (.store addr o) [] (m.hand [v])
  | loadLocal {dest : ValueId} {addr : Operand} {i : Nat} {c : Cell} {v : Value}
      (ha : a.operand addr = some (.address i)) (hc : m.cells[i]? = some c)
      (h : c.held = some v ∨ c.held = none ∧ v.IsZero c.typeName) :
      Performs env a m (.load dest addr) [v] m
  | loadGlobal {dest : ValueId} {addr : Operand} {name : String} {c : Constant}
      (ha : a.operand addr = some (.global name)) (hc : env.program.global? name = some c) :
      Performs env a m (.load dest addr) [.const c] m
  | loadElsewhere {dest : ValueId} {addr : Operand} {p v : Value} (ha : a.operand addr = some p)
      (hp : ∀ i, p ≠ .address i) (hg : ∀ name, p = .global name → env.program.global? name = none)
      (h : m.Known v) : Performs env a m (.load dest addr) [v] m
  | binOp {dest : ValueId} {op : BinaryOp} {lhs rhs : Operand} {x y v : Value}
      (hl : a.operand lhs = some x) (hr : a.operand rhs = some y)
      (hv : ∀ b c d, x = .const b → y = .const c → Computes op b c d → v = .const d)
      (h : m.Known v) : Performs env a m (.binOp dest op lhs rhs) [v] m
  | not {dest : ValueId} {o : Operand} {x v : Value} (ho : a.operand o = some x)
      (hv : ∀ b, x = .const (.bool b) → v = .const (.bool !b)) (h : m.Known v) :
      Performs env a m (.not dest o) [v] m
  | phi {dest : ValueId} {edges : List Operand} {o : Operand} {v : Value} (ho : o ∈ edges)
      (h : a.operand o = some v) : Performs env a m (.phi dest edges) [v] m
  | slice {dest : ValueId} {elements : List Operand} {vs : List Value} {v : Value}
      (hs : a.operands elements = some vs) (h : (m.hand vs).Known v) :
      Performs env a m (.slice dest elements) [v] (m.hand vs)
  | opaqueValue {dest : ValueId} {description : String} {v : Value} (h : m.Known v) :
      Performs env a m (.opaqueValue dest description) [v] m
  | call {dest : Option ValueId} {callee : Callee} {args : List Operand}
      {vs handed results : List Value} {m' : Memory} (hf : env.followed callee = none)
      (hs : a.operands args = some vs) (hh : a.Hands callee vs handed)
      (hm : (m.hand handed).Touched m') (h : ∀ v ∈ results, m'.Known v) :
      Performs env a m (.call dest callee args) results m'

/-- The block that comes next. A branch on anything but a truth value may go either way. -/
inductive GoesTo (a : Activation) : Program.BlockId → Prop
  | jump {target : Program.BlockId} (ht : a.terminator? = some (.jump target)) : GoesTo a target
  | branch {cond : Operand} {thenBlock elseBlock target : Program.BlockId} {v : Value}
      (ht : a.terminator? = some (.branch cond thenBlock elseBlock))
      (hc : a.operand cond = some v)
      (hv : ∀ b, v = .const (.bool b) → target = if b then thenBlock else elseBlock)
      (htarget : target = thenBlock ∨ target = elseBlock) : GoesTo a target

end Activation

/-- A state of a run: the calls that have not ended, the innermost first, and the memory. -/
structure State where
  stack : List Activation
  memory : Memory := {}

/-- One step of a run. -/
inductive Step (env : Environment) : State → State → Prop
  | perform {a : Activation} {rest : List Activation} {m m' : Memory} {i : Instruction}
      {results : List Value} (hi : a.instruction? = some i)
      (h : a.Performs env m i results m') :
      Step env ⟨a :: rest, m⟩ ⟨a.define i.dest results :: rest, m'⟩
  | enter {a : Activation} {rest : List Activation} {m : Memory} {dest : Option ValueId}
      {callee : Callee} {args : List Operand} {f : Function} {vs : List Value}
      (hi : a.instruction? = some (.call dest callee args)) (hf : env.followed callee = some f)
      (hs : a.operands args = some vs) :
      Step env ⟨a :: rest, m⟩ ⟨{ function := f, args := vs } :: a :: rest, m⟩
  | goto {a : Activation} {rest : List Activation} {m : Memory} {target : Program.BlockId}
      (ht : a.GoesTo target) (hb : target.toNat < a.function.blocks.length) :
      Step env ⟨a :: rest, m⟩ ⟨a.goto target.toNat :: rest, m⟩
  | ret {a b : Activation} {rest : List Activation} {m : Memory} {results : List Operand}
      {vs : List Value} {i : Instruction} (ht : b.terminator? = some (.ret results))
      (hs : b.operands results = some vs) (hi : a.instruction? = some i) :
      Step env ⟨b :: a :: rest, m⟩ ⟨a.define i.dest vs :: rest, m⟩
  | finish {b : Activation} {m : Memory} {results : List Operand} {vs : List Value}
      (ht : b.terminator? = some (.ret results)) (hs : b.operands results = some vs) :
      Step env ⟨[b], m⟩ ⟨[], m⟩

end Wiring.Run
