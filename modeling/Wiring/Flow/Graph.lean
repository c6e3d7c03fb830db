import Wiring.Flow.Dominators
import Wiring.Program.Function

/-!
# Flow graphs

The blocks of a function that can run, with the edges that can be taken: where the condition of a
branch is known, the other edge is left out. What decides the conditions is a parameter, so the
graph is defined for every way of deciding them.
-/

namespace Wiring

open Wiring.Program (Block Terminator Operand Function)
open Wiring.Flow (Table DominatorTree)

/-- The part of a function's control flow that can run. -/
structure FlowGraph where
  /-- For each block its successors, if the block can be reached. -/
  edges : List (Option (List Nat))
  /-- The reachable blocks that return, in ascending order. -/
  returning : List Nat
  /-- The reachable blocks in which the function ends, in ascending order. -/
  exits : List Nat
  /-- The reachable blocks in depth-first order. -/
  order : List Nat
  /-- The immediate dominators. -/
  tree : DominatorTree
  deriving DecidableEq, Repr

namespace FlowGraph

/-- The edges of a block that can be taken once its condition has been decided. Targets that the
function does not have are left out, and a branch with equal targets gives one edge. -/
def targets {m : Type → Type} [Monad m] (decide : Operand → m (Option Bool)) (size : Nat) :
    Terminator → m (List Nat)
  | .branch cond thenBlock elseBlock => do
    let chosen := match ← decide cond with
      | some true => [thenBlock.toNat]
      | some false => [elseBlock.toNat]
      | none => [thenBlock.toNat, elseBlock.toNat]
    return (chosen.filter (· < size)).eraseDups
  | t => return (t.successors.map UInt64.toNat).filter (· < size)

/-- Take newly found blocks from the unfound ones, and put them on the list of those to enter. -/
def discover : (found pending unfound : List Nat) → List Nat × List Nat
  | [], pending, unfound => (pending, unfound)
  | b :: found, pending, unfound =>
    if b ∈ unfound then discover found (b :: pending) (unfound.erase b)
    else discover found pending unfound

/-- Discovery moves blocks and adds none. -/
theorem length_discover : ∀ (found pending unfound : List Nat),
    (discover found pending unfound).1.length + (discover found pending unfound).2.length =
      pending.length + unfound.length
  | [], _, _ => rfl
  | b :: found, pending, unfound => by
    unfold discover
    split
    · rename_i h
      rw [length_discover found]
      have := List.length_erase_of_mem h
      have := List.length_pos_of_mem h
      simp only [List.length_cons]
      omega
    · exact length_discover found pending unfound

/-- What a search has collected of the blocks that it has entered, the last first. -/
structure Explored where
  /-- The blocks with their edges. -/
  entered : List (Nat × List Nat)
  /-- Those that return. -/
  returning : List Nat
  /-- Those in which the function ends. -/
  exits : List Nat

/-- Collect a block with its edges. -/
def Explored.enter (x : Explored) (b : Nat) (t : Option Terminator) (found : List Nat) :
    Explored :=
  match t with
  | some (.ret _) => ⟨(b, found) :: x.entered, b :: x.returning, b :: x.exits⟩
  | some .panic => ⟨(b, found) :: x.entered, x.returning, b :: x.exits⟩
  | _ => ⟨(b, found) :: x.entered, x.returning, x.exits⟩

/-- Enter the pending blocks, the first of them first, and all blocks found through them. -/
def explore {m : Type → Type} [Monad m] (decide : Operand → m (Option Bool))
    (blocks : List Block) (pending unfound : List Nat) (x : Explored) : m Explored :=
  match pending with
  | [] => return x
  | b :: pending => do
    let found ← match blocks[b]? with
      | some block => targets decide blocks.length block.terminator
      | none => pure []
    have := length_discover found pending unfound
    explore decide blocks (discover found pending unfound).1 (discover found pending unfound).2
      (x.enter b (blocks[b]?.map Block.terminator) found)
termination_by pending.length + unfound.length
decreasing_by simp_all

/-- Put a block where it belongs among blocks in ascending order. -/
def insert (b : Nat) : List Nat → List Nat
  | [] => [b]
  | c :: l => if b ≤ c then b :: c :: l else c :: insert b l

/-- Blocks in ascending order. -/
def sort (l : List Nat) : List Nat := l.foldr insert []

/-- The graph of what a search has collected. -/
def ofExplored (blocks : List Block) (x : Explored) : FlowGraph :=
  let edges := (List.range blocks.length).map fun b ↦ x.entered.lookup b
  let table : Table := edges.map fun e ↦ e.getD []
  { edges
    returning := sort x.returning
    exits := sort x.exits
    order := table.orderFrom 0
    tree := .ofTable table }

/-- The flow graph of a function, its conditions decided in the order in which blocks are
entered. -/
def build {m : Type → Type} [Monad m] (decide : Operand → m (Option Bool)) (f : Function) :
    m FlowGraph := do
  let x ← match f.blocks with
    | [] => pure ⟨[], [], []⟩
    | _ :: _ => explore decide f.blocks [0] ((List.range f.blocks.length).erase 0) ⟨[], [], []⟩
  return ofExplored f.blocks x

/-- Number of blocks of the function, reachable or not. -/
def size (g : FlowGraph) : Nat := g.edges.length

/-- Some path leads from the entry to the block. -/
def isReachable (g : FlowGraph) (b : Nat) : Bool := (g.edges.getD b none).isSome

/-- The reachable blocks, in ascending order. -/
def blocks (g : FlowGraph) : List Nat := (List.range g.size).filter g.isReachable

/-- The edges from a block that can be taken. -/
def successors (g : FlowGraph) (b : Nat) : List Nat := (g.edges.getD b none).getD []

/-- The successors of all blocks. -/
def table (g : FlowGraph) : Table := g.edges.map fun e ↦ e.getD []

/-- Both blocks are reachable, and the first lies on every path from the entry to the second. -/
def dominates (g : FlowGraph) (a b : Nat) : Bool :=
  g.isReachable a && g.isReachable b && (g.tree.ancestors g.order b).contains a

/-- The block runs in every run of the function that comes to an end, and some may. -/
def isUnconditional (g : FlowGraph) (b : Nat) : Bool :=
  g.isReachable b && !g.exits.isEmpty && g.exits.all (g.dominates b)

/-- Go through the pending blocks, the first of them first, and all that edges lead to, until the
block looked for comes. A block may be pending more than once: it is marked when it comes, and a
marked block is passed over. -/
def leadsTo (g : FlowGraph) (target : Nat) (pending unmarked : List Nat) : Bool :=
  match pending with
  | [] => false
  | b :: pending =>
    if b = target then true
    else if b ∈ unmarked then
      g.leadsTo target ((g.successors b).reverse ++ pending) (unmarked.erase b)
    else g.leadsTo target pending unmarked
termination_by (unmarked.length, pending.length)
decreasing_by
  · have hlt := List.length_erase_of_mem ‹b ∈ unmarked›
    have hpos := List.length_pos_of_mem ‹b ∈ unmarked›
    exact Prod.Lex.left _ _ (by omega)
  · exact Prod.Lex.right _ (by simp)

/-- The first block is reachable, and a path leads from it to the second. -/
def pathExists (g : FlowGraph) (a b : Nat) : Bool :=
  g.isReachable a && g.leadsTo b [a] (List.range g.size)

end FlowGraph
end Wiring
