import Wiring.Flow.Order

/-!
# Immediate dominators

A block dominates another when every path from the entry to the other passes through it. The
immediate dominators are found by approximation: going over the blocks in depth-first order, a
block's dominator becomes the nearest common ancestor of its predecessors in the tree found so
far, until a round brings no block's dominator closer to the entry.
-/

namespace Wiring.Flow

/-- The immediate dominator of each block, as far as it has been found. The entry is its own. -/
abbrev DominatorTree := List (Option Nat)

namespace DominatorTree

/-- The immediate dominator of a block. -/
def parent? (t : DominatorTree) (b : Nat) : Option Nat := t.getD b none

/-- The nearest common ancestor of two blocks: whichever is later in the order climbs to its
parent. Parents come earlier in the order; where one does not, the climb ends. -/
def meet (order : List Nat) (t : DominatorTree) (a b : Nat) : Nat :=
  if order.idxOf b < order.idxOf a then
    match t.parent? a with
    | some p => if order.idxOf p < order.idxOf a then meet order t p b else a
    | none => a
  else if order.idxOf a < order.idxOf b then
    match t.parent? b with
    | some p => if order.idxOf p < order.idxOf b then meet order t a p else b
    | none => b
  else a
termination_by order.idxOf a + order.idxOf b

/-- The blocks of which a block is a successor. -/
def predecessors (g : Table) (b : Nat) : List Nat :=
  (List.range g.length).filter fun p ↦ (g.successors p).contains b

/-- The nearest common ancestor of those predecessors that are in the tree. -/
def common (g : Table) (order : List Nat) (t : DominatorTree) (b : Nat) : Option Nat :=
  ((predecessors g b).filter fun p ↦ (t.parent? p).isSome).foldl
    (fun found p ↦ match found with
      | none => some p
      | some q => some (meet order t q p))
    none

/-- One round over the blocks after the entry. -/
def round (g : Table) (order : List Nat) (t : DominatorTree) : DominatorTree :=
  order.tail.foldl (fun t b ↦ t.set b (common g order t b)) t

/-- How far the dominators are from the entry, all blocks together; one that is not found counts
as beyond all blocks. -/
def distance (order : List Nat) (t : DominatorTree) : Nat :=
  t.foldr (fun p n ↦ n + match p with
    | some p => order.idxOf p
    | none => order.length + 1) 0

/-- Go on with rounds while they bring dominators closer to the entry. -/
def settle (g : Table) (order : List Nat) (t : DominatorTree) : DominatorTree :=
  let next := round g order t
  if distance order next < distance order t then settle g order next else next
termination_by distance order t

/-- The tree in which only the entry has been found. -/
def start (g : Table) : DominatorTree := (List.replicate g.length none).set 0 (some 0)

/-- The dominator tree of a graph whose entry is its first block. -/
def ofTable (g : Table) : DominatorTree := settle g (g.orderFrom 0) (start g)

/-- A block and its ancestors, up to the entry. -/
def ancestors (order : List Nat) (t : DominatorTree) (b : Nat) : List Nat :=
  match t.parent? b with
  | some p => if order.idxOf p < order.idxOf b then b :: ancestors order t p else [b]
  | none => [b]
termination_by order.idxOf b

end DominatorTree
end Wiring.Flow
