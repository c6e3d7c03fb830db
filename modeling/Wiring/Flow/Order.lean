/-!
# Depth-first order

The order in which a depth-first search leaves the blocks of a graph, last first: a block comes
before the blocks that are found through it. The graph is a table of successors by block number.
-/

namespace Wiring.Flow

/-- The successors of each block. -/
abbrev Table := List (List Nat)

namespace Table

/-- The successors of a block; none for a number without a block. -/
def successors (g : Table) (b : Nat) : List Nat := g.getD b []

/-- What a search still has to do for blocks that it has not found: enter and leave each one, and
look at each of its successors. -/
def work (g : Table) (unfound : List Nat) : Nat :=
  unfound.foldr (fun b n ↦ (g.successors b).length + 2 + n) 0

/-- What a search still has to do for the blocks that it is in. -/
def openWork (stack : List (Nat × List Nat)) : Nat :=
  stack.foldr (fun e n ↦ e.2.length + 1 + n) 0

/-- Finding a block takes its share of the work off. -/
theorem work_erase (g : Table) {b : Nat} : ∀ {l : List Nat}, b ∈ l →
    g.work (l.erase b) + ((g.successors b).length + 2) = g.work l
  | [], h => by simp at h
  | a :: l, h => by
    by_cases hab : a = b
    · subst hab
      simp [work, Nat.add_comm]
    · have hb : b ∈ l := by simpa [Ne.symm hab] using h
      have ih := work_erase g hb
      simp only [work] at ih ⊢
      rw [List.erase_cons_tail (by simpa using hab)]
      simp only [List.foldr_cons]
      omega

/-- Continue a search. The stack holds the blocks that the search is in, each with the successors
that it has not looked at; the blocks that it has left are listed, the last first. -/
def search (g : Table) (stack : List (Nat × List Nat)) (unfound left : List Nat) : List Nat :=
  match stack with
  | [] => left
  | (b, []) :: stack => g.search stack unfound (b :: left)
  | (b, s :: rest) :: stack =>
    if hs : s ∈ unfound then
      have := g.work_erase hs
      g.search ((s, g.successors s) :: (b, rest) :: stack) (unfound.erase s) left
    else g.search ((b, rest) :: stack) unfound left
termination_by g.work unfound + openWork stack
decreasing_by all_goals simp_all [openWork]; try omega

/-- The blocks that can be reached from a block, itself first, each before those that a
depth-first search finds through it. -/
def orderFrom (g : Table) (b : Nat) : List Nat :=
  if b ∈ List.range g.length then
    g.search [(b, g.successors b)] ((List.range g.length).erase b) []
  else []

end Table
end Wiring.Flow
