import Wiring.Flow.Order

/-!
# Paths

What a flow graph means for a run: the sequences of blocks that its edges allow. A block dominates
another when no path leads from the entry to the other without it.
-/

namespace Wiring.Flow.Table

/-- A path from one block to another along the edges. The blocks are listed, the last first. -/
inductive Path (g : Table) (a : Nat) : List Nat → Nat → Prop
  | start (h : a < g.length) : Path g a [a] a
  | step {p : List Nat} {b c : Nat} (hp : Path g a p b) (hc : c ∈ g.successors b) :
      Path g a (c :: p) c

/-- Some path leads from the first block to the second. -/
def Reaches (g : Table) (a b : Nat) : Prop := ∃ p, Path g a p b

/-- Both blocks can be reached from the entry, and the first is on every path to the second. -/
def Dominates (g : Table) (a b : Nat) : Prop :=
  g.Reaches 0 a ∧ g.Reaches 0 b ∧ ∀ p, Path g 0 p b → a ∈ p

/-- Every edge leads to a block of the graph. -/
def InRange (g : Table) : Prop := ∀ b, ∀ c ∈ g.successors b, c < g.length

variable {g : Table} {a b c : Nat} {p : List Nat}

/-- The last block is on the path. -/
theorem Path.mem_last (h : Path g a p b) : b ∈ p := by
  cases h <;> simp

/-- A path starts in a block of the graph. -/
theorem Path.start_lt (h : Path g a p b) : a < g.length := by
  induction h with
  | start h => exact h
  | step hp hc ih => exact ih

/-- Paths stay in the graph. -/
theorem Path.lt (hg : g.InRange) (h : Path g a p b) : b < g.length := by
  cases h with
  | start h => exact h
  | step hp hc => exact hg _ _ hc

/-- A block reaches itself. -/
theorem Reaches.refl (h : a < g.length) : g.Reaches a a := ⟨[a], .start h⟩

/-- What can be reached can be left along every edge. -/
theorem Reaches.step (h : g.Reaches a b) (hc : c ∈ g.successors b) : g.Reaches a c := by
  obtain ⟨p, hp⟩ := h
  exact ⟨c :: p, .step hp hc⟩

/-- Every block on a path can be reached. -/
theorem Path.reaches_of_mem (h : Path g a p b) (hc : c ∈ p) : g.Reaches a c := by
  induction h with
  | start h =>
    obtain rfl := List.mem_singleton.mp hc
    exact .refl h
  | step hp hd ih =>
    rcases List.mem_cons.mp hc with rfl | hc
    · exact ⟨_, hp.step hd⟩
    · exact ih hc

/-- A block that can be reached dominates itself. -/
theorem Dominates.refl (h : g.Reaches 0 b) : g.Dominates b b :=
  ⟨h, h, fun _ hp ↦ hp.mem_last⟩

/-- Whatever dominates a block, other than the block itself, dominates its predecessors. -/
theorem Dominates.of_edge (h : g.Dominates a c) (hb : g.Reaches 0 b) (hc : c ∈ g.successors b)
    (hne : a ≠ c) : g.Dominates a b := by
  refine ⟨h.1, hb, fun p hp ↦ ?_⟩
  have hmem := h.2.2 (c :: p) (.step hp hc)
  rcases List.mem_cons.mp hmem with hac | hap
  · exact absurd hac hne
  · exact hap

/-- The entry is dominated by itself alone. -/
theorem Dominates.eq_entry (h : g.Dominates a 0) : a = 0 := by
  obtain ⟨p, hp⟩ := h.2.1
  have hmem := h.2.2 [0] (.start hp.start_lt)
  exact List.mem_singleton.mp hmem

end Wiring.Flow.Table
