import Wiring.Proofs.Flow.Build
import Wiring.Proofs.Flow.DominatorTree

/-!
# Dominance in flow graphs

What the questions to a flow graph mean in terms of its paths. They are answered for the graph as
it was built, in which some edges may have been left out, however its conditions were decided.
-/

namespace Wiring.FlowGraph

open Wiring.Program (Block Terminator Operand Function)
open Wiring.Flow (Table SearchOrder)
open Wiring.Flow.DominatorTree (atRest_ofTable)

/-- In a list without repeated keys, every entry is found under its key. -/
theorem lookup_eq_some_iff_mem {α : Type} {l : List (Nat × α)} (hkeys : (l.map Prod.fst).Nodup)
    {k : Nat} {a : α} : l.lookup k = some a ↔ (k, a) ∈ l := by
  induction l with
  | nil => simp
  | cons e l ih =>
    obtain ⟨k', a'⟩ := e
    rw [List.map_cons, List.nodup_cons] at hkeys
    have ih := ih hkeys.2
    by_cases hk : k = k'
    · subst hk
      have hnot : (k, a) ∉ l := fun hmem ↦ hkeys.1 (List.mem_map.mpr ⟨_, hmem, rfl⟩)
      simp [hnot, eq_comm]
    · have hne : (k == k') = false := by simpa using hk
      simp [List.lookup_cons, hne, hk, ih]

/-- The function ends in the block, by a return or in a panic. -/
def Ends (f : Function) (b : Nat) : Prop :=
  ∃ block, f.blocks[b]? = some block ∧
    (block.terminator = .panic ∨ ∃ results, block.terminator = .ret results)

theorem ends_iff {f : Function} {b : Nat} : ends f.blocks b ↔ Ends f b := by
  unfold ends Ends
  cases f.blocks[b]? with
  | none => simp
  | some block =>
    obtain ⟨_, t⟩ := block
    cases t <;> simp

variable {D : Operand → Bool → Prop} {blocks : List Block} {b c : Nat}
  {unfound found : List Nat} {x : Explored}

namespace Exploring

/-- No block is entered twice. -/
theorem nodup (h : Exploring D blocks [] unfound x) : (x.entered.map Prod.fst).Nodup := by
  have hall := h.known.nodup_iff.mpr List.nodup_range
  rw [List.append_nil] at hall
  exact hall.of_append_left

/-- Blocks entered are blocks of the function. -/
theorem lt_of_mem (h : Exploring D blocks [] unfound x) (hb : (b, found) ∈ x.entered) :
    b < blocks.length := by
  have hkey : b ∈ x.entered.map Prod.fst := List.mem_map.mpr ⟨_, hb, rfl⟩
  exact List.mem_range.mp (h.known.mem_iff.mp (by simp [hkey]))

/-- The edges of a block are looked up by its number. -/
theorem lookup_eq_some_iff (h : Exploring D blocks [] unfound x) :
    x.entered.lookup b = some found ↔ (b, found) ∈ x.entered := lookup_eq_some_iff_mem h.nodup

/-- The graph keeps the edges of each block x.entered. -/
theorem edges_eq (h : Exploring D blocks [] unfound x) (b : Nat) :
    (ofExplored blocks x).edges.getD b none = x.entered.lookup b := by
  by_cases hlt : b < blocks.length
  · simp [ofExplored, List.getD_eq_getElem?_getD, hlt]
  · have hnone : x.entered.lookup b = none := by
      rw [Option.eq_none_iff_forall_ne_some]
      exact fun found hb ↦ hlt (h.lt_of_mem (h.lookup_eq_some_iff.mp hb))
    simp [ofExplored, List.getD_eq_getElem?_getD, hlt, hnone]

/-- The reachable blocks are those x.entered. -/
theorem isReachable_iff_mem (h : Exploring D blocks [] unfound x) :
    (ofExplored blocks x).isReachable b ↔ ∃ found, (b, found) ∈ x.entered := by
  rw [isReachable, h.edges_eq, Option.isSome_iff_exists]
  exact exists_congr fun found ↦ h.lookup_eq_some_iff

theorem isReachable_iff_mem_keys (h : Exploring D blocks [] unfound x) :
    (ofExplored blocks x).isReachable b ↔ b ∈ x.entered.map Prod.fst := by
  simp [h.isReachable_iff_mem]

/-- The successors of a block entered are the blocks that its edges lead to. -/
theorem mem_successors_iff (h : Exploring D blocks [] unfound x) :
    c ∈ (ofExplored blocks x).successors b ↔ ∃ found, (b, found) ∈ x.entered ∧ c ∈ found := by
  rw [successors, h.edges_eq]
  cases hl : x.entered.lookup b with
  | none =>
    have hnot : ∀ found, (b, found) ∉ x.entered := fun found hmem ↦ by
      rw [h.lookup_eq_some_iff.mpr hmem] at hl
      simp at hl
    simp [hnot]
  | some l =>
    rw [Option.getD_some]
    refine ⟨fun hc ↦ ⟨l, h.lookup_eq_some_iff.mp hl, hc⟩, fun ⟨found, hmem, hc⟩ ↦ ?_⟩
    rw [h.lookup_eq_some_iff.mpr hmem] at hl
    cases hl
    exact hc

end Exploring

/-- The table of a graph has the successors of each block. -/
theorem successors_table (g : FlowGraph) (b : Nat) : g.table.successors b = g.successors b := by
  unfold table successors Table.successors
  rw [List.getD_eq_getElem?_getD, List.getD_eq_getElem?_getD, List.getElem?_map]
  cases g.edges[b]? <;> rfl

section Explored

variable (h : Exploring D blocks [] unfound x)
include h

/-- Every edge leads to a block that has been x.entered. -/
theorem Exploring.isReachable_of_mem (hc : c ∈ (ofExplored blocks x).successors b) :
    (ofExplored blocks x).isReachable c := by
  obtain ⟨found, hmem, hcf⟩ := h.mem_successors_iff.mp hc
  have hkey := h.closed b found hmem c hcf
  rw [List.append_nil] at hkey
  obtain ⟨⟨_, l⟩, hl, rfl⟩ := List.mem_map.mp hkey
  exact h.isReachable_iff_mem.mpr ⟨l, hl⟩

/-- The reachable blocks are those that some path leads to. -/
theorem Exploring.isReachable_iff_reaches :
    (ofExplored blocks x).isReachable b ↔ (ofExplored blocks x).table.Reaches 0 b := by
  have hlen : (ofExplored blocks x).table.length = blocks.length := by
    simp [table, ofExplored]
  constructor
  · intro hb
    obtain ⟨found, hmem⟩ := h.isReachable_iff_mem.mp hb
    have hpos : 0 < blocks.length := Nat.lt_of_le_of_lt (Nat.zero_le b) (h.lt_of_mem hmem)
    have hfound := h.found b (List.mem_append_left _ (List.mem_map.mpr ⟨_, hmem, rfl⟩))
    clear hmem hb
    induction hfound with
    | entry => exact .refl (hlen ▸ hpos)
    | edge hb hmem hc ih =>
      refine ih.step ?_
      rw [successors_table]
      exact h.mem_successors_iff.mpr ⟨_, hmem, hc⟩
  · rintro ⟨p, hp⟩
    cases hp with
    | start hpos =>
      have hentry := h.entry (hlen ▸ hpos)
      rw [List.append_nil] at hentry
      obtain ⟨⟨_, l⟩, hl, hzero⟩ := List.mem_map.mp hentry
      cases hzero
      exact h.isReachable_iff_mem.mpr ⟨l, hl⟩
    | step hp hc => exact h.isReachable_of_mem (successors_table _ _ ▸ hc)

/-- The order of the graph is that of a search from its entry. -/
theorem Exploring.searchOrder (hpos : 0 < blocks.length) :
    SearchOrder (ofExplored blocks x).table (ofExplored blocks x).order := by
  have hlen : (ofExplored blocks x).table.length = blocks.length := by
    simp [table, ofExplored]
  refine SearchOrder.of_search (fun b c hc ↦ ?_) (hlen ▸ hpos) fun b c hc ↦ ?_
  · rw [successors_table] at hc
    obtain ⟨found, hmem⟩ := h.isReachable_iff_mem.mp (h.isReachable_of_mem hc)
    exact hlen ▸ h.lt_of_mem hmem
  · rw [successors_table] at hc
    obtain ⟨found, hmem, -⟩ := h.mem_successors_iff.mp hc
    exact h.isReachable_iff_reaches.mp (h.isReachable_iff_mem.mpr ⟨found, hmem⟩)

/-- The question for dominance is answered by the paths. -/
theorem Exploring.dominates_iff (a b : Nat) : (ofExplored blocks x).dominates a b ↔
    (ofExplored blocks x).table.Dominates a b := by
  have hdef : (ofExplored blocks x).dominates a b ↔
      (ofExplored blocks x).isReachable a ∧ (ofExplored blocks x).isReachable b ∧
        a ∈ (ofExplored blocks x).tree.ancestors (ofExplored blocks x).order b := by
    simp [dominates, and_assoc]
  rw [hdef, h.isReachable_iff_reaches, h.isReachable_iff_reaches, Table.Dominates]
  refine and_congr_right fun ha ↦ and_congr_right fun hb ↦ ?_
  have hpos : 0 < blocks.length := by
    obtain ⟨found, hmem⟩ := h.isReachable_iff_mem.mp (h.isReachable_iff_reaches.mpr hb)
    exact Nat.lt_of_le_of_lt (Nat.zero_le b) (h.lt_of_mem hmem)
  have ho := h.searchOrder hpos
  have hrest := atRest_ofTable ho (by simpa [table, ofExplored] using hpos)
  have hanc := hrest.mem_ancestors_iff ho ((ho.mem_iff b).mpr hb) (a := a)
  exact hanc.trans ⟨fun hd ↦ hd.2.2, fun hd ↦ ⟨ha, hb, hd⟩⟩

end Explored

/-- The exits are the reachable blocks in which the function ends. -/
theorem Exploring.mem_exits_iff {f : Function} (h : Exploring D f.blocks [] unfound x) :
    b ∈ (ofExplored f.blocks x).exits ↔
      (ofExplored f.blocks x).table.Reaches 0 b ∧ Ends f b := by
  have hdef : b ∈ (ofExplored f.blocks x).exits ↔ b ∈ x.exits := mem_sort
  rw [hdef, h.exits, List.mem_filter, ← h.isReachable_iff_reaches, h.isReachable_iff_mem_keys, ends_iff]

/-- The question whether a block runs unconditionally is answered by the paths. -/
theorem Exploring.isUnconditional_iff {f : Function} (h : Exploring D f.blocks [] unfound x)
    (t : Nat) : (ofExplored f.blocks x).isUnconditional t ↔
      (ofExplored f.blocks x).table.Reaches 0 t ∧
        (∃ e, Ends f e ∧ (ofExplored f.blocks x).table.Reaches 0 e) ∧
        ∀ e p, Ends f e → (ofExplored f.blocks x).table.Path 0 p e → t ∈ p := by
  have hdef : (ofExplored f.blocks x).isUnconditional t ↔
      (ofExplored f.blocks x).isReachable t ∧ (ofExplored f.blocks x).exits ≠ [] ∧
        ∀ e ∈ (ofExplored f.blocks x).exits, (ofExplored f.blocks x).dominates t e := by
    simp [isUnconditional, and_assoc]
  rw [hdef, h.isReachable_iff_reaches]
  refine and_congr_right fun ht ↦ and_congr ?_ ?_
  · refine ⟨fun hne ↦ ?_, fun ⟨e, he, hreach⟩ ↦
      List.ne_nil_of_mem (h.mem_exits_iff.mpr ⟨hreach, he⟩)⟩
    obtain ⟨e, he⟩ := List.exists_mem_of_ne_nil _ hne
    exact ⟨e, (h.mem_exits_iff.mp he).symm⟩
  · refine ⟨fun hall e p he hp ↦ ?_, fun hall e he ↦ ?_⟩
    · exact ((h.dominates_iff t e).mp (hall e (h.mem_exits_iff.mpr ⟨⟨p, hp⟩, he⟩))).2.2 p hp
    · obtain ⟨hreach, hends⟩ := h.mem_exits_iff.mp he
      exact (h.dominates_iff t e).mpr ⟨ht, hreach, fun p hp ↦ hall e p hends hp⟩

/-- However the conditions are decided: one block dominates another exactly if both are reachable
and every path from the entry to the other contains it; and a block runs unconditionally exactly if
it is reachable, the function may end, and every path to a block in which it ends contains it. -/
theorem dominates_isUnconditional_iff_paths {σ : Type} (decide : Operand → StateM σ (Option Bool))
    (f : Function) (s : σ) :
    (∀ a b, (build decide f s).1.dominates a b ↔
      (build decide f s).1.table.Reaches 0 a ∧ (build decide f s).1.table.Reaches 0 b ∧
        ∀ p, (build decide f s).1.table.Path 0 p b → a ∈ p) ∧
    ∀ t, (build decide f s).1.isUnconditional t ↔
      (build decide f s).1.table.Reaches 0 t ∧
        (∃ e, Ends f e ∧ (build decide f s).1.table.Reaches 0 e) ∧
        ∀ e p, Ends f e → (build decide f s).1.table.Path 0 p e → t ∈ p := by
  have hdecide : ∀ cond, Yields (fun _ : σ ↦ True) (fun d ↦ ∀ v : Bool, d = some v → True)
      (decide cond) := fun cond s hs ↦ ⟨fun _ _ ↦ trivial, hs⟩
  obtain ⟨x, unfound, hg, h⟩ := (build_yields (D := fun _ _ ↦ True) hdecide f s trivial).1
  rw [hg]
  exact ⟨h.dominates_iff, h.isUnconditional_iff⟩

end Wiring.FlowGraph
