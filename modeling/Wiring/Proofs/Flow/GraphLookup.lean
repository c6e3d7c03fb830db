import Wiring.Proofs.Flow.Dominance
import Wiring.Proofs.Flow.Lookup

/-!
# Look-ups in flow graphs

Flow graphs are built and read by block number. Written such that they fail where they would look up
what is no block of the function, building and reading never fail, however the conditions are
decided.
-/

namespace Wiring

/-- If an item never fails, nor does a list of items. -/
theorem mapM_eq_some_map {α β : Type} {f : α → Option β} {g : α → β} {l : List α}
    (h : ∀ a ∈ l, f a = some (g a)) : l.mapM f = some (l.map g) := by
  induction l with
  | nil => rfl
  | cons a l ih =>
    rw [List.mapM_cons, h a (by simp), ih fun b hb ↦ h b (List.mem_cons_of_mem _ hb)]
    rfl

namespace FlowGraph

open Wiring.Program (Block Operand Function)
open Wiring.Flow (DominatorTree)
open Wiring.Flow.DominatorTree (atRest_ofTable)

/-- Enter the pending blocks and all blocks found through them; it fails if one of them is no block
of the function. -/
def explore? {m : Type → Type} [Monad m] (decide : Operand → m (Option Bool))
    (blocks : List Block) (pending unfound : List Nat) (x : Explored) : m (Option Explored) :=
  match pending with
  | [] => return some x
  | b :: pending =>
    match blocks[b]? with
    | none => return none
    | some block => do
      let found ← targets decide blocks.length block.terminator
      have := length_discover found pending unfound
      if ∀ c ∈ found, c < blocks.length then
        explore? decide blocks (discover found pending unfound).1
          (discover found pending unfound).2 (x.enter b (some block.terminator) found)
      else return none
termination_by pending.length + unfound.length
decreasing_by simp_all

/-- The graph of what a search has collected; it fails if no dominator tree is found. -/
def ofExplored? (blocks : List Block) (x : Explored) : Option FlowGraph := do
  let g := ofExplored blocks x
  return { g with tree := ← DominatorTree.ofTable? g.table }

/-- The flow graph of a function; it fails if the exploration fails, or no dominator tree is
found. -/
def build? {m : Type → Type} [Monad m] (decide : Operand → m (Option Bool)) (f : Function) :
    m (Option FlowGraph) := do
  let explored ← match f.blocks with
    | [] => pure (some ⟨[], [], []⟩)
    | _ :: _ => explore? decide f.blocks [0] ((List.range f.blocks.length).erase 0) ⟨[], [], []⟩
  return explored.bind (ofExplored? f.blocks)

section Lockstep

variable {m n : Type → Type} [Monad m] [Monad n] {P : ∀ ⦃α : Type⦄, m α → n α → Prop}
  (hP : Lockstep P) {decide : Operand → m (Option Bool)} {decide' : Operand → n (Option Bool)}
  (hdecide : ∀ cond, P (decide cond) (decide' cond))
include hP hdecide

/-- Blocks are explored in lockstep if conditions are decided so. -/
theorem explore?_lockstep (blocks : List Block) (pending unfound : List Nat) (x : Explored) :
    P (explore? decide blocks pending unfound x) (explore? decide' blocks pending unfound x) := by
  -- by the number of blocks that are still to be entered
  induction hn : pending.length + unfound.length using Nat.strongRecOn
    generalizing pending unfound x with
  | ind n ih =>
    rw [explore?.eq_def, explore?.eq_def]
    cases pending with
    | nil => exact hP.pure _
    | cons b pending =>
      dsimp only
      split
      · exact hP.pure _
      · apply hP.bind (targets_lockstep hP fun cond _ _ _ ↦ hdecide cond)
        intro found
        split
        · apply ih _ _ _ _ _ rfl
          rw [length_discover, ← hn, List.length_cons]
          omega
        · exact hP.pure _

/-- Flow graphs are built in lockstep if conditions are decided so. -/
theorem build?_lockstep (f : Function) : P (build? decide f) (build? decide' f) := by
  unfold build?
  split
  · exact hP.bind (hP.pure _) fun _ ↦ hP.pure _
  · exact hP.bind (explore?_lockstep hP hdecide _ _ _ _) fun _ ↦ hP.pure _

end Lockstep

/-- The question for dominance; it fails if the climb to the entry does. -/
def dominates? (g : FlowGraph) (a b : Nat) : Option Bool :=
  if g.isReachable a && g.isReachable b then do
    return (← g.tree.ancestors? g.order b).contains a
  else some false

/-- The question whether a block runs unconditionally; it fails if one for dominance does. -/
def isUnconditional? (g : FlowGraph) (b : Nat) : Option Bool :=
  if g.isReachable b && !g.exits.isEmpty then do return (← g.exits.mapM (g.dominates? b)).all id
  else some false

variable {D : Operand → Bool → Prop} {blocks : List Block} {b : Nat}
  {pending unfound : List Nat} {x : Explored}

section Building

variable {σ : Type} (decide : Operand → StateM σ (Option Bool))

/-- An exploration never fails. -/
theorem Exploring.explore?_eq (h : Exploring (fun _ _ ↦ True) blocks pending unfound x) :
    explore? decide blocks pending unfound x =
      some <$> explore decide blocks pending unfound x := by
  -- Each block is entered once; an exploration keeps its pending blocks in range.
  induction hn : pending.length + unfound.length using Nat.strongRecOn
    generalizing pending unfound x with
  | ind n ih =>
    cases pending with
    | nil =>
      rw [explore?, explore]
      rfl
    | cons b pending =>
      have hlt : b < blocks.length := List.mem_range.mp (h.known.mem_iff.mp (by simp))
      have hstep : some <$> explore decide blocks (b :: pending) unfound x =
          targets decide blocks.length blocks[b].terminator >>= fun found ↦
            some <$> explore decide blocks (discover found pending unfound).1
              (discover found pending unfound).2
                (x.enter b (some blocks[b].terminator) found) := by
        rw [explore, List.getElem?_eq_getElem hlt]
        rfl
      rw [hstep, explore?, List.getElem?_eq_getElem hlt]
      refine (targets_yields (decide_yields decide)).bind_congr fun found hfound ↦ ?_
      have hall : ∀ c ∈ found, c < blocks.length := by
        obtain ⟨decision, -, rfl⟩ := hfound
        exact fun c hc ↦ lt_of_mem_taken hc
      refine (if_pos hall).trans ?_
      have henter := h.enter (List.getElem?_eq_getElem hlt) hfound
      rw [List.getElem?_eq_getElem hlt] at henter
      refine ih _ ?_ henter rfl
      rw [length_discover, ← hn, List.length_cons]
      omega

/-- The graph of an exploration is found without a failure. -/
theorem Exploring.ofExplored?_eq (h : Exploring D blocks [] unfound x) :
    ofExplored? blocks x = some (ofExplored blocks x) := by
  have htree : DominatorTree.ofTable? (ofExplored blocks x).table =
      some (ofExplored blocks x).tree :=
    DominatorTree.ofTable?_eq fun hpos ↦ h.searchOrder (by simpa [table, ofExplored] using hpos)
  simp only [ofExplored?, htree]
  rfl

/-- Building a flow graph never fails. -/
theorem build?_eq (f : Function) : build? decide f = some <$> build decide f := by
  unfold build? build
  cases hblocks : f.blocks with
  | nil =>
    have hempty : Exploring (fun _ _ ↦ True) [] [] [] ⟨[], [], []⟩ := by constructor <;> simp
    exact congrArg (fun g ↦ (pure g : StateM σ (Option FlowGraph))) hempty.ofExplored?_eq
  | cons block rest =>
    have hstart : Exploring (fun _ _ ↦ True) (block :: rest) [0]
        ((List.range (block :: rest).length).erase 0) ⟨[], [], []⟩ := .start (by simp)
    dsimp only
    rw [hstart.explore?_eq decide]
    exact (explore_yields (decide_yields decide) hstart).bind_congr fun x ⟨unfound, h⟩ ↦
      congrArg pure h.ofExplored?_eq

end Building

section Reading

variable (h : Exploring D blocks [] unfound x)
include h

/-- The climb from a reachable block to the entry never fails. -/
theorem Exploring.ancestors?_eq (hb : (ofExplored blocks x).isReachable b) :
    (ofExplored blocks x).tree.ancestors? (ofExplored blocks x).order b =
      some ((ofExplored blocks x).tree.ancestors (ofExplored blocks x).order b) := by
  have hpos : 0 < blocks.length := by
    obtain ⟨found, hmem⟩ := h.isReachable_iff_mem.mp hb
    exact Nat.lt_of_le_of_lt (Nat.zero_le b) (h.lt_of_mem hmem)
  have ho := h.searchOrder hpos
  have hrest := atRest_ofTable ho (by simpa [table, ofExplored] using hpos)
  have hmem := (ho.mem_iff b).mpr (h.isReachable_iff_reaches.mp hb)
  exact hrest.sound.ancestors?_eq ho (hrest.all b hmem)

/-- The question for dominance never fails. -/
theorem Exploring.dominates?_eq (a b : Nat) : (ofExplored blocks x).dominates? a b =
    some ((ofExplored blocks x).dominates a b) := by
  unfold dominates? dominates
  by_cases hab :
      (ofExplored blocks x).isReachable a && (ofExplored blocks x).isReachable b
  · obtain ⟨-, hb⟩ := Bool.and_eq_true_iff.mp hab
    rw [if_pos hab, h.ancestors?_eq hb, hab, Bool.true_and]
    rfl
  · rw [if_neg hab, eq_false_of_ne_true hab, Bool.false_and]

/-- The question whether a block runs unconditionally never fails. -/
theorem Exploring.isUnconditional?_eq (b : Nat) : (ofExplored blocks x).isUnconditional? b =
    some ((ofExplored blocks x).isUnconditional b) := by
  have hall := mapM_eq_some_map fun e (_ : e ∈ (ofExplored blocks x).exits) ↦
    h.dominates?_eq b e
  unfold isUnconditional? isUnconditional
  by_cases hb :
      (ofExplored blocks x).isReachable b && !(ofExplored blocks x).exits.isEmpty
  · rw [if_pos hb, hall, hb, Bool.true_and]
    simp [List.all_map]
  · rw [if_neg hb, eq_false_of_ne_true hb, Bool.false_and]

end Reading
end FlowGraph
end Wiring
