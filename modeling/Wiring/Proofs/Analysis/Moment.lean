import Wiring.Proofs.Analysis.Derivation
import Wiring.Proofs.Flow.GraphLookup
import Wiring.Analysis.ConfigurerCalls

/-!
# Moments of an analysis

Flow graphs are remembered by frame and read at other times than they are built at. At every moment
of an analysis, whatever is being followed or built, the flow graph of a frame is one of the frame's
function: reading it never fails.
-/

namespace Wiring.Analysis

open Wiring.Program (Operand Function Block)
open FlowGraph (Explored Exploring ofExplored)

/-- What may be remembered at some moment of an analysis: nothing at first; then an answer is cut
short, or a flow graph or a result of a call has been asked for, while some functions are being
followed and some flow graphs built. -/
inductive Moment (env : Environment) : Memo → Prop
  | start : Moment env {}
  | cutOff {m : Memo} (h : Moment env m) : Moment env m.cutShort
  | flow {m : Memo} (h : Moment env m) (stack building : List String) {frame : Frame}
      (hframe : env.Has frame) : Moment env (flowOf env (resultOf env stack) building frame m).2
  | result {m : Memo} (h : Moment env m) (stack building : List String) {frame : Frame}
      (hframe : env.Has frame) (index : Nat) :
      Moment env (resultOf env stack building frame index m).2

/-- Whatever is built from flow graphs and results of calls leads from moment to moment. -/
theorem remembering_moment (env : Environment) :
    Remembering env fun _ c _ ↦ ∀ m, Moment env m → Moment env (c m).2 where
  pure _ _ hm := hm
  bind hc hf m hm := hf _ _ (hc m hm)
  cutOff _ hm := hm.cutOff
  rememberedFlow stack building _ hframe _ _ hm := hm.flow stack building hframe
  rememberedResult stack building _ index hframe _ _ hm := hm.result stack building hframe index

/-- At every moment, everything remembered has a derivation. -/
theorem Moment.justified {env : Environment} {m : Memo} (h : Moment env m) : m.Justified env := by
  induction h with
  | start => exact fun e he ↦ by cases e <;> simp [Memo.Holds] at he
  | cutOff h ih => exact fun e he ↦ ih e (by cases e <;> exact he)
  | flow h stack building hframe ih =>
    exact (flowOf_concludes hframe (fun callee hc index ↦
      resultOf_concludes env stack _ callee hc index) _ ih).2
  | result h stack building hframe index ih =>
    exact (resultOf_concludes env stack building _ hframe index _ ih).2

/-- At every moment, each question is remembered with one answer. -/
theorem Moment.good {env : Environment} {m : Memo} (h : Moment env m) : Good env m := by
  induction h with
  | start => exact good_empty
  | cutOff h ih => exact (remembering_steady env).cutOff.good _ ih
  | flow h stack building hframe ih =>
    exact ((remembering_steady env).flowOf_self stack building _ hframe).good _ ih
  | result h stack building hframe index ih =>
    exact ((remembering_steady env).resultOf_self stack building _ index hframe).good _ ih

/-- At every moment, a flow graph that is remembered is the one that is given. -/
theorem Moment.flow_of_holds {env : Environment} {m : Memo} (h : Moment env m)
    (stack building : List String) {frame : Frame} {g : FlowGraph}
    (hg : m.Holds (.flow frame.key g)) :
    (flowOf env (resultOf env stack) building frame m).1 = g := by
  have hk := keeps_flow frame.key
  obtain ⟨g', hfind⟩ := Option.isSome_iff_exists.mp (hk.find?_isSome hg)
  have heq := h.good.unique _ _ (hk.holds_of_find? hfind) hg (hk.question_entry g' g)
  rw [← hk.entry_inj heq]
  exact congrArg Prod.fst (Memoized.remembered_of_some hfind)

/-- At every moment, the flow graph of a frame is that of an exploration of the frame's function. -/
theorem Moment.explored {env : Environment} {m : Memo} (h : Moment env m)
    (stack building : List String) {frame : Frame} (hframe : env.Has frame) :
    ∃ D x unfound, Exploring D frame.function.blocks [] unfound x ∧
      (flowOf env (resultOf env stack) building frame m).1 =
        ofExplored frame.function.blocks x := by
  have hflow : Concludes env (fun g ↦ Derivable env (.graph frame g))
      (flowOf env (resultOf env stack) building frame) :=
    flowOf_concludes hframe fun callee hc index ↦ resultOf_concludes env stack _ callee hc index
  have hderivable := (hflow m h.justified).1
  generalize (flowOf env (resultOf env stack) building frame m).1 = g at hderivable
  cases hderivable with
  | graph hD hexploring => exact ⟨_, _, _, hexploring, rfl⟩

/-- The operands that a function returns; it fails if a returning block is no block of the
function. -/
def returned? (f : Function) (g : FlowGraph) (index : Nat) : Option (List (Option Operand)) := do
  let blocks ← g.returning.mapM (f.blocks[·]?)
  return blocks.filterMap fun block ↦ match block.terminator with
    | .ret results => some results[index]?
    | _ => none

/-- The encounters of the reachable blocks; it fails if one is no block of the function, or it
cannot be told whether it runs unconditionally. -/
def Taint.encounters? (t : Taint) (f : Function) (g : FlowGraph) :
    Option (List (Encounter × Bool)) := do
  let found ← g.blocks.mapM fun b ↦ do
    let always ← g.isUnconditional? b
    let block ← f.blocks[b]?
    return block.instructions.filterMap fun i ↦ (t.encounter i).map (·, always)
  return found.flatten

section Reading

variable {D : Operand → Bool → Prop} {f : Function} {unfound : List Nat}
  {x : Explored} (h : Exploring D f.blocks [] unfound x)
include h

theorem lt_of_mem_returning {b : Nat} (hb : b ∈ (ofExplored f.blocks x).returning) :
    b < f.blocks.length := by
  have hmem : b ∈ x.returning := FlowGraph.mem_sort.mp hb
  rw [h.returning] at hmem
  obtain ⟨e, he, rfl⟩ := List.mem_map.mp (List.mem_filter.mp hmem).1
  exact h.lt_of_mem he

/-- Reading what a function returns never fails. -/
theorem returned?_eq (index : Nat) : returned? f (ofExplored f.blocks x) index =
    some (returned f (ofExplored f.blocks x) index) := by
  have hblock : ∀ b ∈ (ofExplored f.blocks x).returning,
      f.blocks[b]? = some (f.blocks[b]?.getD ⟨[], .panic⟩) := fun b hb ↦ by
    rw [List.getElem?_eq_getElem (lt_of_mem_returning h hb), Option.getD_some]
  rw [returned?, mapM_eq_some_map hblock]
  refine congrArg some ((List.filterMap_map ..).trans (List.filterMap_congr fun b hb ↦ ?_))
  have hlt := lt_of_mem_returning h hb
  rw [Function.comp_apply, List.getElem?_eq_getElem hlt, Option.getD_some, Option.map_some]
  cases f.blocks[b].terminator <;> rfl

/-- Reading the encounters of a function never fails. -/
theorem Taint.encounters?_eq (t : Taint) : t.encounters? f (ofExplored f.blocks x) =
    some (t.encounters f (ofExplored f.blocks x)) := by
  have hblock : ∀ b ∈ (ofExplored f.blocks x).blocks, (do
      let always ← (ofExplored f.blocks x).isUnconditional? b
      let block ← f.blocks[b]?
      return block.instructions.filterMap fun i ↦ (t.encounter i).map (·, always)) =
        some (((f.blocks[b]?.map Block.instructions).getD []).filterMap fun i ↦
          (t.encounter i).map (·, (ofExplored f.blocks x).isUnconditional b)) := fun b hb ↦ by
    have hlt : b < f.blocks.length := by
      have hsize := List.mem_range.mp (List.mem_filter.mp hb).1
      simpa [FlowGraph.size, ofExplored] using hsize
    rw [h.isUnconditional?_eq, List.getElem?_eq_getElem hlt]
    rfl
  rw [encounters?, mapM_eq_some_map hblock]
  exact congrArg some List.flatMap_def.symm

end Reading
end Wiring.Analysis
