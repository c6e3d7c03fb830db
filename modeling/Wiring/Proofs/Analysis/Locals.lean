import Wiring.Proofs.Analysis.Moment
import Wiring.Proofs.Analysis.Marks
import Wiring.Proofs.Recovery.Turns

/-!
# What a local is known to hold

A load from a local resolves exactly if some block that can be reached stores to the local, and all
that is stored in such blocks resolves to one value. Where in the graph the stores are makes no
difference: not even whether one of them comes before the load.
-/

namespace Wiring.Analysis

open Wiring.Program (Operand ValueId Instruction Function)

namespace Memoized

variable {α β : Type} {f : α → Memoized (Option β)}

/-- The items after one without value are not looked at. -/
theorem all_cons_fst (a : α) (l : List α) (m : Memo) : (all f (a :: l) m).1 =
    (f a m).1.bind fun b ↦ (all f l (f a m).2).1.map (b :: ·) := by
  rw [all]
  cases h : f a m with
  | mk r m' =>
    simp only [bind, StateT.bind, h]
    cases r <;> rfl

/-- The values of all items are those that the items have in their turns. -/
theorem all_fst_eq_some_iff {l : List α} {bs : List β} {m : Memo} : (all f l m).1 = some bs ↔
    List.Forall₂ (fun t b ↦ (f t.1 t.2).1 = some b) (turns f l m) bs := by
  induction l generalizing m bs with
  | nil =>
    show some [] = some bs ↔ List.Forall₂ _ [] bs
    rw [Option.some.injEq, List.forall₂_nil_left_iff, eq_comm]
  | cons a l ih =>
    rw [all_cons_fst, turns, List.forall₂_cons_left_iff, Option.bind_eq_some_iff]
    constructor
    · rintro ⟨b, hb, h⟩
      obtain ⟨rest, hrest, rfl⟩ := Option.map_eq_some_iff.mp h
      exact ⟨b, rest, hb, ih.mp hrest, rfl⟩
    · rintro ⟨b, rest, hb, hrest, rfl⟩
      exact ⟨b, hb, Option.map_eq_some_iff.mpr ⟨rest, ih.mpr hrest, rfl⟩⟩

/-- All items agree on a value exactly if there are any and each has the value in its turn. -/
theorem all_agreement_iff {f : α → Memoized (Option StaticValue)} {l : List α} {m : Memo}
    {v : StaticValue} : (all f l m).1.bind StaticValue.agreement = some v ↔
      turns f l m ≠ [] ∧ ∀ t ∈ turns f l m, (f t.1 t.2).1 = some v := by
  constructor
  · intro h
    apply StaticValue.of_bind_agreement (r := (all f l m).1) _ h
    intro vs hvs
    exact all_fst_eq_some_iff.mp hvs
  · intro ⟨hne, hall⟩
    have hvs : (all f l m).1 = some ((turns f l m).map fun _ ↦ v) := by
      rw [all_fst_eq_some_iff, List.forall₂_map_right_iff, List.forall₂_same]
      exact hall
    rw [hvs, Option.bind_some]
    cases hturns : turns f l m with
    | nil => exact absurd hturns hne
    | cons t rest => simp [StaticValue.agreement]

end Memoized

/-- What is known of an operand, while a value of the same frame is being followed. -/
def resolveFor (env : Environment) (stack : List String) (frame : Frame) (id : ValueId) :
    Resolver Memoized :=
  resolveOperand env (sources env (resultOf env stack) [] frame) frame [id]

/-- The operands that a frame's function stores to a local in blocks that can be reached, each with
what is remembered when it is resolved for a load that is being followed. -/
def storeTurns (env : Environment) (stack : List String) (frame : Frame) (id addr : ValueId)
    (m : Memo) : List (Operand × Memo) :=
  Memoized.turns (resolveFor env stack frame id)
    (storedTo frame.function (Query.flow env stack frame m).1 (.value addr))
    (Query.flow env stack frame m).2

/-- The instructions that run before the one at a place, on a path that leads to its block. -/
def runBefore (f : Function) (path : List Nat) (p : Place) : List Instruction :=
  path.tail.reverse.flatMap f.instructionsOf ++ (f.instructionsOf p.block).take p.index

/-- What runs before a place on a path is in blocks that can be reached. -/
theorem exists_of_mem_runBefore {f : Function} {g : Flow.Table} {path : List Nat} {p : Place}
    {i : Instruction} (hpath : g.Path 0 path p.block) (hi : i ∈ runBefore f path p) :
    ∃ b, g.Reaches 0 b ∧ i ∈ f.instructionsOf b := by
  rcases List.mem_append.mp hi with hi | hi
  · obtain ⟨b, hb, hi⟩ := List.mem_flatMap.mp hi
    have hmem : b ∈ path := List.mem_of_mem_tail (List.mem_reverse.mp hb)
    exact ⟨b, hpath.reaches_of_mem hmem, hi⟩
  · exact ⟨p.block, ⟨path, hpath⟩, List.mem_of_mem_take hi⟩

section Load

variable {env : Environment} {stack : List String} {frame : Frame} {id addr dest local' : ValueId}
  {typeName : String} {m : Memo}

/-- A load from a local is resolved by what is stored to the local. -/
theorem resolve_load (hload : frame.function.definition id = some (.load dest (.value addr)))
    (hlocal : frame.function.definition addr = some (.alloc local' typeName)) :
    Query.resolve env stack frame (.value id) = do
      let g ← Query.flow env stack frame
      let stored := storedTo frame.function g (.value addr)
      let values ← Memoized.all (resolveFor env stack frame id) stored
      return values.bind StaticValue.agreement := by
  unfold Query.resolve resolveIn
  rw [resolveOperand_value, if_neg List.not_mem_nil, hload]
  dsimp only
  rw [resolveInstruction, resolveLoad, hlocal]
  rfl

/-- A load from a local resolves to a value exactly if some path from the entry of the flow graph
passes a store to the local, and every operand that is stored to it on any path resolves to the
value, while the load is being followed. Among these operands are those stored before the load on a
path that leads to it; but there need be none. -/
theorem resolve_load_eq_some_iff (hm : Moment env m) (stack : List String) (hframe : env.Has frame)
    (hload : frame.function.definition id = some (.load dest (.value addr)))
    (hlocal : frame.function.definition addr = some (.alloc local' typeName)) (v : StaticValue) :
    let stores := storeTurns env stack frame id addr m
    let g := (Query.flow env stack frame m).1
    (∀ o, o ∈ stores.map Prod.fst ↔ ∃ path b, g.table.Path 0 path b ∧
      .store (.value addr) o ∈ frame.function.instructionsOf b) ∧
    (∀ path p, g.table.Path 0 path p.block → ∀ o,
      .store (.value addr) o ∈ runBefore frame.function path p → o ∈ stores.map Prod.fst) ∧
    ((Query.resolve env stack frame (.value id) m).1 = some v ↔
      stores ≠ [] ∧ ∀ t ∈ stores, (resolveFor env stack frame id t.1 t.2).1 = some v) := by
  intro stores g
  have hstored (o : Operand) : o ∈ stores.map Prod.fst ↔ ∃ path b, g.table.Path 0 path b ∧
      .store (.value addr) o ∈ frame.function.instructionsOf b := by
    obtain ⟨D, x, unfound, hexploring, hgraph⟩ := hm.explored stack [] hframe
    have hg : g = _ := hgraph
    show o ∈ (Memoized.turns _ (storedTo frame.function g (.value addr)) _).map Prod.fst ↔ _
    rw [Memoized.map_fst_turns, mem_storedTo_iff]
    constructor
    · intro ⟨b, hb, hstore⟩
      have hreach : g.isReachable b := hb
      rw [hg] at hreach ⊢
      obtain ⟨path, hpath⟩ := hexploring.isReachable_iff_reaches.mp hreach
      exact ⟨path, b, hpath, hstore⟩
    · intro ⟨path, b, hpath, hstore⟩
      refine ⟨b, ?_, hstore⟩
      show g.isReachable b
      rw [hg] at hpath ⊢
      exact hexploring.isReachable_iff_reaches.mpr ⟨path, hpath⟩
  refine ⟨hstored, ?_, ?_⟩
  · intro path p hpath o ho
    obtain ⟨b, ⟨path', hpath'⟩, hstore⟩ := exists_of_mem_runBefore hpath ho
    exact (hstored o).mpr ⟨path', b, hpath', hstore⟩
  · rw [resolve_load hload hlocal]
    exact Memoized.all_agreement_iff

end Load

/-- On every path to the place, something is stored to the local before the place. -/
def StoredBefore (f : Function) (g : FlowGraph) (addr : ValueId) (p : Place) : Prop :=
  ∀ path, g.table.Path 0 path p.block →
    ∃ o, .store (.value addr) o ∈ runBefore f path p

namespace Unset

/-- A function that sets a local in one of two branches and loads from it after both. -/
def choose : Function := ⟨"choose", [],
  [⟨[.alloc ⟨0⟩ "string", .opaqueValue ⟨1⟩ "flag"], .branch (.value ⟨1⟩) 1 2⟩,
   ⟨[.store (.value ⟨0⟩) (.const (.string "x"))], .jump 2⟩,
   ⟨[.load ⟨2⟩ (.value ⟨0⟩)], .ret [.value ⟨2⟩]⟩]⟩

/-- The program of this function. -/
def program : Environment where
  program := .ofLists [] [choose] []

/-- The function without arguments. -/
def frame : Frame := ⟨choose, []⟩

end Unset

open Unset in
/-- The load resolves to what is stored in one of the branches, and that is all that is stored. -/
theorem resolve_load_choose : Moment program {} ∧ program.Has frame ∧
    choose.definition ⟨2⟩ = some (.load ⟨2⟩ (.value ⟨0⟩)) ∧
    choose.definition ⟨0⟩ = some (.alloc ⟨0⟩ "string") ∧
    (Query.resolve program [] frame (.value ⟨2⟩) {}).1 = some (.const (.string "x")) ∧
    (storeTurns program [] frame ⟨2⟩ ⟨0⟩ {}).map Prod.fst = [.const (.string "x")] ∧
    ∀ t ∈ storeTurns program [] frame ⟨2⟩ ⟨0⟩ {},
      (resolveFor program [] frame ⟨2⟩ t.1 t.2).1 = some (.const (.string "x")) := by
  have hframe : program.Has frame := by
    unfold Environment.Has
    decide +kernel
  have hload : choose.definition ⟨2⟩ = some (.load ⟨2⟩ (.value ⟨0⟩)) := rfl
  have hlocal : choose.definition ⟨0⟩ = some (.alloc ⟨0⟩ "string") := rfl
  have hresolve : (Query.resolve program [] frame (.value ⟨2⟩) {}).1 =
      some (.const (.string "x")) := by
    decide +kernel
  have hiff := (resolve_load_eq_some_iff .start [] hframe hload hlocal (.const (.string "x"))).2.2
  exact ⟨.start, hframe, hload, hlocal, hresolve, by decide +kernel, (hiff.mp hresolve).2⟩

open Unset in
/-- The load can be reached and resolves, although there is a path to it on which nothing is stored
to the local before. -/
theorem resolve_load_unset : program.Has frame ∧
    choose.definition ⟨0⟩ = some (.alloc ⟨0⟩ "string") ∧
    choose.definition ⟨2⟩ = some (.load ⟨2⟩ (.value ⟨0⟩)) ∧
    (choose.instructionsOf 2)[0]? = some (.load ⟨2⟩ (.value ⟨0⟩)) ∧
    (Query.flow program [] frame {}).1.isReachable 2 ∧
    (Query.resolve program [] frame (.value ⟨2⟩) {}).1 = some (.const (.string "x")) ∧
    ¬ StoredBefore choose (Query.flow program [] frame {}).1 ⟨0⟩ ⟨2, 0⟩ := by
  refine ⟨?_, rfl, rfl, rfl, by decide +kernel, by decide +kernel, ?_⟩
  · unfold Environment.Has
    decide +kernel
  · intro h
    have hpath : (Query.flow program [] frame {}).1.table.Path 0 [2, 0] 2 := by
      apply Flow.Table.Path.step
      · exact .start (by decide +kernel)
      · decide +kernel
    obtain ⟨o, ho⟩ := h [2, 0] hpath
    have hnone : runBefore choose [2, 0] ⟨2, 0⟩ =
        [.alloc ⟨0⟩ "string", .opaqueValue ⟨1⟩ "flag"] := rfl
    rw [hnone] at ho
    simp at ho

end Wiring.Analysis
