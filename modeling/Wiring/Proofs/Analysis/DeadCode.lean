import Wiring.Proofs.Analysis.Emptied
import Wiring.Proofs.Analysis.Moment

/-!
# Dead code

A block that is not reachable in the flow graph of a frame may still have a say in the calls that
are found: the taint of a function goes by all its instructions, a local counts as holding whatever
is stored to it anywhere while the flow graph is being built, and a flow graph that was cut short is
built again. Where none of these happens, the block may as well be empty.
-/

namespace Wiring.Analysis

open Wiring.Program (Operand ValueId Instruction Callee Function Block)

/-- All there is to a call but the body of the function that makes it. -/
structure CallOutline where
  method : String
  args : List Operand
  frame : Frame.Key
  fidelity : Fidelity
  deriving DecidableEq, Repr

namespace ConfigurerCalls

/-- All there is to the calls but the bodies of the functions that make them. -/
def outline (r : ConfigurerCalls) : List CallOutline × Fidelity :=
  (r.calls.map fun c ↦ ⟨c.method, c.args, c.frame.key, c.fidelity⟩, r.fidelity)

/-- Calls of the same outlines are of the same outline together. -/
theorem outline_append {a a' r r' : ConfigurerCalls} (ha : a.outline = a'.outline)
    (hr : r.outline = r'.outline) : (a ++ r).outline = (a' ++ r').outline := by
  obtain ⟨hcalls, hfidelity⟩ := Prod.mk.inj ha
  obtain ⟨hcalls', hfidelity'⟩ := Prod.mk.inj hr
  refine Prod.ext ?_ (congrArg₂ max hfidelity hfidelity')
  change (a.calls ++ r.calls).map _ = (a'.calls ++ r'.calls).map _
  rw [List.map_append, List.map_append, hcalls, hcalls']

theorem outline_concat {l l' : List ConfigurerCalls} (h : l.map outline = l'.map outline) :
    (concat l).outline = (concat l').outline := by
  induction l generalizing l' with
  | nil =>
    rw [List.map_nil, eq_comm, List.map_eq_nil_iff] at h
    rw [h]
  | cons r l ih =>
    obtain ⟨r', l', rfl, hr, hl⟩ := List.map_eq_cons_iff.mp h.symm
    exact outline_append hr.symm (ih hl.symm)

end ConfigurerCalls

/-- A moment after the flow graph of the frame has first been asked for. -/
def After (env : Environment) (frame : Frame) (m : Memo) : Prop :=
  Moment env m ∧ (Query.flow env [frame.name] frame {}).2.Within m

/-- Whatever is built from flow graphs and results of calls leads to later moments. -/
theorem remembering_after (env : Environment) (frame : Frame) :
    Remembering env fun _ c _ ↦ ∀ m, After env frame m → After env frame (c m).2 where
  pure _ _ hm := hm
  bind hc hf m hm := hf _ _ (hc m hm)
  cutOff m hm := ⟨hm.1.cutOff, hm.2.trans ((remembering_grows env).cutOff m).2⟩
  rememberedFlow stack building callee hcallee _ m hm :=
    ⟨hm.1.flow stack building hcallee,
      hm.2.trans ((remembering_grows env).flowOf_self stack building callee hcallee m).2⟩
  rememberedResult stack building callee index hcallee _ m hm :=
    ⟨hm.1.result stack building hcallee index,
      hm.2.trans ((remembering_grows env).resultOf_self stack building callee index hcallee m).2⟩

section Uses

variable (env : Environment) (frame : Frame)

/-- The block is reachable in a flow graph of the frame: the first one, or one that is asked for
again while the configurer is being handed over to some function. -/
def MayRun (b : Nat) : Prop :=
  (Query.flow env [frame.name] frame {}).1.isReachable b ∨
    ∃ m name, After env frame m ∧ env.MayEnter [frame.name] name ∧
      (Query.flow env [name, frame.name] frame m).1.isReachable b

/-- The operand bears on the condition of a branch: it is one, or the condition is defined by it,
or loaded from a local to which it is stored in whatever block. -/
inductive Deciding : Operand → Prop
  | condition {b : Nat} {block : Block} {cond : Operand} {x y : Program.BlockId}
      (hrun : MayRun env frame b) (hblock : frame.function.blocks[b]? = some block)
      (hterminator : block.terminator = .branch cond x y) : Deciding cond
  | definition {id : ValueId} {i : Instruction} {o : Operand} (h : Deciding (.value id))
      (hdef : frame.function.definition id = some i) (ho : o ∈ i.operands) : Deciding o
  | stored {id : ValueId} {b : Nat} {o : Operand} (h : Deciding (.value id))
      (hstore : .store (.value id) o ∈ frame.function.instructionsOf b) : Deciding o

/-- The operand is used in a reachable block, or something used there is defined by it. -/
inductive Live : Operand → Prop
  | used {b : Nat} {i : Instruction} {o : Operand} (hrun : MayRun env frame b)
      (hi : i ∈ frame.function.instructionsOf b) (ho : o ∈ i.operands) : Live o
  | deciding {o : Operand} (h : Deciding env frame o) : Live o
  | definition {id : ValueId} {i : Instruction} {o : Operand} (h : Live (.value id))
      (hdef : frame.function.definition id = some i) (ho : o ∈ i.operands) : Live o

/-- The block is dead: it is not reachable, no value that it defines is used in a reachable block,
it stores to no local that bears on a condition, and the configurer is not affected by it. -/
structure Dead (configurer b : Nat) : Prop where
  unreachable : ¬ MayRun env frame b
  unused {id : ValueId} (h : frame.function.DefinesIn b id) : ¬ Live env frame (.value id)
  undeciding {id : ValueId} {o : Operand}
    (h : .store (.value id) o ∈ frame.function.instructionsOf b) : ¬ Deciding env frame (.value id)
  spares : (Taint.ofParams frame.function [configurer]).Spares frame.function b

end Uses

/-- If the first flow graph was not cut short, it is the only one. -/
theorem mayRun_iff_of_uncut {env : Environment} {frame : Frame} {b : Nat}
    (h : Memoized.Uncut (Query.flow env [frame.name] frame) {}) :
    MayRun env frame b ↔ (Query.flow env [frame.name] frame {}).1.isReachable b := by
  constructor
  · rintro (hb | ⟨m, name, hm, -, hb⟩)
    · exact hb
    · have hholds := hm.2 _ (Memoized.holds_of_uncut (keeps_flow frame.key) h)
      rwa [Query.flow, hm.1.flow_of_holds _ _ hholds] at hb
  · exact .inl

namespace Dead

variable {env : Environment} {frame : Frame} {configurer b : Nat}
  (hframe : env.Has frame) (h : Dead env frame configurer b)

section Parts

variable {stack : List String} {m : Memo} {o : Operand}

include h in
/-- The function defines what is used as before. -/
theorem alike {used : Operand → Prop} (hlive : ∀ {o}, used o → Live env frame o)
    (hdefinition : ∀ {id i o}, used (.value id) → frame.function.definition id = some i →
      o ∈ i.operands → used o) :
    Alike used frame.function (frame.function.emptied b) where
  definition hid := Function.definition_emptied fun hdef ↦ h.unused hdef (hlive hid)
  operands hid hd _ ho := hdefinition hid hd ho

include hframe in
/-- A result of a call, while the function is being followed. -/
theorem resultOf_coincide {I : Memo → Prop} (hI : Remembering env fun _ c _ ↦ ∀ m, I m → I (c m).2)
    (hstack : frame.name ∈ stack) (building : List String) {callee : Callee} {g : Function}
    (hg : env.followed callee = some g) (args : List (Option StaticValue)) (index : Nat) :
    Coincide I (resultOf env stack building ⟨g, args⟩ index)
      (resultOf (env.emptied frame.function b) stack building
        ⟨frame.function.emptiedIn b g, args⟩ index) :=
  fun m hm ↦ ⟨congrFun
    ((accord_emptied hframe).resultOf_counterpart hstack building g args index) m,
    hI.resultOf_self stack building _ index (Environment.has_of_followed hg args) m hm⟩

include hframe h in
/-- What bears on a condition, while the flow graph is being built. -/
theorem condition_coincide (hstack : frame.name ∈ stack) (ho : Deciding env frame o) :
    Coincide (Moment env)
      (resolveOperand env ⟨resultOf env stack [frame.name], unavailable⟩ frame [] o)
      (resolveOperand (env.emptied frame.function b)
        ⟨resultOf (env.emptied frame.function b) stack [frame.name], unavailable⟩
          (frame.emptied b) [] o) := by
  refine Coincide.lockstep.resolveOperand (mirrors_emptied hframe)
    (h.alike .deciding .definition)
    (fun _ _ hg ↦ resultOf_coincide hframe (remembering_moment env) hstack _ hg)
    (fun id hid resolve resolve' hresolve ↦ ?_) frame.args [] o ho
  refine Coincide.bind_of (c := unavailable) (fun m hm ↦ ⟨rfl, hm.cutOff⟩) fun m hm ↦ ?_
  change Coincide _
    (do let values ← Memoized.all resolve (storedTo frame.function none (.value id)); _)
    (do
      let values ← Memoized.all resolve' (storedTo (frame.function.emptied b) none (.value id)); _)
  rw [storedTo_emptied fun _ o hstore ↦ h.undeciding hstore hid]
  refine Coincide.bind (Coincide.lockstep.all _ fun o ho ↦ hresolve o ?_) fun _ ↦ .pure _
  obtain ⟨c, -, hstore⟩ := mem_storedTo_iff.mp ho
  exact .stored hid hstore

include hframe h in
/-- The flow graph, if the blocks that it reaches are among those that may run. -/
theorem flow_emptied (hm : Moment env m) (hstack : frame.name ∈ stack)
    (hrun : ∀ c, (Query.flow env stack frame m).1.isReachable c → MayRun env frame c) :
    Query.flow env stack frame m =
      Query.flow (env.emptied frame.function b) stack (frame.emptied b) m := by
  refine Memoized.remembered_congr fun hnone ↦ ?_
  have hbuilt : (Query.flow env stack frame m).1 =
      (builtFlow env (resultOf env stack) [] frame m).1 := by
    change (Memoized.rememberedFlow frame.key (builtFlow env (resultOf env stack) [] frame) m).1 = _
    unfold Memoized.rememberedFlow
    rw [Memoized.remembered_of_none hnone]
  rw [hbuilt] at hrun
  refine FlowGraph.build_congr Function.length_blocks_emptied
    (Function.terminator_emptied _ b) hm fun c hc block cond x y hblock hterminator ↦ ?_
  exact (h.condition_coincide hframe hstack
    (.condition (hrun c hc) hblock hterminator)).bind fun _ ↦ .pure _

variable {name : String} (hn : env.MayEnter [frame.name] name)
include hframe h hn

/-- The flow graph, asked for again. -/
theorem flow_coincide : Coincide (After env frame) (Query.flow env [name, frame.name] frame)
    (Query.flow (env.emptied frame.function b) [name, frame.name] (frame.emptied b)) :=
  fun m hm ↦ ⟨h.flow_emptied hframe hm.1 (by simp) fun _ hc ↦ .inr ⟨m, name, hm, hn, hc⟩,
    (remembering_after env frame).flowOf_self _ _ frame hframe m hm⟩

/-- What is used in a reachable block. -/
theorem resolve_coincide (ho : Live env frame o) :
    Coincide (After env frame) (Query.resolve env [name, frame.name] frame o)
      (Query.resolve (env.emptied frame.function b) [name, frame.name] (frame.emptied b) o) := by
  refine Coincide.lockstep.resolveOperand (mirrors_emptied hframe) (h.alike id .definition)
    (fun _ _ hg ↦ resultOf_coincide hframe (remembering_after env frame) (by simp) _ hg)
    (fun id hid resolve resolve' hresolve ↦ ?_) frame.args [] o ho
  have hflow := Coincide.lockstep.map (h.flow_coincide hframe hn) some
  refine Coincide.bind_of hflow fun m hm ↦ ?_
  have hunreachable : ¬ (Query.flow env [name, frame.name] frame m).1.isReachable b :=
    fun hb ↦ h.unreachable (.inr ⟨m, name, hm, hn, hb⟩)
  have hstored : storedTo (frame.function.emptied b)
      (some (Query.flow env [name, frame.name] frame m).1) (.value id) =
        storedTo frame.function (some (Query.flow env [name, frame.name] frame m).1) (.value id) :=
    storedTo_emptied fun hb ↦ absurd hb hunreachable
  change Coincide _
    (do
      let values ← Memoized.all resolve (storedTo frame.function
        (some (Query.flow env [name, frame.name] frame m).1) (.value id))
      _)
    (do
      let values ← Memoized.all resolve' (storedTo (frame.function.emptied b)
        (some (Query.flow env [name, frame.name] frame m).1) (.value id))
      _)
  rw [hstored]
  refine Coincide.bind (Coincide.lockstep.all _ fun o ho ↦ hresolve o ?_) fun _ ↦ .pure _
  obtain ⟨c, hc, hstore⟩ := mem_storedTo_iff.mp ho
  exact .used (.inr ⟨m, name, hm, hn, hc⟩) hstore (by simp [Instruction.operands])

end Parts

section Walk

include hframe h

/-- What is found of an encounter in a block that may run. -/
theorem encountered_coincide {g : FlowGraph} (hg : ∀ c, g.isReachable c → MayRun env frame c)
    {e : Encounter × Bool}
    (he : e ∈ (Taint.ofParams frame.function [configurer]).encounters frame.function g) :
    Coincide (After env frame)
      (ConfigurerCalls.outline <$> encountered env [frame.name] frame .immaculate e)
      (ConfigurerCalls.outline <$> encountered (env.emptied frame.function b) [frame.name]
        (frame.emptied b) .immaculate e) := by
  have hafter := remembering_after env frame
  have haccord := accord_emptied (b := b) hframe
  have hstack : frame.function.name ∈ [frame.name] := by simp [Frame.name]
  obtain ⟨encounter, always⟩ := e
  obtain ⟨c, hc, i, hi, hencounter⟩ := Taint.exists_of_mem_encounters he
  cases encounter with
  | call method args => exact .pure _
  | handover handover =>
    have heq := haccord.followed handover.callee
    cases hf : env.followed handover.callee with
    | none =>
      rw [hf] at heq
      rw [encountered_of_none hf, encountered_of_none heq]
      exact .pure _
    | some f =>
      rw [hf] at heq
      rw [encountered_of_some hf, encountered_of_some heq, haccord.name_counterpart f]
      by_cases henter : env.MayEnter [frame.name] f.name
      · rw [if_pos henter, if_pos ((haccord.mayEnter hstack _).mpr henter),
          haccord.counterpart_eq hstack henter, map_bind, map_bind]
        have hargs : Coincide (After env frame)
            (boundArgs (Query.resolve env [f.name, frame.name] frame) handover)
            (boundArgs (Query.resolve (env.emptied frame.function b) [f.name, frame.name]
              (frame.emptied b)) handover) :=
          Coincide.lockstep.boundArgs (fun o ho ↦ h.resolve_coincide hframe henter ho) handover
            fun a ha ↦ .used (hg c hc) hi (Taint.mem_operands_of_encounter hencounter ha)
        refine Coincide.bind hargs fun args ↦ ?_
        rw [← haccord.walk_eq_walk (haccord.enter hstack henter)]
        exact fun m hm ↦ ⟨rfl, hafter.walk_self _ _ _ _ (Environment.has_of_followed hf args) m hm⟩
      · rw [if_neg henter, if_neg (henter ∘ (haccord.mayEnter hstack _).mp)]
        exact fun m hm ↦ ⟨rfl, hafter.cutOff m hm⟩

/-- What a walk through the frame finds. -/
theorem outline_walk_emptied :
    (walk (env.emptied frame.function b) [frame.name] (frame.emptied b) [configurer] .immaculate
      {}).1.outline = (walk env [frame.name] frame [configurer] .immaculate {}).1.outline := by
  have hflow := h.flow_emptied hframe .start (List.mem_singleton_self _) fun c hc ↦ .inl hc
  have hunreachable : ¬ (Query.flow env [frame.name] frame {}).1.isReachable b :=
    fun hb ↦ h.unreachable (.inl hb)
  have hstart : After env frame (Query.flow env [frame.name] frame {}).2 :=
    ⟨.flow .start [frame.name] [] hframe, .refl _⟩
  have hescapes : (Taint.ofParams (frame.emptied b).function [configurer]).escapes
      (frame.emptied b).function =
        (Taint.ofParams frame.function [configurer]).escapes frame.function :=
    h.spares.escapes_emptied
  have hencounters : (Taint.ofParams (frame.emptied b).function [configurer]).encounters
      (frame.emptied b).function (Query.flow env [frame.name] frame {}).1 =
        (Taint.ofParams frame.function [configurer]).encounters frame.function
          (Query.flow env [frame.name] frame {}).1 :=
    h.spares.encounters_emptied hunreachable
  -- of each of the encounters, what is found has the same outline
  have hfound := (Coincide.lockstep (I := After env frame)).mapM
    ((Taint.ofParams frame.function [configurer]).encounters frame.function
      (Query.flow env [frame.name] frame {}).1)
    fun e he ↦ h.encountered_coincide hframe (fun c hc ↦ .inl hc) he
  rw [mapM_map_eq, mapM_map_eq] at hfound
  obtain ⟨heq, -⟩ := hfound _ hstart
  rw [walk_fst, walk_fst, ← hflow, hescapes, hencounters]
  exact ConfigurerCalls.outline_append rfl
    (ConfigurerCalls.outline_concat (congrArg Prod.fst heq).symm)

end Walk
end Dead

/-- A dead block may as well be empty: the calls on a configurer have the same outline. -/
theorem configurerCalls_emptied {env : Environment} {frame : Frame} {configurer b : Nat}
    (hframe : env.Has frame) (h : Dead env frame configurer b) :
    (Query.configurerCalls (env.emptied frame.function b) [] (frame.emptied b) configurer
      {}).1.outline = (Query.configurerCalls env [] frame configurer {}).1.outline := by
  unfold Query.configurerCalls findConfigurerCalls
  by_cases henter : env.MayEnter [] frame.name
  · have henter' : (env.emptied frame.function b).MayEnter [] (frame.emptied b).name :=
      (Environment.mayEnter_emptied hframe).mpr henter
    rw [if_pos henter, if_pos henter']
    exact h.outline_walk_emptied hframe
  · have henter' : ¬ (env.emptied frame.function b).MayEnter [] (frame.emptied b).name :=
      henter ∘ (Environment.mayEnter_emptied hframe).mp
    rw [if_neg henter, if_neg henter']

namespace DeadCode

/-- A function to which the configurer may be handed over. It calls the one that configures in turn,
which makes no difference to its result but cuts it short. -/
def helper : Function := ⟨"helper", [⟨"c", "Configurer"⟩, ⟨"name", "string"⟩],
  [⟨[.call none (.invoke (.param 0) "Identity") [.param 1, .const (.string "key")],
    .call (some ⟨0⟩) (.static "configure" []) []], .branch (.value ⟨0⟩) 1 2⟩,
  ⟨[], .ret [.const (.bool false)]⟩, ⟨[], .ret [.const (.bool false)]⟩]⟩

/-- A function that receives the configurer, the second block of which is unreachable. -/
def configure (first dead last : List Instruction) (t : Program.Terminator)
    (other : List Instruction := []) : Function :=
  ⟨"configure", [⟨"c", "Configurer"⟩],
    [⟨first, t⟩, ⟨dead, .jump 2⟩, ⟨last, .ret []⟩, ⟨other, .ret []⟩]⟩

/-- The program of such a function and the other one. -/
def programOf (f : Function) : Environment := { program := .ofLists [] [f, helper] [] }

/-- The frame in which nothing is known of the configurer. -/
def frameOf (f : Function) : Frame := ⟨f, []⟩

/-- The dead block stores something to a local that is loaded later. -/
def harmless : Function := configure
  [.alloc ⟨0⟩ "string", .store (.value ⟨0⟩) (.const (.string "app"))]
  [.call (some ⟨1⟩) (.static "other" []) [], .store (.value ⟨0⟩) (.value ⟨1⟩)]
  [.load ⟨2⟩ (.value ⟨0⟩), .call none (.static "helper" []) [.param 0, .value ⟨2⟩]]
  (.branch (.const (.bool false)) 1 2)

/-- The dead block stores the configurer to a global variable. -/
def escaping : Function := configure [] [.store (.global "kept") (.param 0)]
  [.call none (.invoke (.param 0) "Disable") []] (.jump 2)

/-- The dead block stores the configurer to a local, on which a method is called later. -/
def holding : Function := configure [.alloc ⟨0⟩ "Configurer"] [.store (.value ⟨0⟩) (.param 0)]
  [.load ⟨1⟩ (.value ⟨0⟩), .call none (.invoke (.value ⟨1⟩) "Disable") []] (.jump 2)

/-- The dead block stores something to a local on which a branch depends. -/
def deciding : Function := configure
  [.alloc ⟨0⟩ "bool", .store (.value ⟨0⟩) (.const (.bool true)), .load ⟨1⟩ (.value ⟨0⟩)]
  [.store (.value ⟨0⟩) (.const (.bool false))]
  [.call none (.invoke (.param 0) "Disable") []] (.branch (.value ⟨1⟩) 2 3)

/-- The flow graph is cut short, and while the configurer is handed over its branch cannot be
decided, so that then the dead block counts. -/
def rebuilt : Function := configure
  [.alloc ⟨0⟩ "string", .store (.value ⟨0⟩) (.const (.string "app")),
    .call (some ⟨1⟩) (.static "helper" []) []]
  [.store (.value ⟨0⟩) (.const (.string "other"))]
  [.load ⟨2⟩ (.value ⟨0⟩), .call none (.static "helper" []) [.param 0, .value ⟨2⟩]]
  (.branch (.value ⟨1⟩) 1 2)

/-- The dead block makes a local, to which another dead block stores the configurer. -/
def sheltering : Function := configure [] [.alloc ⟨0⟩ "Configurer"]
  [.call none (.invoke (.param 0) "Disable") []] (.jump 2) [.store (.value ⟨0⟩) (.param 0)]

/-- The dead block makes an interface of the configurer, which another dead block stores. -/
def wrapping : Function := configure [] [.makeInterface ⟨0⟩ (.param 0) "Configurer"]
  [.call none (.invoke (.param 0) "Disable") []] (.jump 2) [.store (.global "kept") (.value ⟨0⟩)]

/-- The second block of the function is not reachable and defines no value that a reachable block
works on, but with it the calls on the configurer are not what they are without it. -/
def Telling (f : Function) : Prop :=
  (∀ stack ∈ [[], [f.name]],
    ¬ (Query.flow (programOf f) stack (frameOf f) {}).1.isReachable 1 ∧
      ∀ c ∈ (Query.flow (programOf f) stack (frameOf f) {}).1.blocks, ∀ block ∈ f.blocks[c]?,
        ∀ i ∈ f.instructionsOf 1, ∀ id ∈ i.dest, .value id ∉ block.operands) ∧
    (Query.configurerCalls ((programOf f).emptied f 1) [] ((frameOf f).emptied 1) 0 {}).1.outline ≠
      (Query.configurerCalls (programOf f) [] (frameOf f) 0 {}).1.outline

/-- Only the dead block works on the value that it defines. -/
theorem notMem_operands_harmless {i : Instruction} {c : Nat} (hi : i ∈ harmless.instructionsOf c)
    (hc : c ≠ 1) : .value ⟨1⟩ ∉ i.operands := by
  have hlt : c < 4 := Function.lt_of_mem_instructionsOf hi
  have hother : ∀ c < 4, c ≠ 1 → ∀ i ∈ harmless.instructionsOf c, .value ⟨1⟩ ∉ i.operands := by
    decide
  exact hother c hlt hc i hi

/-- The dead block that stores something to a local is dead. -/
theorem dead_harmless : Dead (programOf harmless) (frameOf harmless) 0 1 := by
  have hrun : ∀ c, MayRun (programOf harmless) (frameOf harmless) c ↔
      (Query.flow (programOf harmless) ["configure"] (frameOf harmless) {}).1.isReachable c := by
    intro c
    refine mayRun_iff_of_uncut ?_
    unfold Memoized.Uncut
    decide +kernel
  have hdead : ¬ MayRun (programOf harmless) (frameOf harmless) 1 := by
    rw [hrun]
    decide +kernel
  have hdefines {id : ValueId} (h : harmless.DefinesIn 1 id) : id = ⟨1⟩ := by
    obtain ⟨i, hi, hdest⟩ := h
    have hall : ∀ i ∈ harmless.instructionsOf 1, ∀ id ∈ i.dest, id = ⟨1⟩ := by decide
    exact hall i hi id hdest
  have hdefinition {id : ValueId} {i : Instruction} (hdef : harmless.definition id = some i) :
      .value ⟨1⟩ ∉ i.operands := by
    have hall : ∀ i ∈ harmless.instructions, i.dest ≠ none → .value ⟨1⟩ ∉ i.operands := by decide
    have hdest : i.dest = some id := by simpa using List.find?_some hdef
    exact hall i (List.mem_of_find?_eq_some hdef) (by simp [hdest])
  have hdeciding {o : Operand} (h : Deciding (programOf harmless) (frameOf harmless) o) :
      o = .const (.bool false) := by
    induction h with
    | condition _ hblock hterminator =>
      have hall : ∀ block ∈ harmless.blocks, ∀ cond x y, block.terminator = .branch cond x y →
          cond = .const (.bool false) := by
        simp [harmless, configure]
      exact hall _ (List.mem_of_getElem? hblock) _ _ _ hterminator
    | definition _ _ _ ih => cases ih
    | stored _ _ ih => cases ih
  refine ⟨hdead, fun {id} hid hlive ↦ ?_, fun _ h ↦ ?_, ⟨by decide +kernel, ?_, ?_⟩⟩
  · obtain rfl := hdefines hid
    have hnot {o : Operand} (h : Live (programOf harmless) (frameOf harmless) o) :
        o ≠ .value ⟨1⟩ := by
      rintro rfl
      cases h with
      | used hrun hi ho => exact notMem_operands_harmless hi (by rintro rfl; exact hdead hrun) ho
      | deciding h => cases hdeciding h
      | definition _ hdef ho => exact hdefinition hdef ho
    exact hnot hlive rfl
  · cases hdeciding h
  · intro c i id hc hi hid hmem
    obtain rfl := hdefines hid
    exact absurd hmem (notMem_operands_harmless hi hc)
  · intro c id value hc hi hid
    obtain rfl := hdefines hid
    exact absurd (by simp [Instruction.operands]) (notMem_operands_harmless hi hc)

end DeadCode

open DeadCode in
/-- The name that is passed on is known whether or not the dead block is empty. -/
theorem configurerCalls_emptied_harmless :
    (programOf harmless).Has (frameOf harmless) ∧ Dead (programOf harmless) (frameOf harmless) 0 1 ∧
      (Query.configurerCalls ((programOf harmless).emptied (frameOf harmless).function 1) []
        ((frameOf harmless).emptied 1) 0 {}).1.outline =
          (Query.configurerCalls (programOf harmless) [] (frameOf harmless) 0 {}).1.outline := by
  have hframe : (programOf harmless).Has (frameOf harmless) := by
    unfold Environment.Has
    decide +kernel
  exact ⟨hframe, dead_harmless, configurerCalls_emptied hframe dead_harmless⟩

open DeadCode in
/-- A block that is not reachable may make a difference all the same: it may lose the configurer,
keep it for a later call, bear on a branch, be reachable at another time, or define what another
such block keeps the configurer in, or loses it by. -/
theorem configurerCalls_emptied_ne : Telling escaping ∧ Telling holding ∧ Telling deciding ∧
    Telling rebuilt ∧ Telling sheltering ∧ Telling wrapping := by
  refine ⟨?_, ?_, ?_, ?_, ?_, ?_⟩ <;> unfold Telling <;> decide +kernel

end Wiring.Analysis
