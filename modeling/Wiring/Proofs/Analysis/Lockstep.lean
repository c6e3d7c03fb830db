import Wiring.Analysis.Query
import Wiring.Proofs.Flow.Build
import Wiring.Proofs.Program.Blocks

/-!
# Resolution in lockstep

A relation between computations that holds of equal plain answers and goes through sequencing holds
between two runs of everything that resolution is built from, once it holds of what the runs draw
on. Each function is gone through once, for computations of any two kinds; what is proved of
remembered answers are instances.
-/

namespace Wiring.Analysis

open Wiring.Program (Operand ValueId Instruction Callee Function Block Terminator)

/-- The frame is one of a function of the program. -/
def Environment.Has (env : Environment) (frame : Frame) : Prop :=
  env.program.function? frame.name = some frame.function

/-- The name of a frame's function is among the names of the program's functions. -/
theorem Environment.mem_functionNames {env : Environment} {frame : Frame} (h : env.Has frame) :
    frame.name ∈ env.functionNames :=
  List.mem_map.mpr ⟨frame.function, List.mem_of_find?_eq_some h, rfl⟩

/-- Looking up a function gives the function of that name. -/
theorem Environment.name_of_function? {env : Environment} {name : String} {f : Function}
    (h : env.program.function? name = some f) : f.name = name := by
  have hkey := List.find?_some h
  simpa [Keyed.key] using hkey

/-- A call runs a function of the program. -/
theorem Environment.function?_of_staticCallee {env : Environment} {callee : Callee} {f : Function}
    (h : env.staticCallee callee = some f) : env.program.function? f.name = some f := by
  have hname : ∃ name, env.program.function? name = some f := by
    unfold Environment.staticCallee at h
    split at h
    · exact ⟨_, h⟩
    · exact ⟨_, h⟩
    · simp at h
    · simp at h
  obtain ⟨name, hf⟩ := hname
  rw [Environment.name_of_function? hf]
  exact hf

/-- A call is followed into a function of the program. -/
theorem Environment.has_of_followed {env : Environment} {callee : Callee} {f : Function}
    (h : env.followed callee = some f) (args : List (Option StaticValue)) : env.Has ⟨f, args⟩ := by
  obtain ⟨hcallee, -⟩ := Option.filter_eq_some_iff.mp h
  exact Environment.function?_of_staticCallee hcallee

/-- A method is implemented by a function of the program, which is found under its own name. -/
theorem Environment.has_of_method? {env : Environment} {typeName method : String} {f : Function}
    (h : env.program.method? typeName method = some f) (args : List (Option StaticValue)) :
    env.Has ⟨f, args⟩ := by
  obtain ⟨t, -, h⟩ := Option.bind_eq_some_iff.mp h
  obtain ⟨name, -, hf⟩ := Option.bind_eq_some_iff.mp h
  unfold Environment.Has Frame.name
  rw [Environment.name_of_function? hf]
  exact hf

/-- A result of a call, computed anew while the functions on the stack are being followed. -/
def computedResult (env : Environment) (stack building : List String) (frame : Frame)
    (index : Nat) : Memoized (Option StaticValue) :=
  if env.MayEnter stack frame.name then
    agreedResult env (resultOf env (frame.name :: stack)) building frame index
  else do
    Memoized.cutOff
    return none

/-- A result of a call is computed anew unless it is remembered. -/
theorem resultOf_eq (env : Environment) (stack building : List String) (frame : Frame)
    (index : Nat) : resultOf env stack building frame index =
      Memoized.rememberedResult frame.key index (computedResult env stack building frame index) := by
  rw [resultOf]
  rfl

/-- A value is resolved by its definition, unless it is being followed. -/
theorem resolveBy_value {m : Type → Type} [Monad m] (frame : Frame) (visiting : List ValueId)
    (define : ValueId → Instruction → m (Option StaticValue)) (id : ValueId) :
    resolveBy frame visiting (fun id i _ _ ↦ define id i) (.value id) =
      if id ∈ visiting then return none
      else match frame.function.definition id with
        | none => return none
        | some i => define id i := by
  rw [resolveBy]
  split
  · rfl
  · split <;> simp [*]

theorem resolveOperand_value {m : Type → Type} [Monad m] (env : Environment) (src : Sources m)
    (frame : Frame) (visiting : List ValueId) (id : ValueId) :
    resolveOperand env src frame visiting (.value id) = if id ∈ visiting then return none
      else match frame.function.definition id with
        | none => return none
        | some i => resolveInstruction env src frame.function
            (resolveOperand env src frame (id :: visiting)) i := by
  rw [resolveOperand]
  exact resolveBy_value frame visiting
    (fun id ↦ resolveInstruction env src frame.function
      (resolveOperand env src frame (id :: visiting))) id

/-- The operands stored to an address in the blocks that count. -/
theorem mem_storedTo_iff {f : Function} {flow : Option FlowGraph} {addr o : Operand} :
    o ∈ storedTo f flow addr ↔
      ∃ c, flow.all (fun g ↦ g.isReachable c) ∧ .store addr o ∈ f.instructionsOf c := by
  unfold storedTo Function.instructionsOf
  rw [List.mem_flatMap]
  constructor
  · intro ⟨⟨block, c⟩, hblock, ho⟩
    replace hblock := List.mk_mem_zipIdx_iff_getElem?.mp hblock
    dsimp only at ho
    split at ho
    · next hcounts =>
      obtain ⟨i, hi, ho⟩ := List.mem_filterMap.mp ho
      split at ho
      · next a value =>
        rw [Option.ite_none_right_eq_some] at ho
        obtain ⟨rfl, ⟨⟩⟩ := ho
        exact ⟨c, hcounts, by rw [hblock]; exact hi⟩
      · cases ho
    · cases ho
  · intro ⟨c, hcounts, hi⟩
    cases hblock : f.blocks[c]? with
    | none => simp [hblock] at hi
    | some block =>
      refine ⟨(block, c), List.mk_mem_zipIdx_iff_getElem?.mpr hblock, ?_⟩
      dsimp only
      rw [if_pos hcounts]
      exact List.mem_filterMap.mpr ⟨_, by simpa [hblock] using hi, by simp⟩

/-- Resolution cannot tell the environments apart, but for the counterparts that functions have. -/
structure Mirrors (env env' : Environment) (counterpart : Function → Function) : Prop where
  vocabulary : env'.vocabulary = env.vocabulary
  global (name : String) : env'.program.global? name = env.program.global? name
  followed (callee : Callee) : env'.followed callee = (env.followed callee).map counterpart

theorem Mirrors.refl (env : Environment) : Mirrors env env id := ⟨rfl, fun _ ↦ rfl, fun _ ↦ by simp⟩

/-- The functions define the operands that are used alike, and by no others. -/
structure Alike (used : Operand → Prop) (f f' : Function) : Prop where
  definition {id : ValueId} (h : used (.value id)) : f'.definition id = f.definition id
  operands {id : ValueId} {i : Instruction} (h : used (.value id))
    (hd : f.definition id = some i) : ∀ o ∈ i.operands, used o

theorem Alike.refl (f : Function) : Alike (fun _ ↦ True) f f := ⟨fun _ ↦ rfl, fun _ _ _ _ ↦ trivial⟩

end Wiring.Analysis

namespace Wiring.Lockstep

open Wiring.Analysis
open Wiring.Program (Operand ValueId Instruction Callee Function)

section Kinds

variable {m n : Type → Type} [Monad m] [Monad n] {P : ∀ ⦃α : Type⦄, m α → n α → Prop}
  (hP : Lockstep P)
include hP

/-- The values of all items. -/
theorem all {α β : Type} {f : α → m (Option β)} {f' : α → n (Option β)} (l : List α)
    (hf : ∀ a ∈ l, P (f a) (f' a)) : P (Memoized.all f l) (Memoized.all f' l) := by
  induction l with
  | nil => exact hP.pure _
  | cons a l ih =>
    refine hP.bind (hf a (by simp)) fun b ↦ ?_
    cases b with
    | none => exact hP.pure _
    | some b => exact hP.bind (ih fun a ha ↦ hf a (by simp [ha])) fun _ ↦ hP.pure _

/-- A remembered answer, if the memo is read and changed in lockstep. -/
theorem remembered [MonadStateOf Memo m] [MonadStateOf Memo n] {α : Type} {c : m α} {d : n α}
    (hread : P (getThe Memo) (getThe Memo))
    (hchange : ∀ f : Memo → Memo, P (modifyThe Memo f) (modifyThe Memo f)) (hc : P c d)
    (find? : Memo → Option α) (keep : α → Memo → Memo) :
    P (Memoized.remembered find? keep c) (Memoized.remembered find? keep d) := by
  refine hP.bind hread fun before ↦ ?_
  cases find? before with
  | some a => exact hP.pure a
  | none =>
    refine hP.bind hc fun a ↦ hP.bind hread fun after ↦ ?_
    dsimp only
    split
    · exact hP.bind (hchange _) fun _ ↦ hP.pure a
    · exact hP.pure a

/-- An operand that is read as a value of some kind. -/
theorem resolveAs {resolve : Resolver m} {resolve' : Resolver n} {α : Type} {o : Operand}
    (h : P (resolve o) (resolve' o)) (read : StaticValue → Option α) :
    P (resolveAs read resolve o) (resolveAs read resolve' o) :=
  hP.bind h fun _ ↦ hP.pure _

/-- What all returns agree on. -/
theorem agreedReturn {flow : m FlowGraph} {flow' : n FlowGraph} {resolve : Resolver m}
    {resolve' : Resolver n} (hflow : P flow flow') (hresolve : ∀ o, P (resolve o) (resolve' o))
    (f : Function) (index : Nat) :
    P (agreedReturn flow resolve f index) (agreedReturn flow' resolve' f index) := by
  refine hP.bind hflow fun g ↦ hP.bind (hP.all _ fun o _ ↦ ?_) fun _ ↦ hP.pure _
  cases o with
  | none => exact hP.pure _
  | some o => exact hresolve o

/-- An operand, if what definitions tell is found in lockstep. -/
theorem resolveBy {frame : Frame} {visiting : List ValueId}
    {define : ∀ id i, id ∉ visiting → frame.function.definition id = some i →
      m (Option StaticValue)}
    {define' : ∀ id i, id ∉ visiting → frame.function.definition id = some i →
      n (Option StaticValue)}
    (h : ∀ id i hv hd, P (define id i hv hd) (define' id i hv hd)) (o : Operand) :
    P (resolveBy frame visiting define o) (resolveBy frame visiting define' o) := by
  cases o with
  | value id =>
    rw [Analysis.resolveBy, Analysis.resolveBy]
    split
    · exact hP.pure _
    · split
      · exact hP.pure _
      · exact h _ _ _ _
  | const | param | global | function => exact hP.pure _

/-- The value in a local of the same function. -/
theorem loadLocal {src : Sources m} {src' : Sources n} {f : Function} {resolve : Resolver m}
    {resolve' : Resolver n} (hflow : P src.flow src'.flow)
    (hresolve : ∀ o, P (resolve o) (resolve' o)) (id : ValueId) :
    P (loadLocal src f resolve id) (loadLocal src' f resolve' id) :=
  hP.bind hflow fun _ ↦ hP.bind (hP.all _ fun o _ ↦ hresolve o) fun _ ↦ hP.pure _

/-- An encounter is pursued by following handovers in lockstep. -/
theorem pursue {env : Environment} {frame : Frame}
    {follow : Function → Handover → Fidelity → m ConfigurerCalls}
    {follow' : Function → Handover → Fidelity → n ConfigurerCalls} (e : Encounter × Bool)
    (hfollow : ∀ h f, env.followed h.callee = some f → ∀ fidelity,
      P (follow f h fidelity) (follow' f h fidelity)) (inherited : Fidelity) :
    P (pursue env frame inherited follow e) (pursue env frame inherited follow' e) := by
  obtain ⟨encounter, always⟩ := e
  cases encounter with
  | call => exact hP.pure _
  | handover h =>
    unfold Analysis.pursue
    dsimp only
    cases hf : env.followed h.callee with
    | none => exact hP.pure _
    | some f => exact hfollow h f hf _

section Resolution

variable {env env' : Environment} {counterpart : Function → Function} {used : Operand → Prop}
  {f f' : Function} {src : Sources m} {src' : Sources n} {resolve : Resolver m}
  {resolve' : Resolver n} (henv : Mirrors env env' counterpart) (halike : Alike used f f')
  (hresult : ∀ callee g, env.followed callee = some g → ∀ args i,
    P (src.result ⟨g, args⟩ i) (src'.result ⟨counterpart g, args⟩ i))
  (hstored : ∀ id, used (.value id) → ∀ (resolve : Resolver m) (resolve' : Resolver n),
    (∀ o, used o → P (resolve o) (resolve' o)) →
      P (Analysis.loadLocal src f resolve id) (Analysis.loadLocal src' f' resolve' id))
  (hresolve : ∀ o, used o → P (resolve o) (resolve' o))

include henv halike hstored hresolve in
/-- The value at an address. -/
theorem resolveLoad (addr : Operand) (haddr : used addr) :
    P (resolveLoad env src f resolve addr) (resolveLoad env' src' f' resolve' addr) := by
  cases addr with
  | global name =>
    unfold Analysis.resolveLoad
    dsimp only
    rw [henv.global]
    exact hP.pure _
  | value id =>
    unfold Analysis.resolveLoad
    dsimp only
    rw [halike.definition haddr]
    split
    · exact hstored id haddr resolve resolve' hresolve
    · exact hP.pure _
  | param | const | function => exact hP.pure _

variable [LawfulMonad m] [LawfulMonad n]

include henv hresult hresolve in
/-- What following a call gives. -/
theorem follow (callee : Callee) (args : List Operand) (hargs : ∀ a ∈ args, used a)
    (index : Nat) :
    @P (Option StaticValue)
      (match env.followed callee with
        | none => return none
        | some g => do src.result ⟨g, ← args.mapM resolve⟩ index)
      (match env'.followed callee with
        | none => return none
        | some g => do src'.result ⟨g, ← args.mapM resolve'⟩ index) := by
  rw [henv.followed callee]
  cases hg : env.followed callee with
  | none => exact hP.pure _
  | some g =>
    exact hP.bind (hP.mapM args fun a ha ↦ hresolve a (hargs a ha)) fun args ↦
      hresult callee g hg args index

include henv hresult hresolve in
/-- A result of a call. -/
theorem resolveCall (callee : Callee) (args : List Operand) (hargs : ∀ a ∈ args, used a)
    (index : Nat) : P (resolveCall env src resolve callee args index)
      (resolveCall env' src' resolve' callee args index) := by
  have hfollow := hP.follow henv hresult hresolve callee args hargs index
  cases callee with
  | static function typeArgs =>
    unfold Analysis.resolveCall
    rw [henv.vocabulary]
    dsimp only
    split
    · exact hP.pure _
    · exact hfollow
  | dynamic value => exact hfollow
  | invoke receiver method => exact hfollow

include henv halike hresult hstored hresolve in
/-- The value that an instruction defines. -/
theorem resolveInstruction (i : Instruction) (hi : ∀ o ∈ i.operands, used o) :
    P (resolveInstruction env src f resolve i) (resolveInstruction env' src' f' resolve' i) := by
  cases i with
  | makeInterface dest value typeName =>
    exact hP.bind (hresolve _ (hi _ (by simp [Instruction.operands]))) fun _ ↦ hP.pure _
  | changeInterface dest value => exact hresolve _ (hi _ (by simp [Instruction.operands]))
  | call dest callee args =>
    exact hP.resolveCall henv hresult hresolve callee args
      (fun a ha ↦ hi a (by simp [Instruction.operands, ha])) 0
  | extract dest tuple index =>
    cases tuple with
    | value id =>
      have hid : used (.value id) := hi _ (by simp [Instruction.operands])
      unfold Analysis.resolveInstruction
      dsimp only
      rw [halike.definition hid]
      split
      · next hd =>
        exact hP.resolveCall henv hresult hresolve _ _
          (fun a ha ↦ halike.operands hid hd a (by simp [Instruction.operands, ha])) _
      · exact hP.pure _
    | param | const | global | function => exact hP.pure _
  | load dest addr =>
    exact hP.resolveLoad henv halike hstored hresolve addr (hi _ (by simp [Instruction.operands]))
  | binOp dest op lhs rhs =>
    refine hP.bind (hresolve lhs (hi _ (by simp [Instruction.operands]))) fun a ↦ ?_
    cases a with
    | none => exact hP.pure _
    | some a =>
      exact hP.bind (hresolve rhs (hi _ (by simp [Instruction.operands]))) fun _ ↦ hP.pure _
  | not dest value =>
    exact hP.bind (hresolve _ (hi _ (by simp [Instruction.operands]))) fun _ ↦ hP.pure _
  | phi dest edges =>
    exact hP.bind (hP.all edges fun a ha ↦ hresolve a (hi a (by simpa [Instruction.operands])))
      fun _ ↦ hP.pure _
  | alloc | store | slice | opaqueValue => exact hP.pure _

include hresolve in
/-- The arguments of a followed call. -/
theorem boundArgs (h : Handover) (hargs : ∀ a ∈ h.args, used a) :
    P (boundArgs resolve h) (boundArgs resolve' h) := by
  refine hP.mapM _ fun (a, i) ha ↦ ?_
  by_cases hi : i ∈ h.positions
  · simp only [hi, if_true]
    exact hP.pure _
  · simp only [hi, if_false]
    exact hresolve a (hargs a (List.fst_mem_of_mem_zipIdx ha))

include henv halike hresult hstored in
/-- An operand within a frame. -/
theorem resolveOperand (args : List (Option StaticValue)) (visiting : List ValueId) (o : Operand)
    (ho : used o) : P (resolveOperand env src ⟨f, args⟩ visiting o)
      (resolveOperand env' src' ⟨f', args⟩ visiting o) := by
  induction hn : (unvisited f visiting).length using Nat.strongRecOn
    generalizing visiting o with
  | ind n ih =>
    cases o with
    | value id =>
      rw [resolveOperand_value, resolveOperand_value]
      split
      · exact hP.pure _
      · next hv =>
        dsimp only
        rw [halike.definition ho]
        cases hd : f.definition id with
        | none => exact hP.pure _
        | some i =>
          refine hP.resolveInstruction henv halike hresult hstored (fun o ho ↦ ?_) i
            (halike.operands ho hd)
          exact ih _ (hn ▸ unvisited_lt hv hd) _ o ho rfl
    | const | param | global | function =>
      rw [Analysis.resolveOperand, Analysis.resolveOperand]
      exact hP.pure _

end Resolution

section Same

variable [LawfulMonad m] [LawfulMonad n] {env env' : Environment}
  {counterpart : Function → Function} {src : Sources m} {src' : Sources n}
  (henv : Mirrors env env' counterpart)
  (hresult : ∀ callee g, env.followed callee = some g → ∀ args i,
    P (src.result ⟨g, args⟩ i) (src'.result ⟨counterpart g, args⟩ i))
  (hflow : P src.flow src'.flow)
include henv hresult hflow

/-- The value that an instruction of the same function defines. -/
theorem resolveInstruction_same {f : Function} {resolve : Resolver m} {resolve' : Resolver n}
    (hresolve : ∀ o, P (resolve o) (resolve' o)) (i : Instruction) :
    P (Analysis.resolveInstruction env src f resolve i)
      (Analysis.resolveInstruction env' src' f resolve' i) :=
  hP.resolveInstruction henv (.refl f) hresult
    (fun _ _ _ _ hresolve ↦ hP.loadLocal hflow (fun o ↦ hresolve o trivial) _)
    (fun o _ ↦ hresolve o) i fun _ _ ↦ trivial

/-- An operand within the same frame. -/
theorem resolveOperand_same {frame : Frame} (visiting : List ValueId) (o : Operand) :
    P (Analysis.resolveOperand env src frame visiting o)
      (Analysis.resolveOperand env' src' frame visiting o) :=
  hP.resolveOperand henv (.refl _) hresult
    (fun _ _ _ _ hresolve ↦ hP.loadLocal hflow (fun o ↦ hresolve o trivial) _)
    frame.args visiting o trivial

end Same
end Kinds

section Results

variable {P : ∀ ⦃α : Type⦄, Memoized α → Memoized α → Prop} (hP : Lockstep P)
  {env env' : Environment} {counterpart : Function → Function}
  (henv : Mirrors env env' counterpart) {results results' : Results}
  {building building' : List String} {frame : Frame}
include hP henv

/-- A flow graph built anew. -/
theorem builtFlow (hcut : P unavailable unavailable)
    (hresults : ∀ callee g, env.followed callee = some g → ∀ args i,
      P (results (frame.name :: building) ⟨g, args⟩ i)
        (results' (frame.name :: building') ⟨counterpart g, args⟩ i)) :
    P (builtFlow env results building frame) (builtFlow env' results' building' frame) := by
  refine FlowGraph.build_lockstep hP (fun cond ↦ ?_) _
  exact hP.resolveAs (hP.resolveOperand_same henv hresults hcut [] cond) StaticValue.bool?

/-- A result of a function in a frame. -/
theorem agreedResult
    (hresults : ∀ callee g, env.followed callee = some g → ∀ args i,
      P (results building ⟨g, args⟩ i) (results' building' ⟨counterpart g, args⟩ i))
    (hbuilt : P (flowOf env results building frame) (flowOf env' results' building' frame))
    (hflow : P (sources env results building frame).flow
      (sources env' results' building' frame).flow)
    (index : Nat) : P (agreedResult env results building frame index)
      (agreedResult env' results' building' frame index) :=
  hP.agreedReturn hbuilt (hP.resolveOperand_same henv hresults hflow []) _ index

end Results
end Wiring.Lockstep

namespace Wiring.Analysis

open Wiring.Program (Operand ValueId Instruction Callee Function)

/-- A relation that goes through cut-offs, and through remembering flow graphs and results. -/
structure Remembering (env : Environment)
    (P : ∀ ⦃α : Type⦄, Memoized α → Memoized α → Prop) : Prop extends Lockstep P where
  cutOff : P Memoized.cutOff Memoized.cutOff
  rememberedFlow (stack building : List String) (frame : Frame) (hframe : env.Has frame)
    (h : P (builtFlow env (resultOf env stack) building frame)
      (builtFlow env (resultOf env stack) building frame)) :
    P (flowOf env (resultOf env stack) building frame)
      (flowOf env (resultOf env stack) building frame)
  rememberedResult (stack building : List String) (frame : Frame) (index : Nat)
    (hframe : env.Has frame)
    (h : P (computedResult env stack building frame index)
      (computedResult env stack building frame index)) :
    P (resultOf env stack building frame index) (resultOf env stack building frame index)

namespace Remembering

variable {P : ∀ ⦃α : Type⦄, Memoized α → Memoized α → Prop} {env : Environment}
  (hP : Remembering env P)
include hP

/-- A result that functions of the program agree on, if the results of the calls in them are
related. -/
theorem agreedResult_of {stack : List String} {frame : Frame} (hframe : env.Has frame)
    (hcallee : ∀ building callee, env.Has callee → ∀ i,
      P (resultOf env stack building callee i) (resultOf env stack building callee i))
    (building : List String) (index : Nat) :
    P (agreedResult env (resultOf env stack) building frame index)
      (agreedResult env (resultOf env stack) building frame index) := by
  have hunavailable : P unavailable unavailable := hP.bind hP.cutOff fun _ ↦ hP.pure _
  have hbuilt := hP.rememberedFlow stack building frame hframe
    (hP.builtFlow (.refl env) hunavailable fun _ g hg args i ↦
      hcallee _ _ (Environment.has_of_followed hg args) i)
  refine hP.agreedResult (.refl env)
    (fun _ g hg args i ↦ hcallee building _ (Environment.has_of_followed hg args) i) hbuilt ?_
    index
  unfold sources
  by_cases hbuilding : frame.name ∈ building
  · simpa only [hbuilding, if_true] using hunavailable
  · simpa only [hbuilding, if_false] using hP.map hbuilt some

/-- The result of a call. -/
theorem resultOf_self (stack building : List String) (frame : Frame) (index : Nat)
    (hframe : env.Has frame) :
    P (resultOf env stack building frame index) (resultOf env stack building frame index) := by
  induction hn : (env.remaining stack).length using Nat.strongRecOn
    generalizing stack building frame index with
  | ind n ih =>
    refine hP.rememberedResult stack building frame index hframe ?_
    unfold computedResult
    by_cases henter : env.MayEnter stack frame.name
    · simp only [henter, if_true]
      exact hP.agreedResult_of hframe (fun building callee hc i ↦
        ih _ (hn ▸ Environment.remaining_lt henter) _ _ _ _ hc rfl) building index
    · simp only [henter, if_false]
      exact hP.bind hP.cutOff fun _ ↦ hP.pure _

/-- A result of a function, computed anew. -/
theorem agreedResult_self (stack building : List String) (frame : Frame) (index : Nat)
    (hframe : env.Has frame) :
    P (agreedResult env (resultOf env stack) building frame index)
      (agreedResult env (resultOf env stack) building frame index) :=
  hP.agreedResult_of hframe (fun _ _ hc _ ↦ hP.resultOf_self _ _ _ _ hc) building index

/-- The flow graph of a frame, built anew. -/
theorem builtFlow_self (stack building : List String) (frame : Frame) :
    P (builtFlow env (resultOf env stack) building frame)
      (builtFlow env (resultOf env stack) building frame) :=
  hP.builtFlow (.refl env) (hP.bind hP.cutOff fun _ ↦ hP.pure _)
    fun _ _ hg args i ↦ hP.resultOf_self _ _ _ i (Environment.has_of_followed hg args)

/-- The flow graph of a frame. -/
theorem flowOf_self (stack building : List String) (frame : Frame) (hframe : env.Has frame) :
    P (flowOf env (resultOf env stack) building frame)
      (flowOf env (resultOf env stack) building frame) :=
  hP.rememberedFlow stack building frame hframe (hP.builtFlow_self stack building frame)

/-- An operand within a frame, while some values are being followed. -/
theorem resolveOperand_self (stack : List String) (frame : Frame) (hframe : env.Has frame)
    (visiting : List ValueId) (o : Operand) :
    P (resolveOperand env (sources env (resultOf env stack) [] frame) frame visiting o)
      (resolveOperand env (sources env (resultOf env stack) [] frame) frame visiting o) :=
  hP.resolveOperand_same (.refl env)
    (fun _ _ hg args i ↦ hP.resultOf_self _ _ _ i (Environment.has_of_followed hg args))
    (hP.map (hP.flowOf_self stack [] frame hframe) some) visiting o

/-- An operand within a frame. -/
theorem resolveIn_self (stack : List String) (frame : Frame) (hframe : env.Has frame)
    (o : Operand) : P (resolveIn env (resultOf env stack) [] frame o)
      (resolveIn env (resultOf env stack) [] frame o) :=
  hP.resolveOperand_self stack frame hframe [] o

/-- The calls on a configurer. -/
theorem walk_self (stack : List String) (frame : Frame) (params : List Nat) (inherited : Fidelity)
    (hframe : env.Has frame) :
    P (walk env stack frame params inherited) (walk env stack frame params inherited) := by
  induction hn : (env.remaining stack).length using Nat.strongRecOn
    generalizing stack frame params inherited with
  | ind n ih =>
    rw [walk]
    refine hP.bind (hP.flowOf_self stack [] frame hframe) fun g ↦
      hP.bind (hP.mapM _ fun e _ ↦ hP.pursue e (fun h f hf fidelity ↦ ?_) inherited)
        fun found ↦ hP.pure _
    split
    · next henter =>
      refine hP.bind (hP.boundArgs (fun o _ ↦ ?_) h fun _ _ ↦ trivial)
        fun args ↦ ?_
      · exact hP.resolveIn_self _ frame hframe o
      · exact ih _ (hn ▸ Environment.remaining_lt henter) _ _ _ _
          (Environment.has_of_followed hf args) rfl
    · exact hP.bind hP.cutOff fun _ ↦ hP.pure _

/-- The calls on the configurer that a frame's function receives. -/
theorem findConfigurerCalls_self (stack : List String) (frame : Frame) (configurer : Nat)
    (hframe : env.Has frame) : P (findConfigurerCalls env stack frame configurer)
      (findConfigurerCalls env stack frame configurer) := by
  unfold findConfigurerCalls
  split
  · exact hP.walk_self _ frame _ _ hframe
  · exact hP.bind hP.cutOff fun _ ↦ hP.pure _

end Remembering
end Wiring.Analysis
