import Wiring.Proofs.Analysis.Derivation
import Wiring.Proofs.Flow.Dominance
import Wiring.Proofs.Run.Provenance

/-!
# Derivations are true of runs

Whatever has a derivation within a frame is true of every run, wherever in the run the frame's
function has been called with arguments of which the frame is true. Values depend on flow graphs,
since only stores in reachable blocks count, and flow graphs on values, since conditions are
followed; a derivation of the one ends in derivations of the other, and so do the proofs.
-/

namespace Wiring.Program

/-- The operands to which an instruction applies an operator. -/
def Instruction.operated : Instruction → List Operand
  | binOp _ _ lhs rhs => [lhs, rhs]
  | not _ value => [value]
  | _ => []

/-- The condition of a branch. -/
def Terminator.condition : Terminator → List Operand
  | branch cond _ _ => [cond]
  | _ => []

end Wiring.Program

namespace Wiring.Run

open Wiring.Program (Constant BinaryOp ValueId Operand Callee Instruction Terminator Function Block)
open Wiring.Analysis (Environment Frame StaticValue Judgement Derivable IsResult storedTo returned)
open Wiring.FlowGraph (Explored Exploring ofExplored)

/-- What is known of a value in advance is true of a value in a run. Of routes nothing is said. -/
def Describes : StaticValue → Value → Prop
  | .const c, x => x = .const c
  | .boxed typeName held, x => ∃ y, x = .boxed typeName y ∧ Describes held y
  | .boxedUnknown typeName, x => ∃ y, x = .boxed typeName y
  | .constructed _ _, _ => True

/-- The activation is one of the frame's function, and what the frame knows of its arguments is
true. -/
structure Activation.Fits (a : Activation) (frame : Frame) : Prop where
  function : a.function = frame.function
  args : ∀ i v x, frame.arg i = some v → a.args[i]? = some x → Describes v x

/-- The operands that are used next in an operator or as the condition of a branch. -/
def Activation.operated (a : Activation) : List Operand :=
  (a.instruction?.map Instruction.operated).getD [] ++
    (a.terminator?.map Terminator.condition).getD []

/-- What the truth of derivations rests on: the run is careful, and within the frames in question,
which include those of the calls, an operand of an operator is not an interface value whose
content would be taken for the operand. -/
structure Setting (env : Environment) (P : State → Prop) (s₀ : State) (Φ : Frame → Prop) :
    Prop where
  ssa : SingleAssignment env
  initial : ∃ f args outside, s₀ = .initial f args outside
  invariant : Invariant env s₀
  careful : ∀ s, P s → Careful s
  called : ∀ frame callee (args : List Operand) f (bound : List (Option StaticValue)), Φ frame →
    env.followed callee = some f → bound.length = args.length →
      (∀ (i : Nat) o w, args[i]? = some o → bound[i]? = some (some w) →
        Derivable env (.value frame o w)) → Φ ⟨f, bound⟩
  operated : ∀ a rest m, Runs env P s₀ ⟨a :: rest, m⟩ → P ⟨a :: rest, m⟩ → ∀ frame, Φ frame →
    ∀ o ∈ a.operated, ∀ v x c, Derivable env (.value frame o v) → a.operand o = some x →
      Describes v x → v.constant? = some c → x = .const c

section True

variable (env : Environment) (P : State → Prop) (s₀ : State)

/-- Wherever the frame fits, what is known of the operand is true of it. -/
def TrueOf (frame : Frame) (o : Operand) (v : StaticValue) : Prop :=
  ∀ s, Runs env P s₀ s → ∀ a ∈ s.stack, a.Fits frame → ∀ x, a.operand o = some x → Describes v x

/-- Wherever the frame fits and its function returns, what is known of the result is true of it. -/
def TrueOfResult (frame : Frame) (index : Nat) (v : StaticValue) : Prop :=
  ∀ b rest m, Runs env P s₀ ⟨b :: rest, m⟩ → b.Fits frame → ∀ results vs,
    b.terminator? = some (.ret results) → b.operands results = some vs →
      ∀ x, vs[index]? = some x → Describes v x

/-- Wherever the frame fits, the block that is running is reachable in the graph. -/
def TrueOfFlow (frame : Frame) (g : FlowGraph) : Prop :=
  ∀ s, Runs env P s₀ s → ∀ a ∈ s.stack, a.Fits frame → ∀ block,
    a.function.blocks[a.block]? = some block →
      g.isReachable a.block ∧ ∀ results, block.terminator = .ret results → a.block ∈ g.returning

/-- The conclusion is true of the runs, if it is about one of the frames in question. -/
def Holds (Φ : Frame → Prop) : Judgement → Prop
  | .value frame o v => Φ frame → TrueOf env P s₀ frame o v
  | .result frame index v => Φ frame → TrueOfResult env P s₀ frame index v
  | .graph frame g => Φ frame → TrueOfFlow env P s₀ frame g

end True

variable {env : Environment} {P : State → Prop} {s₀ s : State} {Φ : Frame → Prop}
  {a b : Activation} {frame : Frame} {o : Operand} {v w : StaticValue} {x : Value}
  {id : ValueId} {i : Instruction}

/-- A frame fits an activation by its function and arguments alone. -/
theorem Activation.Fits.of_eq (h : a.Fits frame) (hf : b.function = a.function)
    (ha : b.args = a.args) : b.Fits frame where
  function := hf.trans h.function
  args := ha ▸ h.args

/-- What is true wherever the frame fits is true at an earlier moment of an activation. -/
theorem TrueOf.at (h : TrueOf env P s₀ frame o v) (hfit : a.Fits frame)
    (t : Moment env P s₀ a.function a.args) (hx : t.activation.operand o = some x) :
    Describes v x :=
  h _ t.runs t.activation (by simp) (hfit.of_eq t.function t.args) x hx

/-- A constant known inside interfaces is what the value has inside its interfaces. -/
theorem Describes.unboxed {c : Constant} (h : Describes v x) (hc : v.constant? = some c) :
    x.unboxed = .const c := by
  induction v generalizing x with
  | const d =>
    obtain rfl : d = c := by simpa [StaticValue.constant?, StaticValue.unboxed] using hc
    obtain rfl : x = .const d := h
    rfl
  | boxed typeName held ih =>
    obtain ⟨y, rfl, hy⟩ := h
    have hinner : y.unboxed = .const c := ih hy hc
    exact hinner
  | boxedUnknown | constructed => simp [StaticValue.constant?, StaticValue.unboxed] at hc

/-- A truth value is a constant. -/
theorem constant_of_bool? {t : Bool} (h : v.bool? = some t) : v.constant? = some (.bool t) := by
  unfold StaticValue.bool? at h
  split at h
  · next hc => rw [hc, Option.some.inj h]
  · simp at h

/-- Instructions and conditions use what they operate on. -/
theorem Activation.mem_operated_of_instruction (hi : a.instruction? = some i)
    (ho : o ∈ i.operated) : o ∈ a.operated := by
  unfold operated
  rw [hi]
  exact List.mem_append_left _ ho

/-- The condition of a branch that comes next is used next. -/
theorem Activation.mem_operated_of_terminator {t : Terminator} (ht : a.terminator? = some t)
    (ho : o ∈ t.condition) : o ∈ a.operated := by
  unfold operated
  rw [ht]
  exact List.mem_append_right _ ho

/-- What ends the block comes next if all of its instructions have run. -/
theorem Activation.exists_of_terminator? {t : Terminator} (h : a.terminator? = some t) :
    ∃ block, a.function.blocks[a.block]? = some block ∧ block.terminator = t := by
  obtain ⟨block, hblock, ht⟩ := Option.bind_eq_some_iff.mp h
  rw [Option.ite_none_right_eq_some] at ht
  exact ⟨block, hblock, Option.some.inj ht.2⟩

/-- What is stored to a local while the block is among those that count is among the stored
operands. -/
theorem mem_storedTo {f : Function} {flow : Option FlowGraph} {addr : Operand} {n : Nat}
    {block : Block} (hblock : f.blocks[n]? = some block)
    (hflow : ∀ g, flow = some g → g.isReachable n) (hi : .store addr o ∈ block.instructions) :
    o ∈ storedTo f flow addr := by
  have hcounts : flow.all fun g ↦ g.isReachable n := by
    cases flow with
    | none => rfl
    | some g => exact hflow g rfl
  refine Analysis.mem_storedTo_iff.mpr ⟨n, hcounts, ?_⟩
  rw [Function.instructionsOf, hblock]
  exact hi

namespace Setting

variable (hset : Setting env P s₀ Φ)
include hset

/-- The invariant holds throughout. -/
theorem invariant_of_runs (hr : Runs env P s₀ s) : Invariant env s :=
  hset.invariant.runs hset.ssa (fun s hs ↦ (hset.careful s hs).confined) hr

/-- The value that an instruction defines has been produced by it. -/
theorem produced (hr : Runs env P s₀ s) (ha : a ∈ s.stack) (hd : a.function.definition id = some i)
    {results : List Value} (hid : a.values id = some results) :
    Produced env P s₀ a.function a.args i results := by
  obtain ⟨f, args, outside, rfl⟩ := hset.initial
  obtain ⟨j, hj, hp⟩ := accounted_of_runs hset.ssa (fun s hs ↦ (hset.careful s hs).confined)
    hset.invariant hr a ha id results hid
  obtain rfl := Option.some.inj (hd.symm.trans hj)
  exact hp

/-- What a local holds has been stored to it. -/
theorem stored {j : Nat} {c : Cell} (hr : Runs env P s₀ s) (ha : a ∈ s.stack)
    (hid : a.values id = some [.address j]) (hc : s.memory.cells[j]? = some c)
    (hx : c.held = some x) : Stored env P s₀ a.function a.args id x := by
  obtain ⟨f, args, outside, rfl⟩ := hset.initial
  exact stored_of_runs hset.ssa (fun s hs ↦ (hset.careful s hs).confined) hset.invariant hr a ha id
    j hid c x hc hx

/-- The operand's value has been produced by the instruction that defines it. -/
theorem produced_head (hr : Runs env P s₀ s) (ha : a ∈ s.stack)
    (hd : a.function.definition id = some i) (hx : a.operand (.value id) = some x) :
    ∃ results, a.values id = some results ∧ results.head? = some x ∧
      Produced env P s₀ a.function a.args i results := by
  obtain ⟨results, hid, hhead⟩ := Option.bind_eq_some_iff.mp hx
  exact ⟨results, hid, hhead, hset.produced hr ha hd hid⟩

/-- What makes a local has its address. -/
theorem exists_address {dest : ValueId} {typeName : String} (hr : Runs env P s₀ s)
    (ha : a ∈ s.stack) (hd : a.function.definition id = some (.alloc dest typeName))
    (hx : a.operand (.value id) = some x) :
    ∃ j, x = .address j ∧ a.values id = some [.address j] := by
  obtain ⟨results, hid, hhead, hp⟩ := hset.produced_head hr ha hd hx
  cases hp with
  | perform _ _ halloc =>
    cases halloc
    exact ⟨_, (Option.some.inj hhead).symm, hid⟩

omit hset in
/-- What is known of the arguments of a call is true of them. -/
theorem describes_bound {args : List Operand} {vs : List Value}
    {bound : List (Option StaticValue)} {f : Function} (hr : Runs env P s₀ s) (ha : a ∈ s.stack)
    (hfit : a.Fits frame) (hargs : a.operands args = some vs)
    (hbound : ∀ (i : Nat) o w, args[i]? = some o → bound[i]? = some (some w) →
      TrueOf env P s₀ frame o w) :
    ∀ i w y, Frame.arg ⟨f, bound⟩ i = some w → vs[i]? = some y → Describes w y := by
  intro i w y hw hy
  obtain ⟨o, ho, hop⟩ := Activation.operand_of_getElem? hargs hy
  exact hbound i o w ho (Option.join_eq_some_iff.mp hw) _ hr a ha hfit y hop

/-- What is known of the results of a followed call is true of the values that the call defines. -/
theorem describes_of_call {dest : Option ValueId} {callee : Callee} {args : List Operand}
    {f : Function} {bound : List (Option StaticValue)} {index : Nat} {results : List Value}
    (hr : Runs env P s₀ s) (ha : a ∈ s.stack) (hfit : a.Fits frame)
    (hd : a.function.definition id = some (.call dest callee args))
    (hid : a.values id = some results) (hf : env.followed callee = some f)
    (hbound : ∀ (i : Nat) o w, args[i]? = some o → bound[i]? = some (some w) →
      TrueOf env P s₀ frame o w)
    (hresult : TrueOfResult env P s₀ ⟨f, bound⟩ index v) (hx : results[index]? = some x) :
    Describes v x := by
  cases hset.produced hr ha hd hid with
  | perform t hi hperform =>
    cases hperform with
    | call hnone => simp [hf] at hnone
  | @ret _ _ _ returned _ c b rest m hr hfc hac hcallee hargs ht hs =>
    obtain rfl := Option.some.inj (hf.symm.trans hcallee)
    have hbfit : b.Fits ⟨b.function, bound⟩ :=
      ⟨rfl, describes_bound hr (by simp) (hfit.of_eq hfc hac) hargs hbound⟩
    exact hresult b _ m hr hbfit _ _ ht hs x hx

/-- What is known of the result of a followed call is true of it. -/
theorem trueOf_call {callee : Callee} {args : List Operand} {f : Function}
    {bound : List (Option StaticValue)} {index : Nat}
    (hd : IsResult frame.function id callee args index) (hf : env.followed callee = some f)
    (hbound : ∀ (i : Nat) o w, args[i]? = some o → bound[i]? = some (some w) →
      TrueOf env P s₀ frame o w)
    (hresult : TrueOfResult env P s₀ ⟨f, bound⟩ index v) :
    TrueOf env P s₀ frame (.value id) v := by
  intro s hr a ha hfit x hx
  cases hd with
  | call hd =>
    rw [← hfit.function] at hd
    obtain ⟨results, hid, hhead, -⟩ := hset.produced_head hr ha hd hx
    refine hset.describes_of_call hr ha hfit hd hid hf hbound hresult ?_
    rwa [← List.head?_eq_getElem?]
  | @extract dest tuple index dest' hd ht =>
    rw [← hfit.function] at hd ht
    obtain ⟨results, hid, hhead, hp⟩ := hset.produced_head hr ha hd hx
    cases hp with
    | perform t hi hperform =>
      cases hperform with
      | extract _ htuple hindex =>
        obtain rfl := Option.some.inj hhead
        exact hset.describes_of_call t.runs (List.mem_cons_self ..) (hfit.of_eq t.function t.args)
          (t.function ▸ ht) htuple hf hbound hresult hindex
      | extractElsewhere hnot => exact absurd (t.function ▸ ht) (hnot _ _ _ _ rfl)

/-- What all stores to a local agree on is true of what is loaded from it. -/
theorem trueOf_load {dest addr dest' : ValueId} {typeName : String} {flow : Option FlowGraph}
    (hd : frame.function.definition id = some (.load dest (.value addr)))
    (ha : frame.function.definition addr = some (.alloc dest' typeName))
    (hflow : ∀ g, flow = some g → TrueOfFlow env P s₀ frame g)
    (hstored : ∀ o ∈ storedTo frame.function flow (.value addr), TrueOf env P s₀ frame o v) :
    TrueOf env P s₀ frame (.value id) v := by
  intro s hr a hmem hfit x hx
  rw [← hfit.function] at hd ha
  obtain ⟨results, -, hhead, hp⟩ := hset.produced_head hr hmem hd hx
  cases hp with
  | perform t hi hperform =>
    have htmem : t.activation ∈ (⟨t.activation :: t.rest, t.memory⟩ : State).stack :=
      List.mem_cons_self ..
    have haddr {p : Value} (h : t.activation.operand (.value addr) = some p) :=
      hset.exists_address t.runs htmem (t.function ▸ ha) h
    cases hperform with
    | loadLocal hop hcell hheld =>
      obtain rfl := Option.some.inj hhead
      obtain ⟨j, heq, hvalues⟩ := haddr hop
      obtain rfl := Value.address.inj heq
      have hsome := (hset.careful _ t.holds).initialized _ rfl _ _ hi _ _ hop hcell
      rcases hheld with hheld | ⟨hnone, -⟩
      · obtain ⟨u, o, hstore, ho⟩ := hset.stored t.runs htmem hvalues hcell hheld
        have hufit := (hfit.of_eq t.function t.args).of_eq u.function u.args
        obtain ⟨block, hblock, hmem⟩ := Option.bind_eq_some_iff.mp hstore
        refine hstored o (mem_storedTo (hufit.function ▸ hblock) (fun g hg ↦ ?_)
          (List.mem_of_getElem? hmem)) _ u.runs u.activation (List.mem_cons_self ..) hufit _ ho
        exact (hflow g hg _ u.runs u.activation (List.mem_cons_self ..) hufit block hblock).1
      · simp [hnone] at hsome
    | loadGlobal hop =>
      obtain ⟨j, heq, -⟩ := haddr hop
      simp at heq
    | loadElsewhere hop hne =>
      obtain ⟨j, rfl, -⟩ := haddr hop
      exact absurd rfl (hne j)

/-- The folded operator is true of the operator's value. -/
theorem trueOf_binOp {dest : ValueId} {op : BinaryOp} {lhs rhs : Operand} {w₁ w₂ : StaticValue}
    (hΦ : Φ frame) (hd : frame.function.definition id = some (.binOp dest op lhs rhs))
    (hl : Derivable env (.value frame lhs w₁)) (hlt : TrueOf env P s₀ frame lhs w₁)
    (hr : Derivable env (.value frame rhs w₂)) (hrt : TrueOf env P s₀ frame rhs w₂)
    (hv : StaticValue.fold op w₁ w₂ = some v) : TrueOf env P s₀ frame (.value id) v := by
  intro s hrun a hmem hfit x hx
  rw [← hfit.function] at hd
  obtain ⟨results, -, hhead, hp⟩ := hset.produced_head hrun hmem hd hx
  obtain ⟨c₁, hc₁, hv⟩ := Option.bind_eq_some_iff.mp hv
  obtain ⟨c₂, hc₂, hv⟩ := Option.bind_eq_some_iff.mp hv
  obtain ⟨d, hfold, hv⟩ := Option.bind_eq_some_iff.mp hv
  obtain rfl := Option.some.inj hv
  cases hp with
  | perform t hi hperform =>
    have hconst {o : Operand} {w : StaticValue} {c : Constant} {y : Value} (ho : o ∈ [lhs, rhs])
        (hw : Derivable env (.value frame o w)) (hwt : TrueOf env P s₀ frame o w)
        (hc : w.constant? = some c) (hy : t.activation.operand o = some y) : y = .const c :=
      hset.operated _ _ _ t.runs t.holds frame hΦ o
        (Activation.mem_operated_of_instruction hi ho) w y c hw hy (hwt.at hfit t hy) hc
    cases hperform with
    | binOp hop₁ hop₂ hvalue =>
      obtain rfl := Option.some.inj hhead
      exact hvalue c₁ c₂ d (hconst (by simp) hl hlt hc₁ hop₁) (hconst (by simp) hr hrt hc₂ hop₂)
        (BinaryOp.computes_of_fold hfold)

/-- The opposite of a truth value is true of the negation. -/
theorem trueOf_not {dest : ValueId} (hΦ : Φ frame)
    (hd : frame.function.definition id = some (.not dest o)) (ho : Derivable env (.value frame o w))
    (hot : TrueOf env P s₀ frame o w) (hv : w.negation = some v) :
    TrueOf env P s₀ frame (.value id) v := by
  intro s hr a hmem hfit x hx
  rw [← hfit.function] at hd
  obtain ⟨results, -, hhead, hp⟩ := hset.produced_head hr hmem hd hx
  obtain ⟨t, ht, rfl⟩ := Option.map_eq_some_iff.mp hv
  cases hp with
  | perform u hi hperform =>
    cases hperform with
    | not hop hvalue =>
      obtain rfl := Option.some.inj hhead
      refine hvalue t (hset.operated _ _ _ u.runs u.holds frame hΦ o
        (Activation.mem_operated_of_instruction hi (by simp [Instruction.operated])) w _ _ ho hop
        (hot.at hfit u hop) (constant_of_bool? ht))

omit hset in
/-- What the reachable returns agree on is true of the result. -/
theorem trueOf_result {index : Nat} {g : FlowGraph} (hg : TrueOfFlow env P s₀ frame g)
    (h : ∀ o, some o ∈ returned frame.function g index → TrueOf env P s₀ frame o v) :
    TrueOfResult env P s₀ frame index v := by
  intro b rest m hr hfit results vs ht hs x hx
  obtain ⟨o, ho, hop⟩ := Activation.operand_of_getElem? hs hx
  refine h o ?_ _ hr b (List.mem_cons_self ..) hfit x hop
  obtain ⟨block, hblock, hterm⟩ := Activation.exists_of_terminator? ht
  have hmem := (hg _ hr b (List.mem_cons_self ..) hfit block hblock).2 results hterm
  refine List.mem_filterMap.mpr ⟨b.block, hmem, ?_⟩
  rw [← hfit.function, hblock, Option.map_some, hterm]
  exact congrArg some ho

section Exploring

variable {D : Operand → StaticValue → Prop} {x : Explored} {unfound : List Nat}
  (hΦ : Φ frame)
  (hD : ∀ cond v, D cond v → Derivable env (.value frame cond v) ∧ TrueOf env P s₀ frame cond v)
  (h : Exploring (fun cond t ↦ ∃ v, D cond v ∧ v.bool? = some t) frame.function.blocks [] unfound
    x)
include hΦ hD h

/-- From a block that has been entered, the run goes on to one that has been entered. -/
theorem entered_of_goesTo {rest : List Activation} {m : Memory} {target : Program.BlockId}
    (hr : Runs env P s₀ ⟨a :: rest, m⟩) (hp : P ⟨a :: rest, m⟩) (hfit : a.Fits frame)
    (ha : ∀ block, a.function.blocks[a.block]? = some block → a.block ∈ x.entered.map Prod.fst)
    (ht : a.GoesTo target) (hlt : target.toNat < a.function.blocks.length) :
    target.toNat ∈ x.entered.map Prod.fst := by
  rw [hfit.function] at ha hlt
  cases ht with
  | jump ht =>
    obtain ⟨last, hlast, hterm⟩ := Activation.exists_of_terminator? ht
    rw [hfit.function] at hlast
    refine h.mem_of_taken (ha last hlast) hlast fun decision _ ↦ ?_
    rw [hterm, FlowGraph.mem_taken_jump]
    exact ⟨rfl, hlt⟩
  | @branch cond y z _ x ht hop hx htarget =>
    obtain ⟨last, hlast, hterm⟩ := Activation.exists_of_terminator? ht
    rw [hfit.function] at hlast
    refine h.mem_of_taken (ha last hlast) hlast fun decision hdecision ↦ ?_
    rw [hterm, FlowGraph.mem_taken_branch]
    refine ⟨fun t ht' ↦ ?_, htarget.imp (congrArg UInt64.toNat) (congrArg UInt64.toNat), hlt⟩
    -- the condition has been decided, so the run has the same truth value there
    obtain ⟨v, hv, hbool⟩ := hdecision cond y z t hterm ht'
    obtain ⟨hder, htrue⟩ := hD cond v hv
    have hconst := hset.operated a rest m hr hp frame hΦ cond
      (Activation.mem_operated_of_terminator ht (by simp [Terminator.condition])) v x _ hder hop
      (htrue _ hr a (by simp) hfit x hop) (constant_of_bool? hbool)
    rw [← hx t hconst]

/-- Every block that runs has been entered. -/
theorem entered_of_runs (hr : Runs env P s₀ s) :
    ∀ a ∈ s.stack, a.Fits frame → ∀ block, a.function.blocks[a.block]? = some block →
      a.block ∈ x.entered.map Prod.fst := by
  have hentry {a : Activation} (hfit : a.Fits frame) {block : Block}
      (hblock : a.function.blocks[0]? = some block) : 0 ∈ x.entered.map Prod.fst := by
    obtain ⟨hpos, -⟩ := List.getElem?_eq_some_iff.mp hblock
    simpa using h.entry (hfit.function ▸ hpos)
  induction hr with
  | start =>
    intro a ha hfit block hblock
    obtain ⟨f, args, outside, rfl⟩ := hset.initial
    obtain rfl := List.mem_singleton.mp ha
    exact hentry hfit hblock
  | @step s s' hr hp hs ih =>
    cases hs with
    | @perform a rest m m' i vs hi hperform =>
      intro b hb hfit block hblock
      rcases List.mem_cons.mp hb with rfl | hb
      · exact ih a (by simp) (hfit.of_eq rfl rfl) block hblock
      · exact ih b (by simp [hb]) hfit block hblock
    | @enter a rest m dest callee args f vs hi hf hops =>
      intro b hb hfit block hblock
      rcases List.mem_cons.mp hb with rfl | hb
      · exact hentry hfit hblock
      · exact ih b hb hfit block hblock
    | @goto a rest m target ht hlt =>
      intro b hb hfit block hblock
      rcases List.mem_cons.mp hb with rfl | hb
      · have hfit : a.Fits frame := hfit.of_eq rfl rfl
        exact hset.entered_of_goesTo hΦ hD h hr hp hfit (ih a (by simp) hfit) ht hlt
      · exact ih b (by simp [hb]) hfit block hblock
    | @ret a b rest m operands vs i ht hops hi =>
      intro b' hb hfit block hblock
      rcases List.mem_cons.mp hb with rfl | hb
      · exact ih a (by simp) (hfit.of_eq rfl rfl) block hblock
      · exact ih b' (by simp [hb]) hfit block hblock
    | finish =>
      intro b hb
      simp at hb

/-- A flow graph is true if what decides the branches is. -/
theorem trueOf_flow : TrueOfFlow env P s₀ frame (ofExplored frame.function.blocks x) := by
  intro s hr a ha hfit block hblock
  have hmem := hset.entered_of_runs hΦ hD h hr a ha hfit block hblock
  obtain ⟨⟨_, found⟩, hfound, heq⟩ := List.mem_map.mp hmem
  obtain rfl : _ = a.block := heq
  rw [hfit.function] at hblock
  refine ⟨h.isReachable_iff_mem.mpr ⟨found, hfound⟩, fun results hret ↦ ?_⟩
  refine FlowGraph.mem_sort.mpr (h.returning ▸ List.mem_filter.mpr ⟨hmem, ?_⟩)
  simp [FlowGraph.returns, hblock, hret]

end Exploring

/-- What is put into an interface was the operand's value. -/
theorem exists_boxed {dest : ValueId} {typeName : String} (hr : Runs env P s₀ s) (ha : a ∈ s.stack)
    (hd : a.function.definition id = some (.makeInterface dest o typeName))
    (hx : a.operand (.value id) = some x) : ∃ y, x = .boxed typeName y ∧
      ∃ t : Moment env P s₀ a.function a.args, t.activation.operand o = some y := by
  obtain ⟨results, -, hhead, hp⟩ := hset.produced_head hr ha hd hx
  cases hp with
  | perform t hi hperform =>
    cases hperform with
    | makeInterface hop => exact ⟨_, (Option.some.inj hhead).symm, t, hop⟩

/-- The constant of a global variable is true of what is loaded from it. -/
theorem trueOf_global {dest : ValueId} {name : String} {c : Constant}
    (hd : frame.function.definition id = some (.load dest (.global name)))
    (hc : env.program.global? name = some c) : TrueOf env P s₀ frame (.value id) (.const c) := by
  intro s hr a ha hfit x hx
  obtain ⟨results, -, hhead, hp⟩ := hset.produced_head hr ha (hfit.function ▸ hd) hx
  cases hp with
  | perform t hi hperform =>
    cases hperform with
    | loadLocal hop => simp [Activation.operand] at hop
    | loadGlobal hop hc' =>
      obtain rfl := Option.some.inj hhead
      obtain rfl := Value.global.inj (Option.some.inj hop)
      rw [Option.some.inj (hc.symm.trans hc')]
      rfl
    | loadElsewhere hop hne hnone =>
      have hnone := hnone _ (Option.some.inj hop).symm
      simp [hc] at hnone

/-- Whatever has a derivation is true of the runs. -/
theorem holds {J : Judgement} (h : Derivable env J) : Holds env P s₀ Φ J := by
  induction h with
  | const frame c =>
    intro _ s _ a _ _ x hx
    exact (Option.some.inj hx).symm
  | param h =>
    intro _ s _ a _ hfit x hx
    exact hfit.args _ _ x h hx
  | boxed hd h ih =>
    intro hΦ s hr a ha hfit x hx
    obtain ⟨y, rfl, t, hop⟩ := hset.exists_boxed hr ha (hfit.function ▸ hd) hx
    exact ⟨y, rfl, (ih hΦ).at hfit t hop⟩
  | boxedUnknown hd =>
    intro _ s hr a ha hfit x hx
    obtain ⟨y, rfl, -⟩ := hset.exists_boxed hr ha (hfit.function ▸ hd) hx
    exact ⟨y, rfl⟩
  | changed hd h ih =>
    intro hΦ s hr a ha hfit x hx
    obtain ⟨results, -, hhead, hp⟩ := hset.produced_head hr ha (hfit.function ▸ hd) hx
    cases hp with
    | perform t hi hperform =>
      cases hperform with
      | changeInterface hop =>
        obtain rfl := Option.some.inj hhead
        exact (ih hΦ).at hfit t hop
  | route => exact fun _ _ _ _ _ _ _ _ ↦ trivial
  | call hd hc hf hlen hbound h ihbound ih =>
    intro hΦ
    exact hset.trueOf_call hd hf (fun i o w ho hw ↦ ihbound i o w ho hw hΦ)
      (ih (hset.called _ _ _ _ _ hΦ hf hlen hbound))
  | global hd hc => exact fun _ ↦ hset.trueOf_global hd hc
  | load hd ha hflow hne hstored ihflow ih =>
    intro hΦ
    exact hset.trueOf_load hd ha (fun g hg ↦ ihflow g hg hΦ) fun o ho ↦ ih o ho hΦ
  | binOp hd hl hr hv ihl ihr =>
    intro hΦ
    exact hset.trueOf_binOp hΦ hd hl (ihl hΦ) hr (ihr hΦ) hv
  | not hd ho hv ih =>
    intro hΦ
    exact hset.trueOf_not hΦ hd ho (ih hΦ) hv
  | phi hd hne hedges ih =>
    intro hΦ s hr a ha hfit x hx
    obtain ⟨results, -, hhead, hp⟩ := hset.produced_head hr ha (hfit.function ▸ hd) hx
    cases hp with
    | perform t hi hperform =>
      cases hperform with
      | phi ho hop =>
        obtain rfl := Option.some.inj hhead
        exact (ih _ ho hΦ).at hfit t hop
  | result hg hne hsome h ihg ih =>
    intro hΦ
    exact trueOf_result (ihg hΦ) fun o ho ↦ ih o ho hΦ
  | graph hD h ih =>
    intro hΦ
    exact hset.trueOf_flow hΦ (fun cond v hv ↦ ⟨hD cond v hv, ih cond v hv hΦ⟩) h

end Setting
end Wiring.Run
