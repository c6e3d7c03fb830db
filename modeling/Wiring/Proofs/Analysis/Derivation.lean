import Wiring.Proofs.Analysis.Remembering
import Wiring.Proofs.Flow.Build

/-!
# Derivations

What resolution may conclude, and why. A derivation of a value follows definitions, locals, branches
and calls as resolution does, but it does not say in which order, what has been remembered, or what
is being followed meanwhile. Whatever resolution answers has a derivation, however it came about.
-/

namespace Wiring.Analysis

open Wiring.Program (Operand ValueId Instruction Callee Function Block Constant BinaryOp)
open FlowGraph (Explored Exploring ofExplored)

/-- Something that resolution may conclude. -/
inductive Judgement where
  /-- What is known of an operand within a frame. -/
  | value (frame : Frame) (o : Operand) (v : StaticValue)
  /-- What is known of a result of a frame's function. -/
  | result (frame : Frame) (index : Nat) (v : StaticValue)
  /-- The flow graph of a frame. -/
  | graph (frame : Frame) (g : FlowGraph)

/-- The call constructs a route. -/
def Environment.isConstructor (env : Environment) : Callee → Bool
  | .static function _ => (env.vocabulary.routeType? function).isSome
  | .dynamic _ | .invoke _ _ => false

/-- The value is a result of a call, the first one under the call's own name. -/
inductive IsResult (f : Function) (id : ValueId) (callee : Callee)
    (args : List Operand) : Nat → Prop
  | call {dest : Option ValueId} (hd : f.definition id = some (.call dest callee args)) :
      IsResult f id callee args 0
  | extract {dest tuple : ValueId} {index : UInt64} {dest' : Option ValueId}
      (hd : f.definition id = some (.extract dest (.value tuple) index))
      (ht : f.definition tuple = some (.call dest' callee args)) :
      IsResult f id callee args index.toNat

/-- The conclusions that have a derivation. -/
inductive Derivable (env : Environment) : Judgement → Prop
  | const (frame : Frame) (c : Constant) : Derivable env (.value frame (.const c) (.const c))
  | param {frame : Frame} {index : UInt64} {v : StaticValue}
      (h : frame.arg index.toNat = some v) : Derivable env (.value frame (.param index) v)
  | boxed {frame : Frame} {id dest : ValueId} {o : Operand} {typeName : String} {v : StaticValue}
      (hd : frame.function.definition id = some (.makeInterface dest o typeName))
      (h : Derivable env (.value frame o v)) :
      Derivable env (.value frame (.value id) (.boxed typeName v))
  | boxedUnknown {frame : Frame} {id dest : ValueId} {o : Operand} {typeName : String}
      (hd : frame.function.definition id = some (.makeInterface dest o typeName)) :
      Derivable env (.value frame (.value id) (.boxedUnknown typeName))
  | changed {frame : Frame} {id dest : ValueId} {o : Operand} {v : StaticValue}
      (hd : frame.function.definition id = some (.changeInterface dest o))
      (h : Derivable env (.value frame o v)) : Derivable env (.value frame (.value id) v)
  | route {frame : Frame} {id : ValueId} {function : String} {typeArgs : List String}
      {args : List Operand}
      (hd : IsResult frame.function id (.static function typeArgs) args 0)
      (hc : env.isConstructor (.static function typeArgs)) :
      Derivable env (.value frame (.value id) (.constructed function typeArgs))
  | call {frame : Frame} {id : ValueId} {callee : Callee} {args : List Operand} {index : Nat}
      {f : Function} {bound : List (Option StaticValue)} {v : StaticValue}
      (hd : IsResult frame.function id callee args index)
      (hc : env.isConstructor callee = false) (hf : env.followed callee = some f)
      (hlen : bound.length = args.length)
      (hbound : ∀ (i : Nat) (o : Operand) (w : StaticValue), args[i]? = some o →
        bound[i]? = some (some w) → Derivable env (.value frame o w))
      (h : Derivable env (.result ⟨f, bound⟩ index v)) : Derivable env (.value frame (.value id) v)
  | global {frame : Frame} {id dest : ValueId} {name : String} {c : Constant}
      (hd : frame.function.definition id = some (.load dest (.global name)))
      (hc : env.program.global? name = some c) : Derivable env (.value frame (.value id) (.const c))
  | load {frame : Frame} {id dest addr dest' : ValueId} {typeName : String}
      {flow : Option FlowGraph} {v : StaticValue}
      (hd : frame.function.definition id = some (.load dest (.value addr)))
      (ha : frame.function.definition addr = some (.alloc dest' typeName))
      (hflow : ∀ g, flow = some g → Derivable env (.graph frame g))
      (hne : storedTo frame.function flow (.value addr) ≠ [])
      (hstored : ∀ o ∈ storedTo frame.function flow (.value addr),
        Derivable env (.value frame o v)) : Derivable env (.value frame (.value id) v)
  | binOp {frame : Frame} {id dest : ValueId} {op : BinaryOp} {lhs rhs : Operand}
      {a b v : StaticValue}
      (hd : frame.function.definition id = some (.binOp dest op lhs rhs))
      (hl : Derivable env (.value frame lhs a)) (hr : Derivable env (.value frame rhs b))
      (hv : StaticValue.fold op a b = some v) : Derivable env (.value frame (.value id) v)
  | not {frame : Frame} {id dest : ValueId} {o : Operand} {a v : StaticValue}
      (hd : frame.function.definition id = some (.not dest o))
      (ho : Derivable env (.value frame o a)) (hv : a.negation = some v) :
      Derivable env (.value frame (.value id) v)
  | phi {frame : Frame} {id dest : ValueId} {edges : List Operand} {v : StaticValue}
      (hd : frame.function.definition id = some (.phi dest edges))
      (hne : edges ≠ []) (hedges : ∀ o ∈ edges, Derivable env (.value frame o v)) :
      Derivable env (.value frame (.value id) v)
  | result {frame : Frame} {index : Nat} {g : FlowGraph} {v : StaticValue}
      (hg : Derivable env (.graph frame g))
      (hne : returned frame.function g index ≠ [])
      (hsome : none ∉ returned frame.function g index)
      (h : ∀ o, some o ∈ returned frame.function g index → Derivable env (.value frame o v)) :
      Derivable env (.result frame index v)
  | graph {frame : Frame} {x : Explored} {unfound : List Nat}
      {D : Operand → StaticValue → Prop}
      (hD : ∀ cond v, D cond v → Derivable env (.value frame cond v))
      (h : Exploring (fun cond b ↦ ∃ v, D cond v ∧ v.bool? = some b) frame.function.blocks []
        unfound x) :
      Derivable env (.graph frame (ofExplored frame.function.blocks x))

/-- Every answer that stands for the remembered one has a derivation. -/
def Entry.Justified (env : Environment) : Entry → Prop
  | flow key g => ∀ frame, env.Has frame → frame.key = key → Derivable env (.graph frame g)
  | result key index r => ∀ frame, env.Has frame → frame.key = key →
      ∀ v, r = some v → Derivable env (.result frame index v)

/-- Everything remembered has a derivation. -/
def Memo.Justified (env : Environment) (m : Memo) : Prop := ∀ e, m.Holds e → e.Justified env

/-- The computation keeps everything remembered derivable, and its answer has the property. -/
abbrev Concludes (env : Environment) {α : Type} (Q : α → Prop) (c : Memoized α) : Prop :=
  Yields (Memo.Justified env) Q c

namespace Concludes

variable {env : Environment} {α β : Type}

/-- Cutting an answer short concludes nothing. -/
theorem cutOff {Q : α → Prop} {a : α} (h : Q a) :
    Concludes env Q (do Memoized.cutOff; return a) :=
  fun m hm ↦ ⟨h, fun e he ↦ hm e (by cases e <;> exact he)⟩

/-- A remembered answer has the property if what may be remembered has. -/
theorem remembered {find? : Memo → Option α} {keep : α → Memo → Memo} {entry : α → Entry}
    {Q : α → Prop} {c : Memoized α} (hk : Keeps find? keep entry) (hc : Concludes env Q c)
    (hQ : ∀ a, Q a ↔ (entry a).Justified env) : Concludes env Q (Memoized.remembered find? keep c) := by
  intro m hm
  cases h : find? m with
  | some a =>
    rw [Memoized.remembered_of_some h]
    exact ⟨(hQ a).mpr (hm _ (hk.holds_of_find? h)), hm⟩
  | none =>
    rw [Memoized.remembered_of_none h]
    obtain ⟨ha, hend⟩ := hc m hm
    refine ⟨ha, ?_⟩
    dsimp only
    split
    · intro e he
      rcases hk.holds_keep.mp he with rfl | he
      · exact (hQ _).mp ha
      · exact hend e he
    · exact hend

/-- The values of all items have the properties of the items. -/
theorem all {f : α → Memoized (Option β)} {S : α → β → Prop} {l : List α}
    (h : ∀ a ∈ l, Concludes env (fun r ↦ ∀ b, r = some b → S a b) (f a)) :
    Concludes env (fun r ↦ ∀ bs, r = some bs → List.Forall₂ S l bs) (Memoized.all f l) := by
  induction l with
  | nil =>
    refine Yields.pure fun bs hbs ↦ ?_
    obtain rfl := Option.some.inj hbs
    exact .nil
  | cons a l ih =>
    refine Yields.bind (h a (by simp)) fun r hr ↦ ?_
    cases r with
    | none => exact .pure fun bs hbs ↦ by simp at hbs
    | some b =>
      refine Yields.bind (ih fun a ha ↦ h a (List.mem_cons_of_mem _ ha)) fun rest hrest ↦ ?_
      refine .pure fun bs hbs ↦ ?_
      obtain ⟨cs, rfl, rfl⟩ := Option.map_eq_some_iff.mp hbs
      exact .cons (hr b rfl) (hrest cs rfl)

end Concludes

/-- What a list agrees on is each of its members. -/
theorem StaticValue.eq_of_agreement {l : List StaticValue} {v : StaticValue}
    (h : agreement l = some v) : l ≠ [] ∧ ∀ w ∈ l, w = v := by
  cases l with
  | nil => simp [agreement] at h
  | cons w rest =>
    simp only [agreement, Option.ite_none_right_eq_some, Option.some.injEq] at h
    obtain ⟨hrest, rfl⟩ := h
    refine ⟨by simp, fun x hx ↦ ?_⟩
    rcases List.mem_cons.mp hx with rfl | hx
    · rfl
    · simpa using List.all_eq_true.mp hrest x hx

/-- If the values of all items agree, the items are not empty and each has that value. -/
theorem StaticValue.of_bind_agreement {α : Type} {S : α → StaticValue → Prop} {l : List α}
    {r : Option (List StaticValue)} {v : StaticValue} (hr : ∀ vs, r = some vs → List.Forall₂ S l vs)
    (h : r.bind agreement = some v) : l ≠ [] ∧ ∀ a ∈ l, S a v := by
  obtain ⟨vs, rfl, hv⟩ := Option.bind_eq_some_iff.mp h
  have hall := hr vs rfl
  obtain ⟨hne, heq⟩ := eq_of_agreement hv
  refine ⟨?_, ?_⟩
  · rintro rfl
    cases hall
    exact hne rfl
  · clear hr h hv hne
    induction hall with
    | nil => simp
    | @cons b w l vs hab hrest ih =>
      obtain rfl := heq w (by simp)
      intro a ha
      rcases List.mem_cons.mp ha with rfl | ha
      · exact hab
      · exact ih (fun x hx ↦ heq x (List.mem_cons_of_mem _ hx)) a ha

/-- What is answered, if anything, has a derivation. -/
def Derives (env : Environment) {α : Type} (J : α → Judgement) (r : Option α) : Prop :=
  ∀ a, r = some a → Derivable env (J a)

/-- Nothing is answered. -/
theorem derives_none (env : Environment) {α : Type} (J : α → Judgement) : Derives env J none :=
  fun a ha ↦ by simp at ha

/-- One thing is answered. -/
theorem Derives.some {env : Environment} {α : Type} {J : α → Judgement} {a : α}
    (h : Derivable env (J a)) : Derives env J (some a) :=
  fun _ ha ↦ Option.some.inj ha ▸ h

section Within

variable {env : Environment} {src : Sources Memoized} {frame : Frame}
  {resolve : Resolver Memoized}
  (hresult : ∀ callee, env.Has callee → ∀ index,
    Concludes env (Derives env (.result callee index)) (src.result callee index))
  (hflow : Concludes env (Derives env (.graph frame)) src.flow)
  (hresolve : ∀ o, Concludes env (Derives env (.value frame o)) (resolve o))

include hresult hresolve in
/-- What following a call gives is derived from the results of the function that is called. -/
theorem follow_concludes {id : ValueId} {callee : Callee} {args : List Operand} {index : Nat}
    (hd : IsResult frame.function id callee args index) (hc : env.isConstructor callee = false) :
    Concludes env (Derives env (.value frame (.value id)))
      (match env.followed callee with
        | none => return none
        | some f => do src.result ⟨f, ← args.mapM resolve⟩ index) := by
  cases hf : env.followed callee with
  | none => exact .pure (derives_none _ _)
  | some f =>
    refine Yields.bind (Yields.mapM fun o _ ↦ hresolve o) fun bound hbound ↦ ?_
    refine (hresult _ (Environment.has_of_followed hf bound) index).mono fun r hr v hv ↦ ?_
    refine .call hd hc hf hbound.length_eq.symm (fun i o w ho hw ↦ ?_) (hr v hv)
    obtain ⟨hi, rfl⟩ := List.getElem?_eq_some_iff.mp ho
    obtain ⟨hi', hw⟩ := List.getElem?_eq_some_iff.mp hw
    exact hbound.get hi hi' w hw

include hresult hresolve in
/-- A result of a call is derived from the results of the function that is called. -/
theorem resolveCall_concludes {id : ValueId} {callee : Callee} {args : List Operand} {index : Nat}
    (hd : IsResult frame.function id callee args index) :
    Concludes env (Derives env (.value frame (.value id)))
      (resolveCall env src resolve callee args index) := by
  cases callee with
  | static function typeArgs =>
    unfold resolveCall
    dsimp only
    by_cases hc : (env.vocabulary.routeType? function).isSome
    · rw [if_pos hc]
      refine .pure ?_
      by_cases hi : index = 0
      · rw [if_pos hi]
        exact .some (.route (hi ▸ hd) hc)
      · rw [if_neg hi]
        exact derives_none _ _
    · rw [if_neg hc]
      exact follow_concludes hresult hresolve hd (by simpa [Environment.isConstructor] using hc)
  | dynamic value => exact follow_concludes hresult hresolve hd rfl
  | invoke receiver method => exact follow_concludes hresult hresolve hd rfl

include hflow hresolve in
/-- What is loaded is derived from what is stored. -/
theorem resolveLoad_concludes {id dest : ValueId} {addr : Operand}
    (hd : frame.function.definition id = some (.load dest addr)) :
    Concludes env (Derives env (.value frame (.value id)))
      (resolveLoad env src frame.function resolve addr) := by
  unfold resolveLoad
  split
  · next name =>
    refine .pure fun v hv ↦ ?_
    obtain ⟨c, hc, rfl⟩ := Option.map_eq_some_iff.mp hv
    exact .global hd hc
  · next a =>
    split
    · next ha =>
      refine Yields.bind hflow fun flow hflow ↦ ?_
      refine Yields.bind (Concludes.all fun o _ ↦ hresolve o) fun r hr ↦ .pure fun v hv ↦ ?_
      obtain ⟨hne, hall⟩ := StaticValue.of_bind_agreement hr hv
      exact .load hd ha hflow hne hall
    · exact .pure (derives_none _ _)
  · exact .pure (derives_none _ _)
  · exact .pure (derives_none _ _)
  · exact .pure (derives_none _ _)

include hresult hflow hresolve in
/-- The value that an instruction defines is derived from those of its operands. -/
theorem resolveInstruction_concludes {id : ValueId} {i : Instruction}
    (hd : frame.function.definition id = some i) :
    Concludes env (Derives env (.value frame (.value id)))
      (resolveInstruction env src frame.function resolve i) := by
  unfold resolveInstruction
  split
  · refine Yields.bind (hresolve _) fun r hr ↦ .pure (.some ?_)
    cases r with
    | none => exact .boxedUnknown hd
    | some v => exact .boxed hd (hr v rfl)
  · exact (hresolve _).mono fun r hr v hv ↦ .changed hd (hr v hv)
  · exact resolveCall_concludes hresult hresolve (.call hd)
  · split
    · next ht => exact resolveCall_concludes hresult hresolve (.extract hd ht)
    · exact .pure (derives_none _ _)
  · exact .pure (derives_none _ _)
  · exact resolveLoad_concludes hflow hresolve hd
  · refine Yields.bind (hresolve _) fun r hr ↦ ?_
    cases r with
    | none => exact .pure (derives_none _ _)
    | some a =>
      refine Yields.bind (hresolve _) fun r' hr' ↦ .pure fun v hv ↦ ?_
      obtain ⟨b, rfl, hv⟩ := Option.bind_eq_some_iff.mp hv
      exact .binOp hd (hr a rfl) (hr' b rfl) hv
  · refine Yields.bind (hresolve _) fun r hr ↦ .pure fun v hv ↦ ?_
    obtain ⟨a, rfl, hv⟩ := Option.bind_eq_some_iff.mp hv
    exact .not hd (hr a rfl) hv
  · refine Yields.bind (Concludes.all fun o _ ↦ hresolve o) fun r hr ↦ .pure fun v hv ↦ ?_
    obtain ⟨hne, hall⟩ := StaticValue.of_bind_agreement hr hv
    exact .phi hd hne hall
  all_goals exact .pure (derives_none _ _)

include hresult hflow in
/-- What an operand is resolved to within a frame has a derivation. -/
theorem resolveOperand_concludes (visiting : List ValueId) (o : Operand) :
    Concludes env (Derives env (.value frame o)) (resolveOperand env src frame visiting o) := by
  induction hn : (unvisited frame.function visiting).length using Nat.strongRecOn
    generalizing visiting o with
  | ind n ih =>
    cases o with
    | const c =>
      rw [resolveOperand]
      exact .pure (.some (.const frame c))
    | param index =>
      rw [resolveOperand]
      exact .pure fun v hv ↦ .param hv
    | value id =>
      rw [resolveOperand_value]
      split
      · exact .pure (derives_none _ _)
      · next hv =>
        split
        · exact .pure (derives_none _ _)
        · next i hd =>
          refine resolveInstruction_concludes hresult hflow (fun o ↦ ?_) hd
          exact ih _ (hn ▸ unvisited_lt hv hd) _ o rfl
    | global | function =>
      rw [resolveOperand]
      exact .pure (derives_none _ _)

end Within

section Frames

variable {env : Environment} {results : Results} {building : List String} {frame : Frame}

/-- A flow graph built anew has a derivation if its conditions have. -/
theorem builtFlow_concludes
    (hresults : ∀ callee, env.Has callee → ∀ index, Concludes env
      (Derives env (.result callee index)) (results (frame.name :: building) callee index)) :
    Concludes env (fun g ↦ Derivable env (.graph frame g))
      (builtFlow env results building frame) := by
  have hunavailable : Concludes env (Derives env (.graph frame)) unavailable :=
    .cutOff (derives_none _ _)
  refine (FlowGraph.build_yields (D := fun cond b ↦
    ∃ v, Derivable env (.value frame cond v) ∧ v.bool? = some b) (fun cond ↦ ?_) frame.function).mono ?_
  · refine Yields.bind (resolveOperand_concludes hresults hunavailable [] cond) fun r hr ↦ ?_
    refine .pure fun b hb ↦ ?_
    obtain ⟨v, rfl, hv⟩ := Option.bind_eq_some_iff.mp hb
    exact ⟨v, hr v rfl, hv⟩
  · rintro _ ⟨x, unfound, rfl, h⟩
    exact .graph (fun _ _ hv ↦ hv) h

/-- The flow graph of a frame has a derivation. -/
theorem flowOf_concludes (hframe : env.Has frame)
    (hresults : ∀ callee, env.Has callee → ∀ index, Concludes env
      (Derives env (.result callee index)) (results (frame.name :: building) callee index)) :
    Concludes env (fun g ↦ Derivable env (.graph frame g)) (flowOf env results building frame) := by
  refine .remembered (keeps_flow frame.key) (builtFlow_concludes hresults) fun g ↦ ?_
  refine ⟨fun hg frame' hframe' hkey ↦ ?_, fun hg ↦ hg frame hframe rfl⟩
  obtain rfl := hframe'.eq_of_key hframe hkey
  exact hg

/-- Within a frame, an operand is resolved to what has a derivation. -/
theorem resolveIn_concludes (hframe : env.Has frame)
    (hresults : ∀ building callee, env.Has callee → ∀ index, Concludes env
      (Derives env (.result callee index)) (results building callee index)) (o : Operand) :
    Concludes env (Derives env (.value frame o)) (resolveIn env results building frame o) := by
  refine resolveOperand_concludes (hresults building) ?_ [] o
  unfold sources
  dsimp only
  split
  · exact .cutOff (derives_none _ _)
  · exact Yields.map (flowOf_concludes hframe (hresults _)) fun g hg ↦ .some hg

/-- What is found of a returned operand is derived as its value; nothing is found where none is
returned. -/
theorem returned_concludes (hframe : env.Has frame)
    (hresults : ∀ building callee, env.Has callee → ∀ index, Concludes env
      (Derives env (.result callee index)) (results building callee index)) (o : Option Operand) :
    Concludes env (fun r ↦ ∀ v, r = some v →
        ∃ operand, o = some operand ∧ Derivable env (.value frame operand v))
      (match o with
        | some operand => resolveIn env results building frame operand
        | none => return none) := by
  cases o with
  | none => exact .pure fun v hv ↦ by simp at hv
  | some operand =>
    exact (resolveIn_concludes hframe hresults operand).mono fun r hr v hv ↦
      ⟨operand, rfl, hr v hv⟩

/-- What the reachable returns of a function agree on is its result. -/
theorem agreedResult_concludes (hframe : env.Has frame)
    (hresults : ∀ building callee, env.Has callee → ∀ index, Concludes env
      (Derives env (.result callee index)) (results building callee index)) (index : Nat) :
    Concludes env (Derives env (.result frame index))
      (agreedResult env results building frame index) := by
  refine Yields.bind (flowOf_concludes hframe (hresults _)) fun g hg ↦ ?_
  refine Yields.bind (Concludes.all fun o _ ↦ returned_concludes hframe hresults o) fun r hr ↦ .pure fun v hv ↦ ?_
  obtain ⟨hne, hall⟩ := StaticValue.of_bind_agreement hr hv
  refine .result hg hne (fun hnone ↦ ?_) fun o ho ↦ ?_
  · obtain ⟨o, ho, -⟩ := hall none hnone
    simp at ho
  · obtain ⟨operand, heq, hd⟩ := hall (some o) ho
    exact Option.some.inj heq ▸ hd

end Frames

/-- The result of a call has a derivation, whatever is being followed and has been remembered. -/
theorem resultOf_concludes (env : Environment) (stack building : List String) (frame : Frame)
    (hframe : env.Has frame) (index : Nat) :
    Concludes env (Derives env (.result frame index)) (resultOf env stack building frame index) := by
  induction hn : (env.remaining stack).length using Nat.strongRecOn
    generalizing stack building frame index with
  | ind n ih =>
    rw [resultOf_eq]
    refine .remembered (keeps_result frame.key index) ?_ fun r ↦ ?_
    · unfold computedResult
      split
      · next henter =>
        refine agreedResult_concludes hframe (fun building callee hc index ↦ ?_) index
        exact ih _ (hn ▸ Environment.remaining_lt henter) _ _ _ hc _ rfl
      · exact .cutOff (derives_none _ _)
    · refine ⟨fun hr frame' hframe' hkey ↦ ?_, fun hr ↦ hr frame hframe rfl⟩
      obtain rfl := hframe'.eq_of_key hframe hkey
      exact hr

end Wiring.Analysis
