import Wiring.Proofs.Analysis.Visiting
import Wiring.Proofs.Flow.Reachability

/-!
# Concrete types of merged and returned values

Where several values may come to one place, a concrete type is known there exactly if they are one
and the same interface value. That they are of one concrete type is not enough: they also have to
hold the same value, or none of them one that is known. It is so for the values that come along the
edges into a block, and for those that a function may return.
-/

namespace Wiring.Analysis

open Wiring.Program (Operand ValueId Instruction Function Callee Block)
open Memoized

/-- There are values, and they are one and the same interface value of a concrete type. -/
def AgreeOnType (typeName : String) (values : List (Option StaticValue)) : Prop :=
  values ≠ [] ∧ ∃ held, ∀ v ∈ values, v = some (.box typeName held)

/-- An interface value has a concrete type, whether or not it is known what it holds. -/
theorem StaticValue.concreteType?_eq_some_iff {v : StaticValue} {typeName : String} :
    v.concreteType? = some typeName ↔ ∃ held, v = .box typeName held := by
  constructor
  · intro h
    cases v with
    | boxed name held =>
      obtain rfl := Option.some.inj h
      exact ⟨some held, rfl⟩
    | boxedUnknown name =>
      obtain rfl := Option.some.inj h
      exact ⟨none, rfl⟩
    | const | constructed => cases h
  · rintro ⟨held, rfl⟩
    cases held <;> rfl

section

variable {env : Environment} {stack : List String} {frame : Frame} {id : ValueId} {m : Memo}
  {typeName : String}

/-- The concrete type of an operand is known if the operand is known to be an interface value. -/
theorem concreteType_eq_some_iff {o : Operand} :
    (Query.concreteType env stack frame o m).1 = some typeName ↔
      ∃ held, (Query.resolve env stack frame o m).1 = some (.box typeName held) := by
  have hbind : (Query.concreteType env stack frame o m).1 =
      (Query.resolve env stack frame o m).1.bind StaticValue.concreteType? := rfl
  rw [hbind, Option.bind_eq_some_iff]
  simp only [StaticValue.concreteType?_eq_some_iff]
  grind

/-- Items that all have the values that they agree on agree on a type if that is an interface
value. -/
theorem all_agree_iff {α : Type} {f : α → Memoized (Option StaticValue)} {l : List α} :
    (∃ held, (Memoized.all f l m).1.bind StaticValue.agreement = some (.box typeName held)) ↔
      AgreeOnType typeName ((turns f l m).map fun t ↦ (f t.1 t.2).1) := by
  simp only [all_agreement_iff, AgreeOnType, ne_eq, List.map_eq_nil_iff, List.forall_mem_map,
    exists_and_left]

section Phi

variable {dest : ValueId} {edges : List Operand}
  (hphi : frame.function.definition id = some (.phi dest edges))
include hphi

/-- A merged value is what the values along the edges agree on. -/
theorem resolve_phi : Query.resolve env stack frame (.value id) = do
    return (← Memoized.all (resolveFor env stack frame id) edges).bind StaticValue.agreement := by
  unfold Query.resolve resolveIn
  rw [resolveOperand_value, if_neg List.not_mem_nil, hphi]
  rfl

/-- A merged value has a concrete type exactly if the values along the edges, each in its turn, are
one interface value of that type. -/
theorem concreteType_phi_iff_turns :
    (Query.concreteType env stack frame (.value id) m).1 = some typeName ↔
      AgreeOnType typeName ((turns (resolveFor env stack frame id) edges m).map fun t ↦
        (resolveFor env stack frame id t.1 t.2).1) := by
  rw [concreteType_eq_some_iff, resolve_phi hphi]
  exact all_agree_iff

/-- Unless something is cut short, the values along the edges may be asked for on their own. -/
theorem concreteType_phi_iff (hm : Good env m) (hframe : env.Has frame)
    (hcut : Uncut (Query.resolve env stack frame (.value id)) m)
    (hedges : ∀ o ∈ edges, Uncut (Query.resolve env stack frame o) m) :
    (Query.concreteType env stack frame (.value id) m).1 = some typeName ↔
      AgreeOnType typeName (edges.map fun o ↦ (Query.resolve env stack frame o m).1) := by
  have hsteady (o : Operand) : Steady env (Query.resolve env stack frame o) :=
    (remembering_steady env).resolveIn_self stack frame hframe o
  obtain ⟨M, hM, hsub, hsettles⟩ := exists_settles hm (fun o _ ↦ hsteady o) hedges
  have hall : Uncut (Memoized.all (resolveFor env stack frame id) edges) m := by
    rw [resolve_phi hphi] at hcut
    exact hcut
  have hturns (v : StaticValue) := forall_turns_iff_of_settles (v := v) hsettles
    (fun o ho ↦ follows_resolveFor hphi (requires_phi ho) hM hframe) hsub hall
  have hempty : (turns (resolveFor env stack frame id) edges m).map Prod.fst = edges :=
    map_fst_turns _ _ _
  rw [concreteType_phi_iff_turns hphi, AgreeOnType, AgreeOnType]
  simp only [List.forall_mem_map, hturns, ne_eq, List.map_eq_nil_iff]
  rw [← hempty, List.map_eq_nil_iff, hempty]

end Phi

section Call

/-- The frame in which a call runs a function, given what the arguments resolve to. -/
def called (env : Environment) (stack : List String) (frame : Frame) (id : ValueId) (f : Function)
    (args : List Operand) : Memoized Frame :=
  return ⟨f, ← args.mapM (resolveFor env stack frame id)⟩

/-- Resolving the arguments of a call leads from moment to moment. -/
theorem Moment.called (hm : Moment env m) (stack : List String) (hframe : env.Has frame)
    (id : ValueId) (f : Function) (args : List Operand) :
    Moment env (called env stack frame id f args m).2 :=
  (remembering_moment env).toLockstep.mapM (f := resolveFor env stack frame id)
    (g := resolveFor env stack frame id) args
    (fun a _ ↦ (remembering_moment env).resolveOperand_self stack frame hframe [id] a) m hm

/-- What is known of an operand that may be missing. -/
def resolveReturned (env : Environment) (stack : List String) (frame : Frame) :
    Option Operand → Memoized (Option StaticValue)
  | some o => Query.resolve env stack frame o
  | none => return none

/-- The operands that a function returns as one of its results, each with what is remembered when it
is resolved. -/
def returnTurns (env : Environment) (stack : List String) (frame : Frame) (index : Nat) (m : Memo) :
    List (Option Operand × Memo) :=
  turns (resolveReturned env stack frame)
    (returned frame.function (Query.flow env stack frame m).1 index) (Query.flow env stack frame m).2

/-- What is returned is what stands at the position in the returns that can be reached. -/
theorem mem_returned_iff (hm : Moment env m) (hframe : env.Has frame) {index : Nat}
    {o : Option Operand} :
    o ∈ returned frame.function (Query.flow env stack frame m).1 index ↔
      ∃ b block results, (Query.flow env stack frame m).1.isReachable b ∧
        frame.function.blocks[b]? = some block ∧ block.terminator = .ret results ∧
        o = results[index]? := by
  obtain ⟨D, x, unfound, hexploring, hgraph⟩ := hm.explored stack [] hframe
  have hflow : (Query.flow env stack frame m).1 = _ := hgraph
  rw [hflow, returned, List.mem_filterMap]
  constructor
  · rintro ⟨b, hb, ho⟩
    obtain ⟨hreachable, block, hblock, results, hret⟩ := hexploring.mem_returning_iff.mp hb
    rw [hblock, Option.map_some, hret] at ho
    exact ⟨b, block, results, hreachable, hblock, hret, (Option.some.inj ho).symm⟩
  · rintro ⟨b, block, results, hreachable, hblock, hret, rfl⟩
    refine ⟨b, hexploring.mem_returning_iff.mpr ⟨hreachable, block, hblock, results, hret⟩, ?_⟩
    rw [hblock, Option.map_some, hret]

/-- A result that is found while the function is entered is what all returns agree on. -/
theorem computedResult_fst (henter : env.MayEnter stack frame.name) (index : Nat) :
    (computedResult env stack [] frame index m).1 =
      (Memoized.all (resolveReturned env (frame.name :: stack) frame)
        (returned frame.function (Query.flow env (frame.name :: stack) frame m).1 index)
        (Query.flow env (frame.name :: stack) frame m).2).1.bind StaticValue.agreement := by
  have hreturned : resolveReturned env (frame.name :: stack) frame = fun o ↦ match o with
      | some operand => resolveIn env (resultOf env (frame.name :: stack)) [] frame operand
      | none => return none := by
    funext o
    cases o <;> rfl
  unfold computedResult
  rw [if_pos henter, hreturned]
  rfl

/-- A result of a call is the one that is computed anew, if that is not cut short where a result is
remembered. -/
theorem resultOf_fst (hm : Good env m) (hframe : env.Has frame) {building : List String}
    {index : Nat} (hcut : ∀ v, m.results.lookup (frame.key, index) = some v →
      Uncut (computedResult env stack building frame index) m) :
    (resultOf env stack building frame index m).1 =
      (computedResult env stack building frame index m).1 := by
  rw [resultOf_eq, rememberedResult]
  cases hfind : m.results.lookup (frame.key, index) with
  | none => rw [remembered_of_none hfind]
  | some v =>
    have hv := (keeps_result frame.key index).holds_of_find? hfind
    have hconfirms : Confirms (computedResult env stack building frame index) m v :=
      confirms_computedResult hm hframe hv fun _ _ _ _ _ hc i ↦ follows_resultOf hm hc i
    rw [remembered_of_some hfind]
    exact (hconfirms m (.refl m) (hcut v hfind)).1.symm

variable {dest : Option ValueId} {callee : Callee} {args : List Operand} {f : Function}
  (hcall : frame.function.definition id = some (.call dest callee args))
  (hfollowed : env.followed callee = some f)
  (hconstructor : ∀ function typeArgs, callee = .static function typeArgs →
    env.vocabulary.routeType? function = none)
include hcall hfollowed hconstructor

/-- A value that a followed call gives is a result of the function, given what the arguments resolve
to. -/
theorem resolve_call : Query.resolve env stack frame (.value id) =
    (do resultOf env stack [] (← called env stack frame id f args) 0) := by
  unfold Query.resolve resolveIn
  rw [resolveOperand_value, if_neg List.not_mem_nil, hcall]
  dsimp only
  rw [resolveInstruction]
  unfold resolveCall
  rw [hfollowed]
  cases callee with
  | static function typeArgs =>
    dsimp only
    rw [hconstructor function typeArgs rfl]
    rfl
  | dynamic | invoke => rfl

/-- A value that a followed call gives has a concrete type exactly if the values that the function
may return, each in its turn, are one interface value of that type. -/
theorem concreteType_call_iff (hm : Moment env m) (hframe : env.Has frame)
    (henter : env.MayEnter stack f.name)
    (hcut : ∀ v, (called env stack frame id f args m).2.results.lookup
        ((called env stack frame id f args m).1.key, 0) = some v →
      Uncut (computedResult env stack [] (called env stack frame id f args m).1 0)
        (called env stack frame id f args m).2) :
    (Query.concreteType env stack frame (.value id) m).1 = some typeName ↔
      AgreeOnType typeName ((returnTurns env (f.name :: stack)
        (called env stack frame id f args m).1 0 (called env stack frame id f args m).2).map
          fun t ↦ (resolveReturned env (f.name :: stack)
            (called env stack frame id f args m).1 t.1 t.2).1) := by
  have hresolve : (Query.resolve env stack frame (.value id) m).1 =
      (resultOf env stack [] (called env stack frame id f args m).1 0
        (called env stack frame id f args m).2).1 := by
    rw [resolve_call hcall hfollowed hconstructor]
    rfl
  have hgood := (hm.called stack hframe id f args).good
  have hcalled : env.Has (called env stack frame id f args m).1 :=
    Environment.has_of_followed hfollowed _
  rw [concreteType_eq_some_iff, hresolve, resultOf_fst hgood hcalled hcut,
    computedResult_fst henter]
  exact all_agree_iff

end Call
end

/-- Whatever is known of the values held: a merged value has a concrete type exactly if there are
values along its edges and they are one interface value of that type, each in its turn while the
merged value is being followed; or, where nothing is cut short, each on its own. A value that a
followed call gives, other than that of a route constructor, has a concrete type exactly if there
are returns that can be reached in the frame of the call, and the values that they return are one
interface value of that type. -/
theorem concreteType_iff_agree {env : Environment} {frame : Frame} {m : Memo} (hm : Moment env m)
    (stack : List String) (hframe : env.Has frame) (id : ValueId) (typeName : String) :
    (∀ dest edges, frame.function.definition id = some (.phi dest edges) →
      ((Query.concreteType env stack frame (.value id) m).1 = some typeName ↔
        AgreeOnType typeName ((turns (resolveFor env stack frame id) edges m).map fun t ↦
          (resolveFor env stack frame id t.1 t.2).1)) ∧
      (Uncut (Query.resolve env stack frame (.value id)) m →
        (∀ o ∈ edges, Uncut (Query.resolve env stack frame o) m) →
        ((Query.concreteType env stack frame (.value id) m).1 = some typeName ↔
          AgreeOnType typeName (edges.map fun o ↦ (Query.resolve env stack frame o m).1)))) ∧
    ∀ dest callee args f, frame.function.definition id = some (.call dest callee args) →
      env.followed callee = some f →
      (∀ function typeArgs, callee = .static function typeArgs →
        env.vocabulary.routeType? function = none) →
      env.MayEnter stack f.name →
      let call := (called env stack frame id f args m).1
      let m' := (called env stack frame id f args m).2
      let returns := returnTurns env (f.name :: stack) call 0 m'
      (∀ v, m'.results.lookup (call.key, 0) = some v →
        Uncut (computedResult env stack [] call 0) m') →
      (∀ o, o ∈ returns.map Prod.fst ↔ ∃ b block results,
        (Query.flow env (f.name :: stack) call m').1.isReachable b ∧ f.blocks[b]? = some block ∧
        block.terminator = .ret results ∧ o = results[0]?) ∧
      ((Query.concreteType env stack frame (.value id) m).1 = some typeName ↔
        AgreeOnType typeName (returns.map fun t ↦
          (resolveReturned env (f.name :: stack) call t.1 t.2).1)) := by
  constructor
  · intro dest edges hphi
    exact ⟨concreteType_phi_iff_turns hphi, concreteType_phi_iff hphi hm.good hframe⟩
  · intro dest callee args f hcall hfollowed hconstructor henter call m' returns hcut
    have hm' : Moment env m' := hm.called stack hframe id f args
    have hcalled : env.Has call := Environment.has_of_followed hfollowed _
    refine ⟨fun o ↦ ?_,
      concreteType_call_iff hcall hfollowed hconstructor hm hframe henter hcut⟩
    have hmap : returns.map Prod.fst =
        returned f (Query.flow env (f.name :: stack) call m').1 0 := map_fst_turns _ _ _
    rw [hmap]
    exact mem_returned_iff hm' hcalled

namespace Merging

/-- A function that returns one of two numbers of one type. -/
def pick : Function := ⟨"pick", [],
  [⟨[.opaqueValue ⟨0⟩ "flag", .makeInterface ⟨1⟩ (.const (.int 1)) "T",
     .makeInterface ⟨2⟩ (.const (.int 2)) "T"], .branch (.value ⟨0⟩) 1 2⟩,
   ⟨[], .ret [.value ⟨1⟩]⟩, ⟨[], .ret [.value ⟨2⟩]⟩]⟩

/-- A function that returns the same number in either case. -/
def same : Function := ⟨"same", [],
  [⟨[.opaqueValue ⟨0⟩ "flag", .makeInterface ⟨1⟩ (.const (.int 1)) "T"],
    .branch (.value ⟨0⟩) 1 2⟩,
   ⟨[], .ret [.value ⟨1⟩]⟩, ⟨[], .ret [.value ⟨1⟩]⟩]⟩

/-- A route constructor with a body that returns a number. -/
def route : Function := ⟨"github.com/dogmatiq/dogma.HandlesEvent", [],
  [⟨[.makeInterface ⟨0⟩ (.const (.int 1)) "T"], .ret [.value ⟨0⟩]⟩]⟩

/-- A function that merges numbers of one type, known and unknown ones, and calls the others. -/
def merge : Function := ⟨"merge", [],
  [⟨[.opaqueValue ⟨0⟩ "number", .makeInterface ⟨1⟩ (.value ⟨0⟩) "T",
     .makeInterface ⟨2⟩ (.const (.int 1)) "T", .makeInterface ⟨3⟩ (.const (.int 2)) "T",
     .phi ⟨4⟩ [.value ⟨2⟩, .value ⟨3⟩], .phi ⟨5⟩ [.value ⟨2⟩, .value ⟨1⟩],
     .phi ⟨6⟩ [.value ⟨1⟩, .value ⟨1⟩], .call (some ⟨7⟩) (.static "pick" []) [],
     .call (some ⟨8⟩) (.static route.name []) [], .call (some ⟨9⟩) (.static "same" []) []],
    .ret []⟩]⟩

/-- The program of these functions. -/
def program : Environment where
  program := .ofLists [] [merge, pick, same, route] []

/-- The function that merges, in a frame of its own. -/
def frame : Frame := ⟨merge, []⟩

end Merging

open Merging in
/-- Two values of which nothing but the type is known agree, and so do two equal returns. -/
theorem concreteType_iff_agree_merge :
    (Query.concreteType program [] frame (.value ⟨6⟩) {}).1 = some "T" ∧
    AgreeOnType "T" ([Operand.value ⟨1⟩, .value ⟨1⟩].map fun o ↦
      (Query.resolve program [] frame o {}).1) ∧
    (Query.concreteType program [] frame (.value ⟨9⟩) {}).1 = some "T" ∧
    AgreeOnType "T" ((returnTurns program ["same"] ⟨same, []⟩ 0 {}).map fun t ↦
      (resolveReturned program ["same"] ⟨same, []⟩ t.1 t.2).1) := by
  have hframe : program.Has frame := by
    unfold Environment.Has
    decide +kernel
  have hphi : frame.function.definition ⟨6⟩ = some (.phi ⟨6⟩ [.value ⟨1⟩, .value ⟨1⟩]) := rfl
  have hcall : frame.function.definition ⟨9⟩ = some (.call (some ⟨9⟩) (.static "same" []) []) := rfl
  have hmerged : (Query.concreteType program [] frame (.value ⟨6⟩) {}).1 = some "T" := by
    decide +kernel
  have hreturned : (Query.concreteType program [] frame (.value ⟨9⟩) {}).1 = some "T" := by
    decide +kernel
  have hedges := (((concreteType_iff_agree .start [] hframe ⟨6⟩ "T").1 _ _ hphi).2
    (by unfold Uncut; decide +kernel) (by unfold Uncut; decide +kernel)).mp hmerged
  have hreturns := ((concreteType_iff_agree .start [] hframe ⟨9⟩ "T").2 _ _ _ same hcall
    (by decide +kernel) (fun _ _ h ↦ by cases h; decide +kernel) (by decide +kernel)
    (fun _ h ↦ by cases h)).2.mp hreturned
  exact ⟨hmerged, hedges, hreturned, hreturns⟩

open Merging in
/-- Numbers of one type are merged, but the type is not found if two are known and differ, or if
only one of them is known; nor is it if a function returns the one or the other, or if a route
constructor returns one. -/
theorem concreteType_merge_ne :
    (Query.resolve program [] frame (.value ⟨1⟩) {}).1 = some (.boxedUnknown "T") ∧
    (Query.resolve program [] frame (.value ⟨2⟩) {}).1 = some (.boxed "T" (.const (.int 1))) ∧
    (Query.resolve program [] frame (.value ⟨3⟩) {}).1 = some (.boxed "T" (.const (.int 2))) ∧
    (Query.concreteType program [] frame (.value ⟨4⟩) {}).1 = none ∧
    (Query.concreteType program [] frame (.value ⟨5⟩) {}).1 = none ∧
    (Query.resolve program ["pick"] ⟨pick, []⟩ (.value ⟨1⟩) {}).1 =
      some (.boxed "T" (.const (.int 1))) ∧
    (Query.resolve program ["pick"] ⟨pick, []⟩ (.value ⟨2⟩) {}).1 =
      some (.boxed "T" (.const (.int 2))) ∧
    (Query.concreteType program [] frame (.value ⟨7⟩) {}).1 = none ∧
    (Query.concreteType program [] frame (.value ⟨8⟩) {}).1 = none := by
  decide +kernel

end Wiring.Analysis
