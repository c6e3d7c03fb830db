import Wiring.Analysis.Query
import Wiring.Proofs.Recovery.Turns
import Wiring.Proofs.Yields

/-!
# Walks, encounter by encounter

A walk through a frame goes from one encounter with the configurer to the next. What it finds of
each is a computation of its own, and the doubts that the walk inherits have no say in it: they
are added to the calls that are found, wherever those are made.
-/

namespace Wiring.Analysis

open Wiring.Program (Operand Function)

namespace ConfigurerCalls

/-- The calls, each in doubt as is what leads to them. -/
def under (doubt : Fidelity) (r : ConfigurerCalls) : ConfigurerCalls :=
  { r with calls := r.calls.map fun c ↦ { c with fidelity := max doubt c.fidelity } }

theorem calls_concat (l : List ConfigurerCalls) : (concat l).calls = l.flatMap calls := by
  induction l with
  | nil => rfl
  | cons r l ih => exact congrArg (r.calls ++ ·) ih

theorem under_append (doubt : Fidelity) (a b : ConfigurerCalls) :
    (a ++ b).under doubt = a.under doubt ++ b.under doubt := by
  change mk (List.map _ (a.calls ++ b.calls)) _ = mk _ _
  rw [List.map_append]
  rfl

theorem under_concat (doubt : Fidelity) (l : List ConfigurerCalls) :
    (concat l).under doubt = concat (l.map (under doubt)) := by
  induction l with
  | nil => rfl
  | cons r l ih => exact (under_append doubt r (concat l)).trans (congrArg (append _) ih)

theorem under_under (doubt doubt' : Fidelity) (r : ConfigurerCalls) :
    (r.under doubt').under doubt = r.under (max doubt doubt') := by
  simp [under, Fidelity.max_assoc]

end ConfigurerCalls

/-- The doubt about what is encountered in a block, given whether the block is in every run. -/
def doubtOf (always : Bool) : Fidelity := if always then .immaculate else .onlySpeculative

theorem max_doubtOf (inherited : Fidelity) (always : Bool) :
    (if always then inherited else max inherited .onlySpeculative) =
      max inherited (doubtOf always) := by
  cases always
  · rfl
  · exact (Fidelity.max_immaculate inherited).symm

/-- What a walk finds of an encounter: the call, or whatever is found in the function that the
configurer is handed over to. -/
def encountered (env : Environment) (stack : List String) (frame : Frame) (inherited : Fidelity) :
    Encounter × Bool → Memoized ConfigurerCalls :=
  pursue env frame inherited fun f h fidelity ↦ do
    if env.MayEnter stack f.name then
      let args ← boundArgs (resolveIn env (resultOf env (f.name :: stack)) [] frame) h
      walk env (f.name :: stack) ⟨f, args⟩ h.positions fidelity
    else
      Memoized.cutOff
      return .unknown

/-- A computation for each item, put through a function. -/
theorem mapM_map_eq {α β γ : Type} (f : α → Memoized β) (g : β → γ) (l : List α) :
    (l.mapM fun a ↦ g <$> f a) = List.map g <$> l.mapM f := by
  induction l with
  | nil => rw [List.mapM_nil, List.mapM_nil, map_pure, List.map_nil]
  | cons a l ih =>
    rw [List.mapM_cons, List.mapM_cons, ih]
    simp only [map_eq_pure_bind, bind_assoc, pure_bind, List.map_cons]

variable {env : Environment} {stack : List String} {frame : Frame} {params : List Nat}
  {inherited : Fidelity}

theorem encountered_call (method : String) (args : List Operand) (always : Bool) :
    encountered env stack frame inherited (.call method args, always) =
      return { calls := [⟨method, args, frame, max inherited (doubtOf always)⟩] } := by
  rw [← max_doubtOf]
  rfl

/-- Nothing is known of a handover to a function that cannot be told. -/
theorem encountered_of_none {h : Handover} (hf : env.followed h.callee = none) (always : Bool) :
    encountered env stack frame inherited (.handover h, always) = return .unknown := by
  unfold encountered pursue
  dsimp only
  rw [hf]

/-- Of a handover to a function that can be told, the calls in the function are found, if it may be
entered. -/
theorem encountered_of_some {h : Handover} {f : Function} (hf : env.followed h.callee = some f)
    (always : Bool) : encountered env stack frame inherited (.handover h, always) =
      if env.MayEnter stack f.name then do
        let args ← boundArgs (resolveIn env (resultOf env (f.name :: stack)) [] frame) h
        walk env (f.name :: stack) ⟨f, args⟩ h.positions (max inherited (doubtOf always))
      else do
        Memoized.cutOff
        return .unknown := by
  unfold encountered pursue
  dsimp only
  rw [hf, max_doubtOf]

/-- A walk obtains the flow graph and finds something of each encounter. -/
theorem walk_eq : walk env stack frame params inherited = do
    let taint := Taint.ofParams frame.function params
    let g ← Query.flow env stack frame
    let found ← (taint.encounters frame.function g).mapM (encountered env stack frame inherited)
    let lost : ConfigurerCalls := if taint.escapes frame.function then .unknown else .none
    return lost ++ .concat found := by
  rw [walk]
  rfl

/-- What a walk finds, from what is remembered. -/
theorem walk_fst (m : Memo) : (walk env stack frame params inherited m).1 =
    (if (Taint.ofParams frame.function params).escapes frame.function then .unknown else .none) ++
      .concat (((Taint.ofParams frame.function params).encounters frame.function
        (Query.flow env stack frame m).1).mapM (encountered env stack frame inherited)
          (Query.flow env stack frame m).2).1 := by
  rw [walk_eq]
  rfl

/-- The calls that are found of an encounter are made in frames of one kind, if this frame is one
and so are those of the functions that are entered. -/
theorem encountered_yields {I : Memo → Prop} {P : Frame → Prop}
    (hcut : ∀ m, I m → I m.cutShort) (hframe : P frame)
    (hfollow : ∀ h f, env.followed h.callee = some f → env.MayEnter stack f.name → ∀ fidelity,
      Yields I (fun r ↦ ∀ call ∈ r.calls, P call.frame) do
        let args ← boundArgs (resolveIn env (resultOf env (f.name :: stack)) [] frame) h
        walk env (f.name :: stack) ⟨f, args⟩ h.positions fidelity)
    (e : Encounter × Bool) : Yields I (fun r ↦ ∀ call ∈ r.calls, P call.frame)
      (encountered env stack frame inherited e) := by
  have hunknown : ∀ call ∈ ConfigurerCalls.unknown.calls, P call.frame :=
    fun _ h ↦ absurd h List.not_mem_nil
  obtain ⟨encounter, always⟩ := e
  cases encounter with
  | call method args =>
    rw [encountered_call]
    refine .pure fun call hcall ↦ ?_
    obtain rfl := List.mem_singleton.mp hcall
    exact hframe
  | handover h =>
    cases hf : env.followed h.callee with
    | none =>
      rw [encountered_of_none hf]
      exact .pure hunknown
    | some f =>
      rw [encountered_of_some hf]
      split
      · next henter => exact hfollow h f hf henter _
      · exact fun m hm ↦ ⟨hunknown, hcut m hm⟩

/-- The calls that a walk finds are made in frames of one kind, if the walk starts in such a frame
and comes to no other by handing over the configurer. -/
theorem walk_yields {I : Memo → Prop} {P : Frame → Prop}
    (hcut : ∀ m, I m → I m.cutShort)
    (hflow : ∀ stack frame, P frame → Yields I (fun _ ↦ True) (Query.flow env stack frame))
    (hbound : ∀ stack frame h f, P frame → env.followed h.callee = some f →
      Yields I (fun args ↦ P ⟨f, args⟩)
        (boundArgs (resolveIn env (resultOf env stack) [] frame) h))
    (hframe : P frame) : Yields I (fun r ↦ ∀ call ∈ r.calls, P call.frame)
      (walk env stack frame params inherited) := by
  -- by the number of functions that may still be entered
  induction hn : (env.remaining stack).length using Nat.strongRecOn
    generalizing stack frame params inherited with
  | ind n ih =>
    rw [walk_eq]
    refine Yields.bind (hflow stack frame hframe) fun g _ ↦ ?_
    refine Yields.bind (Yields.mapM (S := fun _ r ↦ ∀ call ∈ r.calls, P call.frame)
      fun e _ ↦ encountered_yields hcut hframe (fun h f hf henter fidelity ↦ ?_) e)
        fun found hfound ↦ .pure fun call hcall ↦ ?_
    · exact Yields.bind (hbound _ frame h f hframe hf) fun args hargs ↦
        ih _ (hn ▸ Environment.remaining_lt henter) hargs rfl
    -- what escapes the function leaves doubts behind, not calls
    · rcases List.mem_append.mp hcall with hlost | hcall
      · split at hlost <;> exact absurd hlost List.not_mem_nil
      · rw [ConfigurerCalls.calls_concat, List.mem_flatMap] at hcall
        obtain ⟨r, hr, hcall⟩ := hcall
        obtain ⟨i, hi, rfl⟩ := List.getElem_of_mem hr
        exact hfound.get (hfound.length_eq ▸ hi) hi call hcall

/-- The calls on the configurer that a frame's function receives are made in such frames. -/
theorem findConfigurerCalls_yields {I : Memo → Prop} {P : Frame → Prop}
    (hcut : ∀ m, I m → I m.cutShort)
    (hflow : ∀ stack frame, P frame → Yields I (fun _ ↦ True) (Query.flow env stack frame))
    (hbound : ∀ stack frame h f, P frame → env.followed h.callee = some f →
      Yields I (fun args ↦ P ⟨f, args⟩)
        (boundArgs (resolveIn env (resultOf env stack) [] frame) h))
    (hframe : P frame) (configurer : Nat) : Yields I (fun r ↦ ∀ call ∈ r.calls, P call.frame)
      (findConfigurerCalls env stack frame configurer) := by
  unfold findConfigurerCalls
  split
  · exact walk_yields hcut hflow hbound hframe
  · exact fun m hm ↦ ⟨fun _ h ↦ absurd h List.not_mem_nil, hcut m hm⟩

/-- The doubts that a walk inherits come down to the calls that it finds. -/
theorem walk_inherits (inherited : Fidelity) : walk env stack frame params inherited =
    ConfigurerCalls.under inherited <$> walk env stack frame params .immaculate := by
  -- by the number of functions that may still be entered
  induction hn : (env.remaining stack).length using Nat.strongRecOn
    generalizing stack frame params inherited with
  | ind n ih =>
    have hencountered : encountered env stack frame inherited = fun e ↦
        ConfigurerCalls.under inherited <$> encountered env stack frame .immaculate e := by
      funext ⟨encounter, always⟩
      cases encounter with
      | call method args =>
        rw [encountered_call, encountered_call, Fidelity.immaculate_max]
        rfl
      | handover h =>
        cases hf : env.followed h.callee with
        | none =>
          rw [encountered_of_none hf, encountered_of_none hf]
          rfl
        | some f =>
          rw [encountered_of_some hf, encountered_of_some hf, Fidelity.immaculate_max]
          split
          · next henter =>
            rw [map_bind]
            refine congrArg (boundArgs _ _ >>= ·) (funext fun args ↦ ?_)
            have hlt := hn ▸ Environment.remaining_lt henter
            rw [ih _ hlt (doubtOf always) rfl, ih _ hlt (max inherited (doubtOf always)) rfl,
              Functor.map_map]
            exact congrArg (· <$> _) (funext fun r ↦ (r.under_under _ _).symm)
          · rfl
    have hlost (b : Bool) : (if b then .unknown else .none : ConfigurerCalls).under inherited =
        if b then .unknown else .none := by
      cases b <;> rfl
    rw [walk_eq, walk_eq]
    simp only [map_bind]
    refine congrArg (Query.flow env stack frame >>= ·) (funext fun g ↦ ?_)
    rw [hencountered, mapM_map_eq, bind_map_left]
    refine congrArg (List.mapM _ _ >>= ·) (funext fun found ↦ ?_)
    rw [map_pure, ConfigurerCalls.under_append, hlost, ConfigurerCalls.under_concat]

end Wiring.Analysis
