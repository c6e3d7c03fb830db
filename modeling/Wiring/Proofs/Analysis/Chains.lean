import Wiring.Proofs.Analysis.Lockstep
import Wiring.Proofs.Analysis.Marks
import Wiring.Proofs.Analysis.Walk
import Mathlib.Data.List.Forall2

/-!
# Chains of calls

A chain leads from a function that receives the configurer, call by call, to a method call on it.
The calls that are found are those that some chain leads to, one for each chain, in the order of the
places that the chains go through.
-/

namespace Wiring.Analysis

open Wiring.Program (Operand Callee Instruction Function Block)

/-- A frame that a walk has come to: the functions that are followed then, its own first, the
parameters that the configurer is passed to, and what is remembered. -/
structure Visit where
  stack : List String
  frame : Frame
  params : List Nat
  memo : Memo

namespace Visit

variable (env : Environment) (v : Visit)

/-- The visit that the search for calls on a configurer begins with. -/
def first (frame : Frame) (configurer : Nat) (memo : Memo) : Visit :=
  ⟨[frame.name], frame, [configurer], memo⟩

/-- What may be the configurer. -/
def taint : Taint := .ofParams v.frame.function v.params

/-- The flow graph that the walk obtains. -/
def graph : FlowGraph := (Query.flow env v.stack v.frame v.memo).1

/-- The instruction is at the place, in a block that can be reached. -/
def Runs (p : Place) (i : Instruction) : Prop :=
  (v.graph env).isReachable p.block ∧
    ∃ block, v.frame.function.blocks[p.block]? = some block ∧ block.instructions[p.index]? = some i

/-- The encounters in the frame, each with its place. -/
def placed : List (Place × Encounter × Bool) := v.taint.placed v.frame.function (v.graph env)

/-- What is remembered when the walk gets to a place: it has obtained the flow graph and followed
whatever it has encountered before. -/
def memoAt (p : Place) : Memo :=
  ((v.placed env).filter fun e ↦ e.1 < p).foldl
    (fun m e ↦ (encountered env v.stack v.frame .immaculate e.2 m).2)
    (Query.flow env v.stack v.frame v.memo).2

/-- The visit that a call at a place leads to if it is followed. Arguments that may be the
configurer are unknown, the others are resolved in the calling frame. -/
def next (p : Place) (h : Handover) (f : Function) : Visit :=
  let resolve := resolveIn env (resultOf env (f.name :: v.stack)) [] v.frame
  let (args, memo) := boundArgs resolve h (v.memoAt env p)
  ⟨f.name :: v.stack, ⟨f, args⟩, h.positions, memo⟩

/-- At the place a method of the configurer is called. -/
def Calls (p : Place) (method : String) (args : List Operand) : Prop :=
  ∃ dest receiver, v.Runs env p (.call dest (.invoke receiver method) args) ∧
    v.taint.contains receiver

/-- At the place the configurer is passed to a function that the walk goes on to: the call is not
one of a method of the configurer, it can be told which function it runs, and that has a body, is
not being followed yet, and is not too deep. -/
def Follows (p : Place) (w : Visit) : Prop :=
  ∃ dest callee args f, v.Runs env p (.call dest callee args) ∧
    (∀ receiver method, callee = .invoke receiver method → v.taint.contains receiver = false) ∧
    (∃ a ∈ args, v.taint.contains a) ∧
    env.staticCallee callee = some f ∧ f.isExternal = false ∧
    f.name ∉ v.stack ∧ v.stack.length < env.maxCallDepth ∧
    w = v.next env p ⟨callee, args, v.taint.positions args⟩ f

end Visit

/-- A chain from a visit, as the visits with the places where they are left, and the method call
that it leads to, in its frame. -/
inductive Chain (env : Environment) :
    Visit → List (Visit × Place) → Frame → String → List Operand → Prop
  | call {v : Visit} {p : Place} {method : String} {args : List Operand}
      (h : v.Calls env p method args) : Chain env v [(v, p)] v.frame method args
  | follow {v w : Visit} {p : Place} {steps : List (Visit × Place)} {frame : Frame}
      {method : String} {args : List Operand} (h : v.Follows env p w)
      (hc : Chain env w steps frame method args) :
      Chain env v ((v, p) :: steps) frame method args

/-- The doubt about the call that a chain leads to: some block on the way is not in every run. -/
def doubtAlong (env : Environment) (steps : List (Visit × Place)) : Fidelity :=
  doubtOf (steps.all fun s ↦ (s.1.graph env).isUnconditional s.2.block)

/-- The chains from a visit, in the order in which a walk comes by them. -/
def Visit.chains (env : Environment) (v : Visit) : List (List (Visit × Place)) :=
  (v.placed env).flatMap fun (p, e, _) ↦ match e with
    | .call _ _ => [[(v, p)]]
    | .handover h =>
      match env.followed h.callee with
      | none => []
      | some f =>
        if hf : env.MayEnter v.stack f.name then
          have := Environment.remaining_lt hf
          ((v.next env p h f).chains env).map ((v, p) :: ·)
        else []
termination_by (env.remaining v.stack).length

namespace Memoized

/-- If the items of a list are in order, what is remembered when an item has its turn is what the
items before it leave behind. -/
theorem turns_eq_map {α β : Type} {r : α → α → Prop} [DecidableRel r]
    (hasymm : ∀ a b, r a b → ¬ r b a) (f : α → Memoized β) {l : List α} (hl : l.Pairwise r)
    (m : Memo) : turns f l m =
      l.map fun a ↦ (a, (l.filter (r · a)).foldl (fun m b ↦ (f b m).2) m) := by
  induction l generalizing m with
  | nil => rfl
  | cons a l ih =>
    obtain ⟨ha, hl⟩ := List.pairwise_cons.mp hl
    have hfirst : (a :: l).filter (r · a) = [] := by
      refine List.filter_eq_nil_iff.mpr fun b hb ↦ ?_
      rcases List.mem_cons.mp hb with rfl | hb
      · simpa using fun h ↦ hasymm b b h h
      · simpa using hasymm a b (ha b hb)
    rw [turns, List.map_cons, hfirst, ih hl]
    refine congrArg (_ :: ·) (List.map_congr_left fun b hb ↦ ?_)
    rw [List.filter_cons_of_pos (by simpa using ha b hb)]
    rfl

end Memoized

namespace Visit

variable {env : Environment} {v : Visit}

/-- A walk finds the calls of its encounters, each in its turn. -/
theorem calls_walk : (walk env v.stack v.frame v.params .immaculate v.memo).1.calls =
    (v.placed env).flatMap fun e ↦
      (encountered env v.stack v.frame .immaculate e.2 (v.memoAt env e.1)).1.calls := by
  have hfound : ((v.taint.encounters v.frame.function (v.graph env)).mapM
      (encountered env v.stack v.frame .immaculate)
        (Query.flow env v.stack v.frame v.memo).2).1 =
      (v.placed env).map fun e ↦
        (encountered env v.stack v.frame .immaculate e.2 (v.memoAt env e.1)).1 := by
    rw [← Taint.map_snd_placed, List.mapM_map, Memoized.mapM_fst,
      Memoized.turns_eq_map (r := fun a b ↦ a.1 < b.1) (fun _ _ ↦ Place.lt_asymm) _
        (Taint.pairwise_placed _ _ _), List.map_map]
    rfl
  have hcalls : (walk env v.stack v.frame v.params .immaculate v.memo).1.calls =
      (if v.taint.escapes v.frame.function then .unknown else .none : ConfigurerCalls).calls ++
        (ConfigurerCalls.concat ((v.taint.encounters v.frame.function (v.graph env)).mapM
          (encountered env v.stack v.frame .immaculate)
            (Query.flow env v.stack v.frame v.memo).2).1).calls := by
    rw [walk_eq]
    rfl
  have hlost (b : Bool) : (if b then .unknown else .none : ConfigurerCalls).calls = [] := by
    cases b <;> rfl
  rw [hcalls, hlost, hfound, ConfigurerCalls.calls_concat, List.flatMap_map, List.nil_append]

/-- There is one instruction at a place. -/
theorem Runs.unique {p : Place} {i j : Instruction} (hi : v.Runs env p i) (hj : v.Runs env p j) :
    i = j := by
  obtain ⟨-, block, hblock, hi⟩ := hi
  obtain ⟨-, block', hblock', hj⟩ := hj
  obtain rfl := Option.some.inj (hblock.symm.trans hblock')
  exact Option.some.inj (hi.symm.trans hj)

/-- A method call is what the walk encounters as one. -/
theorem calls_iff {p : Place} {method : String} {args : List Operand} :
    v.Calls env p method args ↔ ∃ always, (p, .call method args, always) ∈ v.placed env := by
  constructor
  · rintro ⟨dest, receiver, ⟨hg, block, hblock, hi⟩, hc⟩
    exact ⟨_, Taint.mem_placed hblock hg hi (Taint.encounter_invoke hc)⟩
  · rintro ⟨always, h⟩
    obtain ⟨hg, -, block, i, hblock, hi, he⟩ := Taint.exists_of_mem_placed h
    obtain ⟨dest, receiver, rfl, hc⟩ := Taint.encounter_eq_call_iff.mp he
    exact ⟨dest, receiver, ⟨hg, block, hblock, hi⟩, hc⟩

/-- The walk goes on to a function exactly if it encounters a handover to it and may enter it. -/
theorem follows_iff {p : Place} {w : Visit} : v.Follows env p w ↔
    ∃ h always f, (p, .handover h, always) ∈ v.placed env ∧ env.followed h.callee = some f ∧
      env.MayEnter v.stack f.name ∧ w = v.next env p h f := by
  constructor
  · rintro ⟨dest, callee, args, f, ⟨hg, block, hblock, hi⟩, hcallee, harg, hf, hbody, hnew, hdepth,
      rfl⟩
    have he : v.taint.encounter (.call dest callee args) =
        some (.handover ⟨callee, args, v.taint.positions args⟩) :=
      Taint.encounter_eq_handover_iff.mpr ⟨⟨dest, rfl⟩, hcallee, harg, rfl⟩
    have hfollowed : env.followed callee = some f := by
      simp [Environment.followed, hf, hbody]
    have hmem := Environment.mem_functionNames (Environment.has_of_followed hfollowed [])
    exact ⟨_, _, f, Taint.mem_placed hblock hg hi he, hfollowed, ⟨hmem, hnew, hdepth⟩, rfl⟩
  · rintro ⟨h, always, f, hmem, hf, ⟨-, hnew, hdepth⟩, rfl⟩
    obtain ⟨hg, -, block, i, hblock, hi, he⟩ := Taint.exists_of_mem_placed hmem
    obtain ⟨⟨dest, rfl⟩, hcallee, harg, hpositions⟩ := Taint.encounter_eq_handover_iff.mp he
    obtain ⟨hstatic, hbody⟩ := Option.filter_eq_some_iff.mp hf
    exact ⟨dest, h.callee, h.args, f, ⟨hg, block, hblock, hi⟩, hcallee, harg, hstatic,
      by simpa using hbody, hnew, hdepth, by rw [← hpositions]⟩

/-- The chains from a visit that begin with an encounter. -/
def chainsAt (env : Environment) (v : Visit) (e : Place × Encounter × Bool) :
    List (List (Visit × Place)) :=
  match e.2.1 with
  | .call _ _ => [[(v, e.1)]]
  | .handover h =>
    match env.followed h.callee with
    | none => []
    | some f =>
      if env.MayEnter v.stack f.name then
        ((v.next env e.1 h f).chains env).map ((v, e.1) :: ·)
      else []

/-- Every chain begins with an encounter. -/
theorem chains_eq : v.chains env = (v.placed env).flatMap (v.chainsAt env) := by
  rw [chains]
  rfl

/-- A chain ends with a method call or goes on from where a call is followed to. -/
theorem mem_chains_iff {steps : List (Visit × Place)} : steps ∈ v.chains env ↔
    (∃ p method args, v.Calls env p method args ∧ steps = [(v, p)]) ∨
      ∃ p w rest, v.Follows env p w ∧ rest ∈ w.chains env ∧ steps = (v, p) :: rest := by
  simp only [calls_iff, follows_iff]
  rw [chains_eq, List.mem_flatMap]
  constructor
  · rintro ⟨⟨p, e, always⟩, hmem, hsteps⟩
    cases e with
    | call method args =>
      exact .inl ⟨p, method, args, ⟨always, hmem⟩, List.mem_singleton.mp hsteps⟩
    | handover h =>
      unfold chainsAt at hsteps
      dsimp only at hsteps
      split at hsteps
      · simp at hsteps
      · next f hf =>
        split at hsteps
        · next henter =>
          obtain ⟨rest, hrest, rfl⟩ := List.mem_map.mp hsteps
          exact .inr ⟨p, _, rest, ⟨h, always, f, hmem, hf, henter, rfl⟩, hrest, rfl⟩
        · simp at hsteps
  · rintro (⟨p, method, args, ⟨always, hmem⟩, rfl⟩ |
      ⟨p, w, rest, ⟨h, always, f, hmem, hf, henter, rfl⟩, hrest, rfl⟩)
    · exact ⟨_, hmem, List.mem_singleton_self _⟩
    · refine ⟨_, hmem, ?_⟩
      simp only [chainsAt, hf, henter, if_true]
      exact List.mem_map.mpr ⟨rest, hrest, rfl⟩

/-- The chains of the list are the chains that there are. -/
theorem mem_chains_iff_chain {steps : List (Visit × Place)} : steps ∈ v.chains env ↔
    ∃ frame method args, Chain env v steps frame method args := by
  constructor
  · intro h
    -- a chain is as long as its list of steps
    induction steps generalizing v with
    | nil => rcases mem_chains_iff.mp h with ⟨p, _, _, -, h⟩ | ⟨p, w, rest, -, -, h⟩ <;> simp at h
    | cons s rest ih =>
      rcases mem_chains_iff.mp h with ⟨p, method, args, hc, heq⟩ | ⟨p, w, rest', hf, hrest, heq⟩
      · cases heq
        exact ⟨_, method, args, .call hc⟩
      · cases heq
        obtain ⟨frame, method, args, hchain⟩ := ih hrest
        exact ⟨frame, method, args, .follow hf hchain⟩
  · rintro ⟨frame, method, args, h⟩
    induction h with
    | call h => exact mem_chains_iff.mpr (.inl ⟨_, _, _, h, rfl⟩)
    | follow h hc ih => exact mem_chains_iff.mpr (.inr ⟨_, _, _, h, ih, rfl⟩)

/-- The places that a chain goes through. -/
def places (steps : List (Visit × Place)) : List Place := steps.map Prod.snd

/-- A chain that begins with an encounter leaves the visit at its place. -/
theorem exists_of_mem_chainsAt {e : Place × Encounter × Bool} {steps : List (Visit × Place)}
    (h : steps ∈ v.chainsAt env e) : ∃ rest, places steps = e.1 :: rest := by
  unfold chainsAt at h
  split at h
  · obtain rfl := List.mem_singleton.mp h
    exact ⟨_, rfl⟩
  · split at h
    · simp at h
    · split at h
      · obtain ⟨rest, -, rfl⟩ := List.mem_map.mp h
        exact ⟨_, rfl⟩
      · simp at h

/-- The chains come in the order of the places that they go through. -/
theorem pairwise_chains : (v.chains env).Pairwise fun s s' ↦ places s < places s' := by
  -- by the number of functions that may still be entered
  induction hn : (env.remaining v.stack).length using Nat.strongRecOn generalizing v with
  | ind n ih =>
    rw [chains_eq]
    refine List.pairwise_flatMap.mpr ⟨fun e _ ↦ ?_, ?_⟩
    · unfold chainsAt
      split
      · exact List.pairwise_singleton _ _
      · split
        · exact .nil
        · split
          · next henter =>
            refine List.pairwise_map.mpr ?_
            refine (ih _ (hn ▸ Environment.remaining_lt henter) rfl).imp fun hlt ↦ ?_
            exact List.cons_lt_cons_iff.mpr (.inr ⟨rfl, hlt⟩)
          · exact .nil
    · refine (Taint.pairwise_placed _ _ _).imp fun hlt s hs s' hs' ↦ ?_
      obtain ⟨rest, hrest⟩ := exists_of_mem_chainsAt hs
      obtain ⟨rest', hrest'⟩ := exists_of_mem_chainsAt hs'
      rw [hrest, hrest']
      exact List.cons_lt_cons_iff.mpr (.inl hlt)

/-- A call is what a chain leads to, and as doubtful as the way there. -/
def Reports (env : Environment) (v : Visit) (steps : List (Visit × Place)) (c : ConfigurerCall) :
    Prop :=
  Chain env v steps c.frame c.method c.args ∧ c.fidelity = doubtAlong env steps

/-- The doubt of a first step is added to that of the others. -/
theorem doubtAlong_cons (p : Place) (steps : List (Visit × Place)) :
    doubtAlong env ((v, p) :: steps) =
      max (doubtOf ((v.graph env).isUnconditional p.block)) (doubtAlong env steps) := by
  unfold doubtAlong doubtOf
  rw [List.all_cons]
  cases (v.graph env).isUnconditional p.block <;>
    cases steps.all fun s ↦ (s.1.graph env).isUnconditional s.2.block <;> rfl

/-- Of a handover to a function that may be entered, the walk finds what is found in the function,
in doubt as is the handover. -/
theorem calls_encountered_handover {p : Place} {h : Handover} {always : Bool} {f : Function}
    (hf : env.followed h.callee = some f) (henter : env.MayEnter v.stack f.name) :
    (encountered env v.stack v.frame .immaculate (.handover h, always) (v.memoAt env p)).1.calls =
      let w := v.next env p h f
      ((walk env w.stack w.frame w.params .immaculate w.memo).1.under (doubtOf always)).calls := by
  rw [encountered_of_some hf, if_pos henter, Fidelity.immaculate_max]
  simp only [walk_inherits (doubtOf always)]
  rfl

/-- The calls that chains from an encounter lead to are what a walk finds of it. -/
theorem forall₂_chainsAt {e : Place × Encounter × Bool} (hmem : e ∈ v.placed env)
    (ih : ∀ h f, env.MayEnter v.stack f.name →
      let w := v.next env e.1 h f
      List.Forall₂ (w.Reports env) (w.chains env)
        (walk env w.stack w.frame w.params .immaculate w.memo).1.calls) :
    List.Forall₂ (v.Reports env) (v.chainsAt env e)
      (encountered env v.stack v.frame .immaculate e.2 (v.memoAt env e.1)).1.calls := by
  obtain ⟨p, e, always⟩ := e
  obtain ⟨-, halways, -⟩ := Taint.exists_of_mem_placed hmem
  cases e with
  | call method args =>
    refine .cons ⟨.call (calls_iff.mpr ⟨always, hmem⟩), ?_⟩ .nil
    rw [doubtAlong_cons, ← halways]
    change max .immaculate (doubtOf always) = max (doubtOf always) .immaculate
    rw [Fidelity.max_comm]
  | handover h =>
    cases hf : env.followed h.callee with
    | none =>
      rw [encountered_of_none hf]
      simp only [chainsAt, hf]
      exact .nil
    | some f =>
      by_cases henter : env.MayEnter v.stack f.name
      · rw [calls_encountered_handover hf henter]
        simp only [chainsAt, hf, henter, if_true, ConfigurerCalls.under]
        rw [List.forall₂_map_left_iff, List.forall₂_map_right_iff]
        refine (ih h f henter).imp fun steps c hreports ↦ ⟨?_, ?_⟩
        · exact .follow (follows_iff.mpr ⟨h, always, f, hmem, hf, henter, rfl⟩) hreports.1
        · rw [doubtAlong_cons, ← halways, ← hreports.2]
      · rw [encountered_of_some hf, if_neg henter]
        simp only [chainsAt, hf, henter, if_false]
        exact .nil

/-- A walk finds the calls that the chains lead to, one for each chain. -/
theorem forall₂_chains : List.Forall₂ (v.Reports env) (v.chains env)
    (walk env v.stack v.frame v.params .immaculate v.memo).1.calls := by
  -- by the number of functions that may still be entered
  induction hn : (env.remaining v.stack).length using Nat.strongRecOn generalizing v with
  | ind n ih =>
    have hitem : ∀ e ∈ v.placed env, List.Forall₂ (v.Reports env) (v.chainsAt env e)
        (encountered env v.stack v.frame .immaculate e.2 (v.memoAt env e.1)).1.calls :=
      fun e hmem ↦ forall₂_chainsAt hmem fun h f henter ↦
        ih _ (hn ▸ Environment.remaining_lt henter) rfl
    rw [chains_eq, calls_walk]
    generalize v.placed env = l at hitem
    induction l with
    | nil => exact .nil
    | cons e l ih =>
      rw [List.flatMap_cons, List.flatMap_cons]
      exact List.rel_append (hitem e (by simp)) (ih fun e he ↦ hitem e (List.mem_cons_of_mem _ he))

end Visit

/-- The calls on a configurer that are found when nothing is being followed are those that the
chains lead to, one for each chain, as doubtful as the way there and in the order of the ways. -/
theorem configurerCalls_enumerate_chains {env : Environment} {frame : Frame} (configurer : Nat)
    (m : Memo) (hdepth : 0 < env.maxCallDepth) (hframe : env.Has frame) :
    let v := Visit.first frame configurer m
    (∀ steps, steps ∈ v.chains env ↔
      ∃ frame method args, Chain env v steps frame method args) ∧
    (v.chains env).Pairwise (fun s s' ↦ s.map Prod.snd < s'.map Prod.snd) ∧
    List.Forall₂ (fun steps c ↦
        Chain env v steps c.frame c.method c.args ∧ c.fidelity = doubtAlong env steps)
      (v.chains env) (Query.configurerCalls env [] frame configurer m).1.calls := by
  have henter : env.MayEnter [] frame.name :=
    ⟨Environment.mem_functionNames hframe, by simp, hdepth⟩
  have hwalk : Query.configurerCalls env [] frame configurer =
      walk env [frame.name] frame [configurer] .immaculate := if_pos henter
  refine ⟨fun steps ↦ Visit.mem_chains_iff_chain, Visit.pairwise_chains, ?_⟩
  rw [hwalk]
  exact Visit.forall₂_chains

namespace Lending

/-- A function that disables what it is given, if it is told to. -/
def disableIf : Function := ⟨"disableIf", [],
  [⟨[.call none (.invoke (.param 0) "Routes") []], .branch (.param 1) ⟨1⟩ ⟨2⟩⟩,
   ⟨[.call none (.invoke (.param 0) "Disable") []], .ret []⟩,
   ⟨[], .ret []⟩]⟩

/-- A function that calls it in every run, and again in one of two branches; there it also calls
itself. -/
def configure : Function := ⟨"configure", [],
  [⟨[.call none (.invoke (.param 0) "Identity") [],
     .call none (.static "disableIf" []) [.param 0, .const (.bool false)]],
    .branch (.value ⟨0⟩) ⟨1⟩ ⟨2⟩⟩,
   ⟨[.call none (.static "configure" []) [.param 0],
     .call none (.static "disableIf" []) [.param 0, .const (.bool true)]], .ret []⟩,
   ⟨[], .ret []⟩]⟩

/-- The program of both. -/
def program : Environment where
  program := .ofLists [] [configure, disableIf] []

/-- The visit from which the calls are found. -/
def start : Visit := .first ⟨configure, []⟩ 0 {}

end Lending

open Lending in
/-- The function that is called twice is gone through twice, in the two flow graphs that what it is
told leaves; the call of the function by itself leads nowhere. -/
theorem configurerCalls_enumerate_chains_lending :
    0 < program.maxCallDepth ∧ program.Has start.frame ∧
    (start.chains program).map Visit.places =
      [[⟨0, 0⟩], [⟨0, 1⟩, ⟨0, 0⟩], [⟨1, 1⟩, ⟨0, 0⟩], [⟨1, 1⟩, ⟨1, 0⟩]] ∧
    List.Forall₂ (fun steps c ↦
        Chain program start steps c.frame c.method c.args ∧ c.fidelity = doubtAlong program steps)
      (start.chains program) (Query.configurerCalls program [] start.frame 0 {}).1.calls ∧
    (Query.configurerCalls program [] start.frame 0 {}).1.calls.map
        (fun c ↦ (c.method, c.fidelity)) =
      [("Identity", .immaculate), ("Routes", .immaculate), ("Routes", .onlySpeculative),
        ("Disable", .onlySpeculative)] := by
  have hdepth : 0 < program.maxCallDepth := by decide
  have hframe : program.Has start.frame := by
    unfold Environment.Has
    decide +kernel
  have hchains := (configurerCalls_enumerate_chains 0 {} hdepth hframe).2.2
  exact ⟨hdepth, hframe, by decide +kernel, hchains, by decide +kernel⟩

end Wiring.Analysis
