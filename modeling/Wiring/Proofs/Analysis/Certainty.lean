import Wiring.Proofs.Analysis.Chains
import Mathlib.Logic.Relation

/-!
# Certain calls

A call on a configurer that is not speculative is made in every run: every block on the way to it
is. Its receiver is made from the configurer in some way. It is so in every way exactly if nowhere
on the way back to the configurer a value may come from the configurer or from something else.
-/

namespace Wiring.Analysis

open Wiring.Program (Operand ValueId Instruction Function Callee)
open Relation (ReflTransGen)

/-- The steps of a chain up to a frame, the last first, and an operand in that frame. -/
abbrev Spot := List (Visit × Place) × Operand

/-- The value at the first spot may be that at the second: it is converted, or merged from several,
or loaded from a local to which it is stored in a block that counts, or passed as an argument. -/
inductive MadeFrom (env : Environment) (counts : Visit → Nat → Prop) : Spot → Spot → Prop
  | makeInterface {s : Visit × Place} {steps : List (Visit × Place)} {dest : ValueId}
      {value : Operand} {typeName : String}
      (h : .makeInterface dest value typeName ∈ s.1.frame.function.instructions) :
      MadeFrom env counts (s :: steps, .value dest) (s :: steps, value)
  | changeInterface {s : Visit × Place} {steps : List (Visit × Place)} {dest : ValueId}
      {value : Operand} (h : .changeInterface dest value ∈ s.1.frame.function.instructions) :
      MadeFrom env counts (s :: steps, .value dest) (s :: steps, value)
  | phi {s : Visit × Place} {steps : List (Visit × Place)} {dest : ValueId} {edges : List Operand}
      {value : Operand} (h : .phi dest edges ∈ s.1.frame.function.instructions)
      (hvalue : value ∈ edges) : MadeFrom env counts (s :: steps, .value dest) (s :: steps, value)
  | load {s : Visit × Place} {steps : List (Visit × Place)} {dest addr : ValueId} {b : Nat}
      {value : Operand} (h : .load dest (.value addr) ∈ s.1.frame.function.instructions)
      (hlocal : ∃ d typeName, s.1.frame.function.definition addr = some (.alloc d typeName))
      (hcounts : counts s.1 b)
      (hstore : .store (.value addr) value ∈ s.1.frame.function.instructionsOf b) :
      MadeFrom env counts (s :: steps, .value dest) (s :: steps, value)
  | param {s t : Visit × Place} {steps : List (Visit × Place)} {dest : Option ValueId}
      {callee : Callee} {args : List Operand} {index : UInt64} {value : Operand}
      (h : t.1.Runs env t.2 (.call dest callee args)) (hvalue : args[index.toNat]? = some value) :
      MadeFrom env counts (s :: t :: steps, .param index) (t :: steps, value)

/-- Stores count in any block. -/
def anywhere : Visit → Nat → Prop := fun _ _ ↦ True

/-- Stores count in blocks that can be reached. -/
def whereReachable (env : Environment) : Visit → Nat → Prop := fun v b ↦
  (v.graph env).isReachable b

/-- The value at a spot may be the configurer that the first frame receives. -/
def MayBe (env : Environment) (configurer : Nat) (x : Spot) : Prop :=
  ∃ s index, index.toNat = configurer ∧
    ReflTransGen (MadeFrom env anywhere) x ([s], .param index)

/-- The value at a spot is the configurer whatever way it has come: however far one goes back, it
comes from nothing else. -/
def MustBe (env : Environment) (configurer : Nat) (x : Spot) : Prop :=
  ∀ y, ReflTransGen (MadeFrom env (whereReachable env)) x y → MayBe env configurer y

/-- The value at a spot may be one that may be the configurer, or else one that may not. -/
def Mixed (env : Environment) (configurer : Nat) (x : Spot) : Prop :=
  ∃ y z, MadeFrom env anywhere x y ∧ MayBe env configurer y ∧
    MadeFrom env (whereReachable env) x z ∧ ¬ MayBe env configurer z

variable {env : Environment} {configurer : Nat}

/-- The configurer is made from nothing else. -/
theorem not_madeFrom_param {counts : Visit → Nat → Prop} {s : Visit × Place} {index : UInt64}
    {y : Spot} : ¬ MadeFrom env counts ([s], .param index) y := by
  intro h
  cases h

/-- A value of which only a description is known is made from nothing. -/
theorem not_madeFrom_opaque {counts : Visit → Nat → Prop} {s : Visit × Place}
    {steps : List (Visit × Place)} {id : ValueId} {y : Spot}
    (h : ∀ i ∈ s.1.frame.function.instructions, i.dest = some id →
      ∃ description, i = .opaqueValue id description) :
    ¬ MadeFrom env counts (s :: steps, .value id) y := by
  intro hy
  cases hy with
  | makeInterface hi | changeInterface hi | phi hi | load hi =>
    obtain ⟨_, heq⟩ := h _ hi rfl
    cases heq

/-- What may be the configurer must be it exactly if no value on the way back is mixed. -/
theorem mustBe_iff {x : Spot} (h : MayBe env configurer x) : MustBe env configurer x ↔
    ∀ y, ReflTransGen (MadeFrom env (whereReachable env)) x y → ¬ Mixed env configurer y := by
  constructor
  · intro hall y hy ⟨_, z, _, _, hz, hnot⟩
    exact hnot (hall z (hy.tail hz))
  · intro hpure y hy
    induction hy with
    | refl => exact h
    | @tail y z hxy hz ih =>
      obtain ⟨s, index, hindex, hway⟩ := ih
      by_contra hnot
      -- a value from which another one comes is not the configurer itself
      rcases hway.cases_head with rfl | ⟨w, hw, hrest⟩
      · exact not_madeFrom_param hz
      · exact hpure y hxy ⟨w, z, hw, ⟨s, index, hindex, hrest⟩, hz, hnot⟩

/-- A value made from what may be the configurer may be it too. -/
theorem MayBe.of_madeFrom {x y : Spot} (hy : MayBe env configurer y)
    (h : MadeFrom env anywhere x y) : MayBe env configurer x := by
  obtain ⟨s, index, hindex, hway⟩ := hy
  exact ⟨s, index, hindex, .head h hway⟩

/-- What a mark in the taint of a frame stands for: the value may be the configurer, or something is
stored to the local that may be it. -/
def Justifies (env : Environment) (configurer : Nat) (s : Visit × Place)
    (steps : List (Visit × Place)) : Mark → Prop
  | .value id => MayBe env configurer (s :: steps, .value id)
  | .holder id => (∃ d typeName, s.1.frame.function.definition id = some (.alloc d typeName)) ∧
      ∃ b value, .store (.value id) value ∈ s.1.frame.function.instructionsOf b ∧
        MayBe env configurer (s :: steps, value)

section Frame

variable {v : Visit} {p : Place} {steps : List (Visit × Place)}
  (hparams : ∀ index : UInt64, index.toNat ∈ v.params →
    MayBe env configurer ((v, p) :: steps, .param index))
include hparams

/-- With justified marks, what a taint has may be the configurer. -/
theorem mayBe_of_justified {t : Taint} (ht : t.params = v.params)
    (hmarks : ∀ m ∈ t.marks, Justifies env configurer (v, p) steps m) {o : Operand}
    (h : t.contains o) : MayBe env configurer ((v, p) :: steps, o) := by
  unfold Taint.contains at h
  cases o with
  | param index => exact hparams index (by simpa [ht] using h)
  | value id => exact hmarks (.value id) (by simpa using h)
  | const | global | function => cases h

/-- A mark that is derived from justified ones is justified. -/
theorem justifies_of_derived {t : Taint} (ht : t.params = v.params)
    (hmarks : ∀ m ∈ t.marks, Justifies env configurer (v, p) steps m) {i : Instruction}
    (hi : i ∈ v.frame.function.instructions) {m : Mark}
    (h : t.derived v.frame.function i = some m) : Justifies env configurer (v, p) steps m := by
  have hmay {o : Operand} (ho : t.contains o) : MayBe env configurer ((v, p) :: steps, o) :=
    mayBe_of_justified hparams ht hmarks ho
  unfold Taint.derived at h
  split at h
  · obtain ⟨hvalue, ⟨⟩⟩ := Option.ite_none_right_eq_some.mp h
    exact (hmay hvalue).of_madeFrom (.makeInterface hi)
  · obtain ⟨hvalue, ⟨⟩⟩ := Option.ite_none_right_eq_some.mp h
    exact (hmay hvalue).of_madeFrom (.changeInterface hi)
  · obtain ⟨hedges, ⟨⟩⟩ := Option.ite_none_right_eq_some.mp h
    obtain ⟨value, hvalue, hcontains⟩ := List.any_eq_true.mp hedges
    exact (hmay hcontains).of_madeFrom (.phi hi hvalue)
  · obtain ⟨hholder, ⟨⟩⟩ := Option.ite_none_right_eq_some.mp h
    obtain ⟨hlocal, b, value, hstore, hmaybe⟩ := hmarks _ (List.contains_iff_mem.mp hholder)
    exact hmaybe.of_madeFrom (.load hi hlocal trivial hstore)
  · obtain ⟨hvalue, hmark⟩ := Option.ite_none_right_eq_some.mp h
    obtain ⟨id, hid, rfl⟩ := Option.map_eq_some_iff.mp hmark
    obtain ⟨rfl, hlocal⟩ := Taint.localOf_eq_some_iff.mp hid
    obtain ⟨b, hstore⟩ := Program.Function.mem_instructions_iff.mp hi
    exact ⟨hlocal, b, _, hstore, hmay hvalue⟩
  · cases h

/-- Whatever the taint of a frame has may be the configurer. -/
theorem mayBe_of_contains {o : Operand} (h : v.taint.contains o) :
    MayBe env configurer ((v, p) :: steps, o) := by
  apply mayBe_of_justified hparams (Taint.params_ofParams _ _) _ h
  apply Taint.ofParams_induction
  intro t ht hmarks i hi m hm
  exact justifies_of_derived hparams ht hmarks hi hm

end Frame

/-- The steps of a chain up to a frame, the last first: it begins with a frame that receives the
configurer, and each further frame is that of a call that is followed. -/
inductive Trail (env : Environment) (configurer : Nat) : List (Visit × Place) → Prop
  | first {v : Visit} (p : Place) (h : v.params = [configurer]) : Trail env configurer [(v, p)]
  | next {t : Visit × Place} {steps : List (Visit × Place)} {w : Visit} (q : Place)
      (ht : Trail env configurer (t :: steps)) (h : t.1.Follows env t.2 w) :
      Trail env configurer ((w, q) :: t :: steps)

/-- A chain extends the steps up to its first frame by its own, and leads to a method call in the
last of its frames. -/
theorem Chain.trail {v : Visit} {steps : List (Visit × Place)} {frame : Frame} {method : String}
    {args : List Operand} (h : Chain env v steps frame method args) {outer : List (Visit × Place)}
    (houter : ∀ p, Trail env configurer ((v, p) :: outer)) :
    ∃ s rest, steps.reverse ++ outer = s :: rest ∧ Trail env configurer (s :: rest) ∧
      steps.getLast? = some s ∧ s.1.frame = frame ∧ s.1.Calls env s.2 method args := by
  induction h generalizing outer with
  | @call v p method args hcall => exact ⟨(v, p), outer, rfl, houter p, rfl, rfl, hcall⟩
  | @follow v w p steps frame method args hfollows hchain ih =>
    obtain ⟨s, rest, hsteps, htrail, hlast, hframe, hcall⟩ :=
      ih fun q ↦ (houter p).next q hfollows
    refine ⟨s, rest, ?_, htrail, ?_, hframe, hcall⟩
    · rw [List.reverse_cons, List.append_assoc]
      exact hsteps
    · rw [List.getLast?_cons, hlast]
      rfl

/-- What a followed call passes for a parameter that may be the configurer may be it. -/
theorem Visit.Follows.exists_arg {v w : Visit} {p : Place} (h : v.Follows env p w) {n : Nat}
    (hn : n ∈ w.params) : ∃ dest callee args value, v.Runs env p (.call dest callee args) ∧
      args[n]? = some value ∧ v.taint.contains value := by
  obtain ⟨dest, callee, args, f, hruns, -, -, -, -, -, -, rfl⟩ := h
  obtain ⟨value, hvalue, hcontains⟩ := Taint.mem_positions.mp hn
  exact ⟨dest, callee, args, value, hruns, hvalue, hcontains⟩

/-- On the way from the configurer, whatever the taint of a frame has may be the configurer. -/
theorem Trail.mayBe {s : Visit × Place} {rest : List (Visit × Place)}
    (h : Trail env configurer (s :: rest)) {o : Operand} (ho : s.1.taint.contains o) :
    MayBe env configurer (s :: rest, o) := by
  generalize hsteps : s :: rest = steps at h
  induction h generalizing s rest o with
  | @first v p hparams =>
    obtain ⟨rfl, rfl⟩ := List.cons.inj hsteps
    apply mayBe_of_contains _ ho
    intro index hindex
    rw [hparams] at hindex
    exact ⟨(v, p), index, List.mem_singleton.mp hindex, .refl⟩
  | @next t steps w q ht hfollows ih =>
    obtain ⟨rfl, rfl⟩ := List.cons.inj hsteps
    apply mayBe_of_contains _ ho
    intro index hindex
    obtain ⟨dest, callee, args, value, hruns, hvalue, hcontains⟩ := hfollows.exists_arg hindex
    exact (ih hcontains rfl).of_madeFrom (.param hruns hvalue)

/-- The instruction makes a value that may be the configurer also from an operand that may not. -/
def Taint.mixes (t : Taint) (f : Function) (g : FlowGraph) : Instruction → Bool
  | .makeInterface dest value _ | .changeInterface dest value =>
    t.contains (.value dest) && !t.contains value
  | .phi dest edges => t.contains (.value dest) && !edges.all t.contains
  | .load dest (.value addr) =>
    t.contains (.value dest) && !(storedTo f (some g) (.value addr)).all t.contains
  | _ => false

/-- Some instruction of the frame's function mixes the configurer with something else. -/
def Visit.mixes (env : Environment) (v : Visit) : Bool :=
  v.frame.function.instructions.any (v.taint.mixes v.frame.function (v.graph env))

/-- The value at a spot may be the configurer, and no frame on the way from there mixes that with
something else. -/
inductive Unmixed (env : Environment) (configurer : Nat) : Spot → Prop
  | intro {s : Visit × Place} {rest : List (Visit × Place)} {o : Operand}
      (trail : Trail env configurer (s :: rest)) (plain : ∀ u ∈ s :: rest, u.1.mixes env = false)
      (tainted : s.1.taint.contains o) : Unmixed env configurer (s :: rest, o)

/-- An unmixed value is made from nothing but unmixed values. -/
theorem Unmixed.of_madeFrom {x y : Spot} (hx : Unmixed env configurer x)
    (hy : MadeFrom env (whereReachable env) x y) : Unmixed env configurer y := by
  obtain @⟨s, rest, o, htrail, hplain, ho⟩ := hx
  have hnot {i : Instruction} (hi : i ∈ s.1.frame.function.instructions) :
      s.1.taint.mixes s.1.frame.function (s.1.graph env) i = false :=
    Bool.not_eq_true _ ▸ List.any_eq_false.mp (hplain s List.mem_cons_self) i hi
  cases hy with
  | makeInterface hi | changeInterface hi =>
    exact ⟨htrail, hplain, by simpa [Taint.mixes, ho] using hnot hi⟩
  | @phi _ _ dest edges value hi hvalue =>
    have hedges : ∀ e ∈ edges, s.1.taint.contains e := by simpa [Taint.mixes, ho] using hnot hi
    exact ⟨htrail, hplain, hedges value hvalue⟩
  | @load _ _ dest addr b value hi hlocal hcounts hstore =>
    have hstored : ∀ e ∈ storedTo s.1.frame.function (some (s.1.graph env)) (.value addr),
        s.1.taint.contains e := by
      simpa [Taint.mixes, ho] using hnot hi
    exact ⟨htrail, hplain, hstored value (mem_storedTo_iff.mpr ⟨b, hcounts, hstore⟩)⟩
  | @param _ t rest dest callee args index value hruns hvalue =>
    cases htrail with
    | @next _ _ w q ht hfollows =>
      have hindex : index.toNat ∈ w.taint.params := List.contains_iff_mem.mp ho
      rw [Visit.taint, Taint.params_ofParams] at hindex
      obtain ⟨_, _, _, value', hruns', hvalue', hcontains⟩ := hfollows.exists_arg hindex
      cases hruns.unique hruns'
      cases hvalue.symm.trans hvalue'
      exact ⟨ht, fun u hu ↦ hplain u (List.mem_cons_of_mem _ hu), hcontains⟩

/-- An unmixed value must be the configurer. -/
theorem Unmixed.mustBe {x : Spot} (h : Unmixed env configurer x) : MustBe env configurer x := by
  intro y hy
  have hunmixed : Unmixed env configurer y := by
    induction hy with
    | refl => exact h
    | tail _ hz ih => exact ih.of_madeFrom hz
  obtain ⟨htrail, -, ho⟩ := hunmixed
  exact htrail.mayBe ho

/-- A call that a chain leads to is not speculative exactly if every block on the way is in every
run. -/
theorem speculative_doubtAlong {steps : List (Visit × Place)} :
    (doubtAlong env steps).speculative = false ↔
      ∀ s ∈ steps, (s.1.graph env).isUnconditional s.2.block := by
  unfold doubtAlong doubtOf
  rw [← List.all_eq_true]
  cases steps.all fun s ↦ (s.1.graph env).isUnconditional s.2.block
  · decide
  · decide

/-- Each call on a configurer that is found has a chain that leads to it, and is not speculative
exactly if every block on the way is in every run. Its receiver comes from the configurer in some
way. It does so in every way exactly if nowhere on the way back a value may come from the configurer
or from something else, and so if no instruction on the way mixes the two. -/
theorem configurerCalls_certain (env : Environment) (stack : List String) (frame : Frame)
    (configurer : Nat) (m : Memo) :
    ∃ chains, List.Forall₂ (fun steps c ↦
        Chain env ⟨frame.name :: stack, frame, [configurer], m⟩ steps c.frame c.method c.args ∧
        (c.fidelity.speculative = false ↔
          ∀ s ∈ steps, (s.1.graph env).isUnconditional s.2.block) ∧
        ∃ s dest receiver, steps.getLast? = some s ∧ s.1.frame = c.frame ∧
          s.1.Runs env s.2 (.call dest (.invoke receiver c.method) c.args) ∧
          MayBe env configurer (steps.reverse, receiver) ∧
          (MustBe env configurer (steps.reverse, receiver) ↔
            ∀ x, ReflTransGen (MadeFrom env (whereReachable env)) (steps.reverse, receiver) x →
              ¬ Mixed env configurer x) ∧
          ((∀ s ∈ steps, s.1.mixes env = false) → MustBe env configurer (steps.reverse, receiver)))
      chains (Query.configurerCalls env stack frame configurer m).1.calls := by
  unfold Query.configurerCalls findConfigurerCalls
  by_cases henter : env.MayEnter stack frame.name
  · rw [if_pos henter]
    let v : Visit := ⟨frame.name :: stack, frame, [configurer], m⟩
    refine ⟨v.chains env, (Visit.forall₂_chains (v := v)).imp ?_⟩
    intro steps c ⟨hchain, hfidelity⟩
    have hfirst : ∀ p, Trail env configurer [(v, p)] := fun p ↦ .first p rfl
    obtain ⟨s, rest, hsteps, htrail, hlast, hframe, dest, receiver, hruns, hcontains⟩ :=
      hchain.trail hfirst
    rw [List.append_nil] at hsteps
    have hmaybe := htrail.mayBe hcontains
    refine ⟨hchain, ?_, s, dest, receiver, hlast, hframe, hruns, ?_⟩
    · rw [hfidelity, speculative_doubtAlong]
    · rw [hsteps]
      refine ⟨hmaybe, mustBe_iff hmaybe, fun hmixes ↦ ?_⟩
      have hplain : ∀ u ∈ s :: rest, u.1.mixes env = false := by
        intro u hu
        rw [← hsteps, List.mem_reverse] at hu
        exact hmixes u hu
      exact Unmixed.mustBe ⟨htrail, hplain, hcontains⟩
  · rw [if_neg henter]
    exact ⟨[], .nil⟩

namespace Keeping

/-- A function that disables what it is given. -/
def disable : Function := ⟨"disable", [],
  [⟨[.makeInterface ⟨0⟩ (.param 0) "Configurer", .call none (.invoke (.value ⟨0⟩) "Disable") []],
    .ret []⟩]⟩

/-- A function that keeps what it is given in a local, and passes it on from there. -/
def keep : Function := ⟨"keep", [],
  [⟨[.alloc ⟨0⟩ "Configurer", .store (.value ⟨0⟩) (.param 0), .load ⟨1⟩ (.value ⟨0⟩),
     .call none (.static "disable" []) [.value ⟨1⟩]], .ret []⟩]⟩

/-- A function that calls a method on what it is given or on something else, as it may be. -/
def choose : Function := ⟨"choose", [],
  [⟨[.opaqueValue ⟨0⟩ "flag"], .branch (.value ⟨0⟩) 1 2⟩,
   ⟨[], .jump 3⟩,
   ⟨[.opaqueValue ⟨1⟩ "other"], .jump 3⟩,
   ⟨[.phi ⟨2⟩ [.param 0, .value ⟨1⟩], .call none (.invoke (.value ⟨2⟩) "Disable") []], .ret []⟩]⟩

/-- The program of these functions. -/
def program : Environment where
  program := .ofLists [] [choose, disable, keep] []

/-- The step in which the method is called on one of two values. -/
def choosing : Visit × Place := (.first ⟨choose, []⟩ 0 {}, ⟨3, 1⟩)

end Keeping

open Keeping in
/-- The call on what comes from the local by way of the other function is certain, and its receiver
must be the configurer. -/
theorem configurerCalls_certain_keep : ∃ c steps s dest receiver,
    (Query.configurerCalls program [] ⟨keep, []⟩ 0 {}).1.calls = [c] ∧
    Chain program (.first ⟨keep, []⟩ 0 {}) steps c.frame c.method c.args ∧
    c.fidelity.speculative = false ∧ steps.getLast? = some s ∧
    s.1.Runs program s.2 (.call dest (.invoke receiver c.method) c.args) ∧
    MustBe program 0 (steps.reverse, receiver) := by
  have hcalls : (Query.configurerCalls program [] ⟨keep, []⟩ 0 {}).1.calls.map
      (fun c ↦ c.fidelity.speculative) = [false] := by
    decide +kernel
  have hmixes : ∀ steps ∈ Visit.chains program (.first ⟨keep, []⟩ 0 {}),
      ∀ s ∈ steps, s.1.mixes program = false := by
    decide +kernel
  obtain ⟨c, hc, hcertain⟩ := List.map_eq_singleton_iff.mp hcalls
  obtain ⟨chains, hall⟩ := configurerCalls_certain program [] ⟨keep, []⟩ 0 {}
  rw [hc] at hall
  obtain ⟨steps, _, ⟨hchain, -, s, dest, receiver, hlast, -, hruns, -, -, hmust⟩, -, -⟩ :=
    List.forall₂_cons_right_iff.mp hall
  have hsteps := Visit.mem_chains_iff_chain.mpr ⟨_, _, _, hchain⟩
  exact ⟨c, steps, s, dest, receiver, hc, hchain, hcertain, hlast, hruns,
    hmust (hmixes steps hsteps)⟩

open Keeping in
/-- The call on one of two values is certain too, though its receiver need not be the configurer. -/
theorem configurerCalls_choose_ne :
    (Query.configurerCalls program [] ⟨choose, []⟩ 0 {}).1.calls.map
      (fun c ↦ (c.method, c.fidelity)) = [("Disable", .immaculate)] ∧
    Chain program choosing.1 [choosing] ⟨choose, []⟩ "Disable" [] ∧
    choosing.1.Runs program choosing.2 (.call none (.invoke (.value ⟨2⟩) "Disable") []) ∧
    ¬ MustBe program 0 ([choosing], .value ⟨2⟩) := by
  have hruns : choosing.1.Runs program choosing.2
      (.call none (.invoke (.value ⟨2⟩) "Disable") []) :=
    ⟨by decide +kernel, _, rfl, rfl⟩
  have hcontains : choosing.1.taint.contains (.value ⟨2⟩) := by decide +kernel
  refine ⟨by decide +kernel, .call ⟨none, .value ⟨2⟩, hruns, hcontains⟩, hruns, ?_⟩
  intro hmust
  have hphi : .phi ⟨2⟩ [.param 0, .value ⟨1⟩] ∈ choose.instructions := by decide
  have hother : .value ⟨1⟩ ∈ [Operand.param 0, .value ⟨1⟩] := by decide
  obtain ⟨s, index, -, hway⟩ := hmust _ (.single (.phi hphi hother))
  have hopaque : ∀ i ∈ choose.instructions, i.dest = some ⟨1⟩ →
      ∃ description, i = .opaqueValue ⟨1⟩ description := by
    intro i hi hdest
    refine ⟨"other", ?_⟩
    revert i
    decide
  rcases hway.cases_head with heq | ⟨y, hy, -⟩
  · cases heq
  · exact not_madeFrom_opaque hopaque hy

end Wiring.Analysis
