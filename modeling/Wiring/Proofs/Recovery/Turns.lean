import Wiring.Analysis.Recovery

/-!
# Calls in their turns

The calls that a `Configure` method makes on its configurer are taken one after another, and what is
remembered when a call's turn comes may bear on what the call is found to say.
-/

namespace Wiring.Analysis

open Wiring.Config (Entity Identity)
open Wiring.Program (Function)

namespace Memoized

/-- The items of a list, each with what is remembered when its turn comes. -/
def turns {α β : Type} (f : α → Memoized β) : List α → Memo → List (α × Memo)
  | [], _ => []
  | a :: rest, m => (a, m) :: turns f rest (f a m).2

variable {α β : Type} (f : α → Memoized β)

/-- Every item has its turn, in order. -/
theorem map_fst_turns (l : List α) (m : Memo) : (turns f l m).map Prod.fst = l := by
  induction l generalizing m with
  | nil => rfl
  | cons a l ih => rw [turns, List.map_cons, ih]

/-- A computation for each item gives what the item gives in its turn. -/
theorem mapM_fst (l : List α) (m : Memo) :
    (l.mapM f m).1 = (turns f l m).map fun t ↦ (f t.1 t.2).1 := by
  induction l generalizing m with
  | nil => rw [List.mapM_nil]; rfl
  | cons a l ih =>
    rw [List.mapM_cons, turns, List.map_cons, ← ih]
    rfl

/-- Turning the answers of a computation into something else leaves the turns alone. -/
theorem turns_map {γ : Type} (g : β → γ) (l : List α) (m : Memo) :
    turns (fun a ↦ g <$> f a) l m = turns f l m := by
  induction l generalizing m with
  | nil => rfl
  | cons a l ih =>
    rw [turns, turns, ih]
    rfl

end Memoized

/-- A call on a configurer, with what is remembered when its turn comes. -/
abbrev Turn := ConfigurerCall × Memo

/-- The calls that give identities. -/
def identityTurns (turns : List Turn) : List Turn := turns.filter fun t ↦ t.1.method = "Identity"

/-- The doubt about an entity to which some call says what it cannot tell. -/
def unheard (turns : List Turn) (test : ConfigurerCall → Bool) : Fidelity :=
  if turns.any fun t ↦ test t.1 then .onlyIncomplete else .immaculate

theorem unheard_append (test : ConfigurerCall → Bool) (ts us : List Turn) :
    unheard (ts ++ us) test = max (unheard ts test) (unheard us test) := by
  unfold unheard
  rw [List.any_append]
  cases ts.any fun t ↦ test t.1 <;> cases us.any fun t ↦ test t.1 <;> rfl

/-- If a draft can be told what a call says, it can be told what any calls say, in their turns. -/
theorem foldlM_flatMap_turns {σ δ ε : Type} {apply : δ → σ → Except ε δ} {steps : Turn → List σ}
    {hear : List Turn → δ → δ} (hnil : ∀ d, hear [] d = d)
    (happend : ∀ d ts us, hear (ts ++ us) d = hear us (hear ts d))
    (hstep : ∀ d t, (steps t).foldlM apply d = .ok (hear [t] d)) (d : δ) (ts : List Turn) :
    (ts.flatMap steps).foldlM apply d = .ok (hear ts d) := by
  induction ts generalizing d with
  | nil => rw [hnil]; rfl
  | cons t ts ih =>
    rw [List.flatMap_cons, List.foldlM_append, hstep]
    refine (ih _).trans ?_
    rw [← happend, List.singleton_append]

/-- The function that configures a type, if it can be followed: it has a body and takes a
configurer. -/
def Environment.configure? (env : Environment) (typeName : String) : Option Function :=
  (env.program.method? typeName "Configure").filter fun f ↦
    !(f.isExternal || f.params.length ≤ configurerPosition)

/-- The calls that a function makes on the configurer that it takes. -/
def configuration (env : Environment) (f : Function) : Memoized ConfigurerCalls :=
  Query.configurerCalls env [] { function := f } configurerPosition

/-- The calls that a function makes on its configurer, each with what is remembered when its turn
comes. -/
def configurationTurns {σ : Type} (env : Environment) (steps : ConfigurerCall → Memoized (List σ))
    (f : Function) (m : Memo) : List Turn :=
  Memoized.turns steps (configuration env f m).1.calls (configuration env f m).2

section Configure

variable {σ : Type} {env : Environment} {typeName : String} {updateFidelity : Fidelity → σ}
  {steps : ConfigurerCall → Memoized (List σ)} {m : Memo}

/-- A type without a function that configures it is incomplete. -/
theorem configureSteps_of_none (h : env.configure? typeName = none) :
    configureSteps env typeName updateFidelity steps = pure [updateFidelity .onlyIncomplete] := by
  unfold Environment.configure? at h
  unfold configureSteps
  cases hf : env.program.method? typeName "Configure" with
  | none => rfl
  | some f =>
    rw [hf] at h
    simp only [Option.filter_eq_none_iff, Option.some.injEq, forall_eq'] at h
    simp only [Bool.not_eq_true', Bool.not_eq_false, Bool.or_eq_true, decide_eq_true_eq] at h ⊢
    rw [if_pos h]

/-- The function that configures a type gives the steps of its calls. -/
theorem configureSteps_of_some {f : Function} (h : env.configure? typeName = some f) :
    configureSteps env typeName updateFidelity steps = do
      let found ← configuration env f
      return updateFidelity found.fidelity :: (← found.calls.mapM steps).flatten := by
  unfold Environment.configure? at h
  obtain ⟨hf, htest⟩ := Option.filter_eq_some_iff.mp h
  simp only [Bool.not_eq_true', Bool.or_eq_false_iff, decide_eq_false_iff_not] at htest
  unfold configureSteps
  rw [hf]
  exact if_neg (by simpa using htest)

/-- The steps come in the turns of the calls. -/
theorem configureSteps_fst {f : Function} (h : env.configure? typeName = some f) :
    (configureSteps env typeName updateFidelity steps m).1 =
      updateFidelity (configuration env f m).1.fidelity ::
        (configurationTurns env steps f m).flatMap fun t ↦ (steps t.1 t.2).1 := by
  rw [configureSteps_of_some h]
  have hsteps := Memoized.mapM_fst steps (configuration env f m).1.calls (configuration env f m).2
  exact congrArg (updateFidelity (configuration env f m).1.fidelity :: ·.flatten) hsteps

end Configure

/-- An entity that has a type, or is incomplete, is complete. -/
theorem completeEntity_eq {kind : String} {e : Entity}
    (h : e.fidelity.incomplete ∨ e.typeName.isSome) : Draft.completeEntity kind e =
      .ok { e with fidelity := max e.fidelity (.unions (e.identities.map Identity.fidelity)) } := by
  unfold Draft.completeEntity
  rcases h with h | h
  · simp [h]
  · simp [h, Option.isNone_eq_false_iff.mpr]

end Wiring.Analysis
