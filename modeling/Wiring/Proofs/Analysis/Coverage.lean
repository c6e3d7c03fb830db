import Wiring.Proofs.Analysis.Derivation
import Wiring.Proofs.Analysis.History
import Wiring.Proofs.Analysis.Marks
import Wiring.Analysis.Query

/-!
# What a list of calls covers

When the calls on a configurer are reported as complete, they cover the frame: its flow graph and
the arguments that are known of the calls it makes have derivations, and whatever a reachable
instruction does with the configurer is either reported or leads to another frame that is covered.
-/

namespace Wiring.Analysis

open Wiring.Program (Operand Callee Function)

/-- The frame of a call to which the configurer is handed over. -/
structure Callees (env : Environment) (frame : Frame) (h : Handover) (f : Function)
    (bound : List (Option StaticValue)) : Prop where
  followed : env.followed h.callee = some f
  length : bound.length = h.args.length
  unknown : ∀ i ∈ h.positions, ∀ w, bound[i]? ≠ some (some w)
  derivable : ∀ (i : Nat) o w, h.args[i]? = some o → bound[i]? = some (some w) →
    Derivable env (.value frame o w)

/-- The calls cover whatever the frame's function does with the configurer, if that is passed to
some of its parameters: each method call on it is among them, with the place that it is made at. -/
inductive Covered (env : Environment) (calls : List (ConfigurerCall × Place)) :
    Frame → List Nat → Prop
  | intro {frame : Frame} {params : List Nat} {g : FlowGraph} {f : Handover → Function}
      {bound : Handover → List (Option StaticValue)}
      (hg : Derivable env (.graph frame g))
      (hescapes : (Taint.ofParams frame.function params).escapes frame.function = false)
      (hcall : ∀ place method args always, (place, .call method args, always) ∈
        (Taint.ofParams frame.function params).placed frame.function g →
          ∃ c, (c, place) ∈ calls ∧ c.method = method ∧ c.args = args ∧ c.frame = frame)
      (hcallees : ∀ place h always, (place, .handover h, always) ∈
        (Taint.ofParams frame.function params).placed frame.function g →
          Callees env frame h (f h) (bound h))
      (hcovered : ∀ place h always, (place, .handover h, always) ∈
        (Taint.ofParams frame.function params).placed frame.function g →
          Covered env calls ⟨f h, bound h⟩ h.positions) :
      Covered env calls frame params

/-- The calls cover an encounter at a place. -/
def CoversEncounter (env : Environment) (frame : Frame) (place : Place)
    (calls : List (ConfigurerCall × Place)) : Encounter → Prop
  | .call method args =>
    ∃ c, (c, place) ∈ calls ∧ c.method = method ∧ c.args = args ∧ c.frame = frame
  | .handover h => ∃ f bound, Callees env frame h f bound ∧
      Covered env calls ⟨f, bound⟩ h.positions

variable {env : Environment} {calls : List (ConfigurerCall × Place)} {frame : Frame}
  {params : List Nat}

/-- A frame is covered if its encounters are. -/
theorem Covered.of_encounters {g : FlowGraph} (hg : Derivable env (.graph frame g))
    (hescapes : (Taint.ofParams frame.function params).escapes frame.function = false)
    (h : ∀ p ∈ (Taint.ofParams frame.function params).placed frame.function g,
      CoversEncounter env frame p.1 calls p.2.1) : Covered env calls frame params := by
  have hhandover : ∀ h' : Handover, ∃ f bound, (∃ place always, (place, .handover h', always) ∈
      (Taint.ofParams frame.function params).placed frame.function g) →
        Callees env frame h' f bound ∧ Covered env calls ⟨f, bound⟩ h'.positions := by
    intro h'
    by_cases hmem : ∃ place always, (place, .handover h', always) ∈
        (Taint.ofParams frame.function params).placed frame.function g
    · obtain ⟨place, always, hmem⟩ := hmem
      obtain ⟨f, bound, hf⟩ := h _ hmem
      exact ⟨f, bound, fun _ ↦ hf⟩
    · exact ⟨frame.function, [], fun hmem' ↦ absurd hmem' hmem⟩
  choose f bound hf using hhandover
  exact .intro hg hescapes (fun _ _ _ _ hmem ↦ h _ hmem)
    (fun place h' always hmem ↦ (hf h' ⟨place, always, hmem⟩).1)
    fun place h' always hmem ↦ (hf h' ⟨place, always, hmem⟩).2

/-- Unless others are reported missing, the calls are at places such that they have the property,
also together with more calls. -/
def ConfigurerCalls.Complete (r : ConfigurerCalls)
    (P : List (ConfigurerCall × Place) → Prop) : Prop :=
  r.fidelity.incomplete = false → ∃ places : List Place, places.length = r.calls.length ∧
    ∀ calls, r.calls.zip places ⊆ calls → P calls

namespace ConfigurerCalls.Complete

variable {P Q : List (ConfigurerCall × Place) → Prop}

/-- A property may be weakened. -/
theorem mono {r : ConfigurerCalls} (h : r.Complete P) (hPQ : ∀ calls, P calls → Q calls) :
    r.Complete Q := by
  intro hcomplete
  obtain ⟨places, hlen, hP⟩ := h hcomplete
  exact ⟨places, hlen, fun calls hcalls ↦ hPQ calls (hP calls hcalls)⟩

/-- Of unknown calls nothing is said. -/
theorem unknown : ConfigurerCalls.unknown.Complete P := by
  intro h
  simp [ConfigurerCalls.unknown, Fidelity.onlyIncomplete] at h

/-- Each part of the calls keeps its places. -/
theorem append {r₁ r₂ : ConfigurerCalls} (h₁ : r₁.Complete P) (h₂ : r₂.Complete Q) :
    (r₁ ++ r₂).Complete fun calls ↦ P calls ∧ Q calls := by
  have happend : r₁ ++ r₂ = ⟨r₁.calls ++ r₂.calls, max r₁.fidelity r₂.fidelity⟩ := rfl
  intro hcomplete
  rw [happend, Fidelity.incomplete_max, Bool.or_eq_false_iff] at hcomplete
  obtain ⟨places₁, hlen₁, hP⟩ := h₁ hcomplete.1
  obtain ⟨places₂, hlen₂, hQ⟩ := h₂ hcomplete.2
  rw [happend]
  refine ⟨places₁ ++ places₂, by simp [hlen₁, hlen₂], fun calls hcalls ↦ ?_⟩
  rw [List.zip_append hlen₁.symm, List.append_subset] at hcalls
  exact ⟨hP calls hcalls.1, hQ calls hcalls.2⟩

/-- All parts together have the properties of all. -/
theorem concat {α : Type} {P : α → List (ConfigurerCall × Place) → Prop} {l : List α}
    {found : List ConfigurerCalls} (h : List.Forall₂ (fun x r ↦ r.Complete (P x)) l found) :
    (ConfigurerCalls.concat found).Complete fun calls ↦ ∀ x ∈ l, P x calls := by
  induction h with
  | nil => exact fun _ ↦ ⟨[], rfl, fun _ _ x hx ↦ by simp at hx⟩
  | cons hr _ ih => exact (hr.append ih).mono fun calls hcalls ↦ List.forall_mem_cons.mpr hcalls

end ConfigurerCalls.Complete

/-- The arguments known of a call to which the configurer is handed over have derivations. -/
theorem boundArgs_concludes {resolve : Resolver Memoized} {h : Handover} {f : Function}
    (hresolve : ∀ o, Concludes env (Derives env (.value frame o)) (resolve o))
    (hf : env.followed h.callee = some f) :
    Concludes env (Callees env frame h f) (boundArgs resolve h) := by
  have hall : Concludes env (List.Forall₂ (fun (p : Operand × Nat) r ↦
      (p.2 ∈ h.positions → r = none) ∧ Derives env (.value frame p.1) r) h.args.zipIdx)
      (boundArgs resolve h) := by
    refine Yields.mapM fun p _ ↦ ?_
    obtain ⟨o, i⟩ := p
    dsimp only
    split
    · exact .pure ⟨fun _ ↦ rfl, derives_none _ _⟩
    · next hi => exact (hresolve o).mono fun r hr ↦ ⟨fun hi' ↦ absurd hi' hi, hr⟩
  refine hall.mono fun bound hbound ↦ ?_
  have hlen : bound.length = h.args.length := by
    rw [← hbound.length_eq, List.length_zipIdx]
  have hget : ∀ (i : Nat) r, bound[i]? = some r → ∃ o, h.args[i]? = some o ∧
      (i ∈ h.positions → r = none) ∧ Derives env (.value frame o) r := by
    intro i r hr
    obtain ⟨hlt, rfl⟩ := List.getElem?_eq_some_iff.mp hr
    have hat := hbound.get (hbound.length_eq ▸ hlt) hlt
    simp only [List.get_eq_getElem, List.getElem_zipIdx, Nat.zero_add] at hat
    exact ⟨_, List.getElem?_eq_getElem (hlen ▸ hlt), hat⟩
  refine ⟨hf, hlen, fun i hi w hw ↦ ?_, fun i o w ho hw ↦ ?_⟩
  · obtain ⟨-, -, hnone, -⟩ := hget i _ hw
    simp at hnone
    exact hnone hi
  · obtain ⟨o', ho', -, hder⟩ := hget i _ hw
    obtain rfl := Option.some.inj (ho.symm.trans ho')
    exact hder w rfl

/-- If every encounter is covered by what is reported of it, the frame is. -/
theorem ConfigurerCalls.Complete.covered {g : FlowGraph} {found : List ConfigurerCalls} {lost : ConfigurerCalls}
    (hg : Derivable env (.graph frame g))
    (hlost : lost = if (Taint.ofParams frame.function params).escapes frame.function then .unknown
      else .none)
    (hfound : List.Forall₂ (fun e r ↦ ∀ place, r.Complete fun calls ↦
        CoversEncounter env frame place calls e.1)
      ((Taint.ofParams frame.function params).encounters frame.function g) found) :
    (lost ++ .concat found).Complete fun calls ↦ Covered env calls frame params := by
  have hkept : lost.Complete fun _ ↦
      (Taint.ofParams frame.function params).escapes frame.function = false := by
    rw [hlost]
    split
    · exact .unknown
    · next hescapes => exact fun _ ↦ ⟨[], rfl, fun _ _ ↦ by simpa using hescapes⟩
  rw [← Taint.map_snd_placed, List.forall₂_map_left_iff] at hfound
  have hplaced := hfound.imp fun p r hr ↦ hr p.1
  exact (hkept.append (.concat hplaced)).mono fun calls hcalls ↦
    .of_encounters hg hcalls.1 hcalls.2

/-- A walk through a frame leaves nothing uncovered, if it reports nothing missing. -/
theorem walk_concludes (stack : List String) (hframe : env.Has frame) (inherited : Fidelity) :
    Concludes env (·.Complete fun calls ↦ Covered env calls frame params)
      (walk env stack frame params inherited) := by
  induction hn : (env.remaining stack).length using Nat.strongRecOn
    generalizing stack frame params inherited with
  | ind n ih =>
    rw [walk]
    refine Yields.bind (flowOf_concludes hframe fun callee hc index ↦
      resultOf_concludes env stack _ callee hc index) fun g hg ↦ ?_
    refine Yields.bind (Yields.mapM (S := fun e r ↦ ∀ place, r.Complete fun calls ↦
      CoversEncounter env frame place calls e.1) fun p _ ↦ ?_)
        fun found hfound ↦ .pure (.covered hg rfl hfound)
    obtain ⟨encounter, always⟩ := p
    unfold pursue
    dsimp only
    split
    · exact .pure fun place _ ↦ ⟨[place], rfl, fun calls hcalls ↦
        ⟨_, hcalls (List.mem_singleton_self _), rfl, rfl, rfl⟩⟩
    · next h =>
      split
      · exact .pure fun _ ↦ .unknown
      · next f hf =>
        split
        · next henter =>
          refine Yields.bind (boundArgs_concludes (fun o ↦ resolveIn_concludes hframe
            (fun building callee hc index ↦ resultOf_concludes env _ building callee hc index) o) hf)
              fun bound hbound ↦ ?_
          exact (ih _ (hn ▸ Environment.remaining_lt henter) _
            (Environment.has_of_followed hf bound) _ rfl).mono fun r hr place ↦
              hr.mono fun calls hcalls ↦ ⟨f, bound, hbound, hcalls⟩
        · exact Concludes.cutOff fun _ ↦ .unknown

/-- The calls on a configurer that are found cover the frame, if none is reported missing. -/
theorem findConfigurerCalls_concludes (stack : List String) (hframe : env.Has frame)
    (configurer : Nat) : Concludes env (·.Complete fun calls ↦ Covered env calls frame [configurer])
      (findConfigurerCalls env stack frame configurer) := by
  unfold findConfigurerCalls
  split
  · exact walk_concludes _ hframe _
  · exact Concludes.cutOff .unknown

/-- What an operand is resolved to has a derivation. -/
theorem resolve_concludes (stack : List String) (hframe : env.Has frame) (o : Operand) :
    Concludes env (Derives env (.value frame o)) (Query.resolve env stack frame o) :=
  resolveIn_concludes hframe (fun building callee hc index ↦
    resultOf_concludes env stack building callee hc index) o

/-- The flow graph of a frame has a derivation. -/
theorem flow_concludes (stack : List String) (hframe : env.Has frame) :
    Concludes env (fun g ↦ Derivable env (.graph frame g)) (Query.flow env stack frame) :=
  flowOf_concludes hframe fun callee hc index ↦ resultOf_concludes env stack _ callee hc index

/-- Every question keeps everything remembered derivable. -/
theorem ask_concludes {q : Question} (hframe : env.Has q.frame) :
    Concludes env (fun _ ↦ True) (q.ask env) := by
  cases q with
  | resolve frame o => exact (resolve_concludes [] hframe o).mono fun _ _ ↦ trivial
  | resolveBool frame o =>
    exact Yields.bind (resolve_concludes [] hframe o) fun _ _ ↦ .pure trivial
  | resolveString frame o =>
    exact Yields.bind (resolve_concludes [] hframe o) fun _ _ ↦ .pure trivial
  | concreteType frame o =>
    exact Yields.bind (resolve_concludes [] hframe o) fun _ _ ↦ .pure trivial
  | flow frame => exact (flow_concludes [] hframe).mono fun _ _ ↦ trivial
  | configurerCalls frame configurer =>
    exact (findConfigurerCalls_concludes [] hframe configurer).mono fun _ _ ↦ trivial

/-- Whatever questions have been asked, everything remembered has a derivation. -/
theorem justified_rememberedAfter {history : List Question}
    (hframes : ∀ q ∈ history, env.Has q.frame) : (rememberedAfter env history).Justified env := by
  have hfoldl : ∀ m : Memo, m.Justified env →
      (history.foldl (fun m q ↦ (q.ask env m).2) m).Justified env := by
    induction history with
    | nil => exact fun m hm ↦ hm
    | cons q history ih =>
      intro m hm
      exact ih (fun r hr ↦ hframes r (List.mem_cons_of_mem _ hr)) _
        (ask_concludes (hframes q (by simp)) m hm).2
  refine hfoldl {} fun e he ↦ ?_
  cases e <;> simp [Memo.Holds] at he

end Wiring.Analysis
