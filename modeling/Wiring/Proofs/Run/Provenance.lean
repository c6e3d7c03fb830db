import Wiring.Proofs.Run.Invariant

/-!
# Where values come from

Every value that an activation has was defined by an instruction at an earlier moment of the run, and
whatever a local holds was stored to it at an earlier moment, both by an activation of the same
function with the same arguments.
-/

namespace Wiring.Run

open Wiring.Program (Constant ValueId Operand Callee Instruction Terminator Function Block)
open Wiring.Analysis (Environment)

/-- At some moment of the run, an activation of the function with these arguments was the
innermost. -/
structure Moment (env : Environment) (P : State → Prop) (s₀ : State) (f : Function)
    (args : List Value) where
  activation : Activation
  rest : List Activation
  memory : Memory
  runs : Runs env P s₀ ⟨activation :: rest, memory⟩
  holds : P ⟨activation :: rest, memory⟩
  function : activation.function = f
  args : activation.args = args

/-- The instruction gave these results: by itself, or when the call that it is ended. -/
inductive Produced (env : Environment) (P : State → Prop) (s₀ : State) (f : Function)
    (args : List Value) : Instruction → List Value → Prop
  | perform {i : Instruction} {results : List Value} {m : Memory} (t : Moment env P s₀ f args)
      (hi : t.activation.instruction? = some i)
      (h : t.activation.Performs env t.memory i results m) : Produced env P s₀ f args i results
  | ret {dest : Option ValueId} {callee : Callee} {operands returned : List Operand}
      {results : List Value} {a b : Activation} {rest : List Activation} {m : Memory}
      (hr : Runs env P s₀ ⟨b :: a :: rest, m⟩) (hf : a.function = f) (ha : a.args = args)
      (hcallee : env.followed callee = some b.function)
      (hargs : a.operands operands = some b.args) (ht : b.terminator? = some (.ret returned))
      (hs : b.operands returned = some results) :
      Produced env P s₀ f args (.call dest callee operands) results

/-- The value was stored to the local of that name. -/
def Stored (env : Environment) (P : State → Prop) (s₀ : State) (f : Function) (args : List Value)
    (id : ValueId) (v : Value) : Prop :=
  ∃ t : Moment env P s₀ f args, ∃ o, t.activation.instruction? = some (.store (.value id) o) ∧
    t.activation.operand o = some v

variable {env : Environment} {P : State → Prop} {s₀ s s' : State} {a : Activation} {m m' : Memory}

/-- The definition of a value has given the results that the activation has of it. -/
def Accounted (env : Environment) (P : State → Prop) (s₀ : State) (a : Activation) : Prop :=
  ∀ id results, a.values id = some results →
    ∃ i, a.function.definition id = some i ∧ Produced env P s₀ a.function a.args i results

/-- Where an instruction has just given results, they are accounted for like those before. -/
theorem Accounted.define {i : Instruction} {results : List Value} (h : Accounted env P s₀ a)
    (hssa : a.function.definedValues.Nodup) (hi : a.instruction? = some i)
    (hnew : Produced env P s₀ a.function a.args i results) :
    Accounted env P s₀ (a.define i.dest results) := by
  intro id rs hid
  rw [Activation.values_define] at hid
  by_cases hd : i.dest = some id
  · rw [if_pos hd] at hid
    obtain rfl := Option.some.inj hid
    exact ⟨i, Function.definition_eq hssa (Activation.mem_instructions (a := a) hi) hd, hnew⟩
  · rw [if_neg hd] at hid
    exact h id rs hid

/-- A step leaves everything accounted for. -/
theorem accounted_step (hssa : SingleAssignment env) (hinv : Invariant env s)
    (hr : Runs env P s₀ s) (hp : P s) (hs : Step env s s')
    (h : ∀ a ∈ s.stack, Accounted env P s₀ a) : ∀ a ∈ s'.stack, Accounted env P s₀ a := by
  cases hs with
  | @perform a rest m m' i vs hi hperform =>
    intro b hb
    rcases List.mem_cons.mp hb with rfl | hb
    · exact (h a (by simp)).define (hssa _ _ (hinv.function a (by simp))) hi
        (.perform ⟨a, rest, m, hr, hp, rfl, rfl⟩ hi hperform)
    · exact h b (by simp [hb])
  | @enter a rest m dest callee args f vs hi hf hops =>
    intro b hb
    rcases List.mem_cons.mp hb with rfl | hb
    · intro id results hid
      simp at hid
    · exact h b hb
  | @goto a rest m target ht hlt =>
    intro b hb
    rcases List.mem_cons.mp hb with rfl | hb
    · exact h a (by simp)
    · exact h b (by simp [hb])
  | @ret a b rest m operands vs i ht hops hi =>
    obtain ⟨dest, callee, args, hi', hcallee, hargs⟩ :=
      (List.isChain_cons.mp hinv.called).1 a (by simp)
    obtain rfl := Option.some.inj (hi.symm.trans hi')
    intro b' hb
    rcases List.mem_cons.mp hb with rfl | hb
    · exact (h a (by simp)).define (hssa _ _ (hinv.function a (by simp))) hi
        (.ret hr rfl rfl hcallee hargs ht hops)
    · exact h b' (by simp [hb])
  | finish =>
    intro b hb
    simp at hb

/-- Every value that an activation has is accounted for. -/
theorem accounted_of_runs {f : Function} {args outside : List Value} (hssa : SingleAssignment env)
    (hP : ∀ s, P s → Confined s) (h₀ : Invariant env (.initial f args outside))
    (h : Runs env P (.initial f args outside) s) :
    ∀ a ∈ s.stack, Accounted env P (.initial f args outside) a := by
  induction h with
  | start =>
    intro a ha id results hid
    obtain rfl := List.mem_singleton.mp ha
    simp at hid
  | step hr hp hs ih => exact accounted_step hssa (h₀.runs hssa hP hr) hr hp hs ih

/-- Only the values that instructions define are addresses of locals. -/
theorem Activation.Tidy.eq_value (ha : a.Tidy m) {o : Operand} {j : Nat}
    (h : a.operand o = some (.address j)) : ∃ id, o = .value id ∧ a.values id = some [.address j] := by
  cases o with
  | param index => exact absurd (ha.args _ (List.mem_of_getElem? h)) id
  | value id =>
    obtain ⟨rs, hrs, hhead⟩ := Option.bind_eq_some_iff.mp h
    rcases ha.values id rs hrs with hfree | ⟨k, -, -, -, rfl, -⟩
    · exact absurd (hfree _ (List.mem_of_head? hhead)) (fun h ↦ h)
    · obtain rfl : k = j := by simpa using hhead
      exact ⟨id, rfl, hrs⟩
  | const | global | function => simp [Activation.operand] at h

/-- What a local holds after a step, it held before, or the step has stored it. -/
theorem Activation.Performs.held {rest : List Activation} {i : Instruction} {results : List Value}
    (h : a.Performs env m i results m') (hc : Confined ⟨a :: rest, m⟩)
    (hi : a.instruction? = some i) (hm : m.Clean) {j : Nat} {c' : Cell} {v : Value}
    (hcell : m'.cells[j]? = some c') (hv : c'.held = some v) :
    (∃ c, m.cells[j]? = some c ∧ c.held = some v) ∨
      ∃ addr o, i = .store addr o ∧ a.operand addr = some (.address j) ∧ a.operand o = some v := by
  cases h with
  | alloc dest typeName =>
    rw [Memory.getElem?_allocate] at hcell
    by_cases hj : j = m.cells.length
    · rw [if_pos hj] at hcell
      obtain rfl := Option.some.inj hcell
      simp at hv
    · rw [if_neg hj] at hcell
      exact .inl ⟨c', hcell, hv⟩
  | @storeLocal addr o k w ha h =>
    rw [Memory.getElem?_store] at hcell
    by_cases hk : k = j
    · rw [if_pos hk] at hcell
      obtain ⟨c, -, rfl⟩ := Option.map_eq_some_iff.mp hcell
      obtain rfl := Option.some.inj hv
      exact .inr ⟨addr, o, rfl, hk ▸ ha, h⟩
    · rw [if_neg hk] at hcell
      exact .inl ⟨c', hcell, hv⟩
  | call hf hs hh htouched h =>
    exact .inl ⟨c', (htouched.clean (hm.hand (hc.handed hi hs hh))).2 j c' hcell, hv⟩
  | _ => exact .inl ⟨c', hcell, hv⟩

section Held

variable {rest : List Activation} {i : Instruction} {results : List Value} {id : ValueId} {j : Nat}
  {c' : Cell} {v : Value} (h : a.Performs env m i results m') (hc : Confined ⟨a :: rest, m⟩)
  (hi : a.instruction? = some i) (ha : a.Tidy m) (hm : m.Clean) (hcell : m'.cells[j]? = some c')
  (hv : c'.held = some v)
include h hc hi ha hm hcell hv

/-- What a local of an activation holds after its step, it held before, or the step has stored it to
the local under its name. -/
theorem Activation.Performs.held_local
    (hid : (a.define i.dest results).values id = some [.address j]) :
    a.values id = some [.address j] ∧ ((∃ c, m.cells[j]? = some c ∧ c.held = some v) ∨
      ∃ o, i = .store (.value id) o ∧ a.operand o = some v) := by
  have hheld := h.held hc hi hm hcell hv
  have hold : a.values id = some [.address j] := by
    rw [values_define] at hid
    by_cases hd : i.dest = some id
    · rw [if_pos hd] at hid
      obtain rfl := Option.some.inj hid
      -- a local that has just been made has not been stored to
      rcases (h.clean hc hi ha hm).2.2 with hfree | ⟨_, _, rfl, heq, -⟩
      · exact absurd hfree not_addressFree
      · obtain rfl : j = m.cells.length := by simpa using heq
        rcases hheld with ⟨c, hc, -⟩ | ⟨_, _, hstore, -⟩
        · simp at hc
        · simp at hstore
    · rwa [if_neg hd] at hid
  refine ⟨hold, hheld.imp_right ?_⟩
  rintro ⟨addr, o, rfl, haddr, ho⟩
  obtain ⟨id', rfl, hid'⟩ := ha.eq_value haddr
  obtain rfl := ha.injective id id' j hold hid'
  exact ⟨o, rfl, ho⟩

/-- What a local of another activation holds after a step, it held before. -/
theorem Activation.Performs.held_elsewhere {b : Activation} (hb : Apart a b)
    (hid : b.values id = some [.address j]) : ∃ c, m.cells[j]? = some c ∧ c.held = some v := by
  rcases h.held hc hi hm hcell hv with hold | ⟨addr, o, -, haddr, -⟩
  · exact hold
  · obtain ⟨id', -, hid'⟩ := ha.eq_value haddr
    exact absurd hid (hb id' id j hid')

end Held

/-- What a local holds after a step was stored to it. -/
theorem stored_step (hinv : Invariant env s) (hr : Runs env P s₀ s)
    (hp : P s) (hc : Confined s) (hs : Step env s s')
    (h : ∀ a ∈ s.stack, ∀ id j, a.values id = some [.address j] → ∀ c v,
      s.memory.cells[j]? = some c → c.held = some v → Stored env P s₀ a.function a.args id v) :
    ∀ a ∈ s'.stack, ∀ id j, a.values id = some [.address j] → ∀ c v,
      s'.memory.cells[j]? = some c → c.held = some v → Stored env P s₀ a.function a.args id v := by
  cases hs with
  | @perform a rest m m' i vs hi hperform =>
    have ha := hinv.tidy a (by simp)
    intro b hb id j hid c v hcell hv
    rcases List.mem_cons.mp hb with rfl | hrest
    · obtain ⟨hold, hheld⟩ := hperform.held_local hc hi ha hinv.clean hcell hv hid
      rcases hheld with ⟨c', hc', hv'⟩ | ⟨o, rfl, ho⟩
      · exact h a (by simp) id j hold c' v hc' hv'
      · exact ⟨⟨a, rest, m, hr, hp, rfl, rfl⟩, o, hi, ho⟩
    · obtain ⟨c', hc', hv'⟩ := hperform.held_elsewhere hc hi ha hinv.clean hcell hv
        ((List.pairwise_cons.mp hinv.apart).1 b hrest) hid
      exact h b (by simp [hrest]) id j hid c' v hc' hv'
  | @enter a rest m dest callee args f vs hi hf hops =>
    intro b hb id j hid
    rcases List.mem_cons.mp hb with rfl | hb
    · simp at hid
    · exact h b hb id j hid
  | @goto a rest m target ht hlt =>
    intro b hb id j hid
    rcases List.mem_cons.mp hb with rfl | hb
    · exact h a (by simp) id j hid
    · exact h b (by simp [hb]) id j hid
  | @ret a b rest m operands vs i ht hops hi =>
    intro b' hb id j hid
    rcases List.mem_cons.mp hb with rfl | hb
    · refine h a (by simp) id j ?_
      rw [Activation.values_define] at hid
      by_cases hd : i.dest = some id
      · rw [if_pos hd] at hid
        obtain rfl := Option.some.inj hid
        exact absurd (hc.returned ht hops) not_addressFree
      · rwa [if_neg hd] at hid
    · exact h b' (by simp [hb]) id j hid
  | finish =>
    intro b hb
    simp at hb

/-- Whatever a local holds was stored to it. -/
theorem stored_of_runs {f : Function} {args outside : List Value} (hssa : SingleAssignment env)
    (hP : ∀ s, P s → Confined s) (h₀ : Invariant env (.initial f args outside))
    (h : Runs env P (.initial f args outside) s) :
    ∀ a ∈ s.stack, ∀ id j, a.values id = some [.address j] → ∀ c v,
      s.memory.cells[j]? = some c → c.held = some v →
        Stored env P (.initial f args outside) a.function a.args id v := by
  induction h with
  | start =>
    intro a ha id j hid
    obtain rfl := List.mem_singleton.mp ha
    simp at hid
  | step hr hp hs ih => exact stored_step (h₀.runs hssa hP hr) hr hp (hP _ hp) hs ih

end Wiring.Run
