import Wiring.Proofs.Analysis.Lockstep
import Wiring.Proofs.Run.Machine
import Mathlib.Data.List.Chain
import Mathlib.Data.List.Forall2
import Mathlib.Data.List.Nodup

/-!
# Locals that stay in their function

Runs in which the address of a local is used for nothing but to load from the local and store to it.
In such a run code outside the program never gets to know a local, and of two values only one can be
the address of a local.
-/

namespace Wiring.Program

/-- The operands that the target of a call depends on. -/
def Callee.uses : Callee → List Operand
  | static _ _ => []
  | invoke receiver _ => [receiver]
  | dynamic value => [value]

/-- The operands of an instruction, without the address that is loaded from or stored to. -/
def Instruction.uses : Instruction → List Operand
  | call _ callee args => callee.uses ++ args
  | makeInterface _ value _ | changeInterface _ value | not _ value | store _ value => [value]
  | extract _ tuple _ => [tuple]
  | binOp _ _ lhs rhs => [lhs, rhs]
  | phi _ edges => edges
  | slice _ elements => elements
  | alloc _ _ | load _ _ | opaqueValue _ _ => []

/-- The operands of a terminator. -/
def Terminator.uses : Terminator → List Operand
  | branch cond _ _ => [cond]
  | ret results => results
  | jump _ | panic => []

end Wiring.Program

namespace Wiring.Run

open Wiring.Program (Constant BinaryOp ValueId Operand Callee Instruction Terminator Function Block)
open Wiring.Analysis (Environment)

/-- No function of the program defines a value twice. -/
def SingleAssignment (env : Environment) : Prop :=
  ∀ name f, env.program.function? name = some f → f.definedValues.Nodup

/-- A run, each of whose steps starts in a state with the property. -/
inductive Runs (env : Environment) (P : State → Prop) (s₀ : State) : State → Prop
  | start : Runs env P s₀ s₀
  | step {s s' : State} (h : Runs env P s₀ s) (hp : P s) (hs : Step env s s') : Runs env P s₀ s'

/-- A function has been called, nothing has happened yet, and code outside the program has been
handed some values. -/
def State.initial (f : Function) (args outside : List Value) : State :=
  ⟨[{ function := f, args }], { outside }⟩

/-- The operands that are used next, without the address that is loaded from or stored to. -/
def Activation.uses (a : Activation) : List Operand :=
  (a.instruction?.map Instruction.uses).getD [] ++ (a.terminator?.map Terminator.uses).getD []

/-- In the next step the address of a local is only used to load from the local or store to it. -/
def Confined (s : State) : Prop :=
  ∀ a ∈ s.stack.head?, ∀ o ∈ a.uses, ∀ v, a.operand o = some v → v.AddressFree

/-- In the next step nothing is loaded from a local to which nothing has been stored. -/
def Initialized (s : State) : Prop :=
  ∀ a ∈ s.stack.head?, ∀ dest addr, a.instruction? = some (.load dest addr) →
    ∀ i c, a.operand addr = some (.address i) → s.memory.cells[i]? = some c → c.held.isSome

/-- What resolution takes for granted about the next step. -/
structure Careful (s : State) : Prop where
  confined : Confined s
  initialized : Initialized s

/-- No address of a local is in the memory. -/
structure Memory.Clean (m : Memory) : Prop where
  cell : ∀ (i : Nat) c v, m.cells[i]? = some c → c.held = some v → v.AddressFree
  outside : ∀ v ∈ m.outside, v.AddressFree

/-- An activation has addresses only where its locals are made. -/
structure Activation.Tidy (a : Activation) (m : Memory) : Prop where
  args : ∀ v ∈ a.args, v.AddressFree
  values : ∀ id rs, a.values id = some rs → (∀ v ∈ rs, v.AddressFree) ∨
    ∃ i dest typeName, i < m.cells.length ∧ rs = [.address i] ∧
      a.function.definition id = some (.alloc dest typeName)
  injective : ∀ id id' i, a.values id = some [.address i] → a.values id' = some [.address i] →
    id = id'

/-- The activation has been called from the one below it. -/
def CalledFrom (env : Environment) (b a : Activation) : Prop :=
  ∃ dest callee args, a.instruction? = some (.call dest callee args) ∧
    env.followed callee = some b.function ∧ a.operands args = some b.args

/-- No local of one activation is one of the other. -/
def Apart (a b : Activation) : Prop :=
  ∀ id id' i, a.values id = some [.address i] → b.values id' ≠ some [.address i]

/-- What holds throughout a run in which addresses are confined. -/
structure Invariant (env : Environment) (s : State) : Prop where
  function : ∀ a ∈ s.stack, env.program.function? a.function.name = some a.function
  called : s.stack.IsChain (CalledFrom env)
  tidy : ∀ a ∈ s.stack, a.Tidy s.memory
  apart : s.stack.Pairwise Apart
  clean : s.memory.Clean

variable {env : Environment} {a b : Activation} {m m' : Memory} {v : Value} {o : Operand}
  {i : Instruction} {results : List Value}

/-- The address of a local is an address. -/
theorem not_addressFree {j : Nat} : ¬ ∀ v ∈ [Value.address j], v.AddressFree :=
  fun h ↦ h _ (List.mem_singleton_self _)

/-- An address that an activation has is that of a local that it has made. -/
theorem Activation.Tidy.address {id : ValueId} {j : Nat} (ha : a.Tidy m)
    (h : a.values id = some [.address j]) : j < m.cells.length ∧
      ∃ dest typeName, a.function.definition id = some (.alloc dest typeName) := by
  rcases ha.values id _ h with hfree | ⟨k, dest, typeName, hk, heq, hdef⟩
  · exact absurd hfree not_addressFree
  · obtain rfl : j = k := by simpa using heq
    exact ⟨hk, dest, typeName, hdef⟩

/-- What code outside the program can make has no address in it, if nothing in the memory has. -/
theorem Memory.Clean.addressFree (hm : m.Clean) (h : m.Known v) : v.AddressFree := by
  induction h with
  | given h => exact hm.outside _ h
  | const | global | function | foreign => trivial
  | boxed h ih => exact ih
  | held h ih => exact ih
  | content h hc ih => exact absurd ih id

/-- Handing over values without addresses keeps the memory clean. -/
theorem Memory.Clean.hand (hm : m.Clean) {vs : List Value} (hvs : ∀ v ∈ vs, v.AddressFree) :
    (m.hand vs).Clean where
  cell := hm.cell
  outside v hv := by
    rcases List.mem_append.mp hv with hv | hv
    · exact hvs v hv
    · exact hm.outside v hv

/-- Storing a value without addresses keeps the memory clean. -/
theorem Memory.Clean.store (hm : m.Clean) (j : Nat) (hv : v.AddressFree) : (m.store j v).Clean where
  cell k c w hc hw := by
    rw [getElem?_store] at hc
    by_cases hjk : j = k
    · rw [if_pos hjk] at hc
      obtain ⟨c', -, rfl⟩ := Option.map_eq_some_iff.mp hc
      obtain rfl := Option.some.inj hw
      exact hv
    · rw [if_neg hjk] at hc
      exact hm.cell k c w hc hw
  outside := hm.outside

/-- A fresh local keeps the memory clean. -/
theorem Memory.Clean.allocate (hm : m.Clean) (typeName : String) : (m.allocate typeName).Clean where
  cell k c w hc hw := by
    rw [getElem?_allocate] at hc
    by_cases hk : k = m.cells.length
    · rw [if_pos hk] at hc
      obtain rfl := Option.some.inj hc
      simp at hw
    · rw [if_neg hk] at hc
      exact hm.cell k c w hc hw
  outside := hm.outside

/-- Code outside the program keeps the memory clean, and leaves locals alone. -/
theorem Memory.Touched.clean (h : m.Touched m') (hm : m.Clean) :
    m'.Clean ∧ ∀ (j : Nat) c, m'.cells[j]? = some c → m.cells[j]? = some c := by
  have hcell : ∀ (j : Nat) c, m'.cells[j]? = some c → m.cells[j]? = some c := by
    intro j c hc
    rcases h.cell j c hc with hc | ⟨hk, -⟩
    · exact hc
    · exact absurd (hm.addressFree hk) id
  refine ⟨⟨fun j c v hc hv ↦ hm.cell j c v (hcell j c hc) hv, ?_⟩, hcell⟩
  rw [h.outside]
  exact hm.outside

/-- What a local holds before anything is stored to it has no address in it. -/
theorem Value.IsZero.addressFree {typeName : String} (h : v.IsZero typeName) : v.AddressFree := by
  unfold IsZero at h
  split at h
  · rw [h]
    trivial
  · split at h
    · rw [h]
      trivial
    · split at h
      · rw [h]
        trivial
      · rcases h with rfl | ⟨tag, rfl⟩ <;> trivial

/-- The values of operands are one for each. -/
theorem Activation.operands_eq_some {l : List Operand} {vs : List Value} :
    a.operands l = some vs ↔ List.Forall₂ (fun o v ↦ a.operand o = some v) l vs := by
  unfold operands
  induction l generalizing vs with
  | nil => simp [eq_comm]
  | cons o l ih =>
    rw [List.mapM_cons, List.forall₂_cons_left_iff]
    simp only [Option.bind_eq_bind, Option.bind_eq_some_iff, Option.pure_def, Option.some.injEq]
    constructor
    · rintro ⟨v, hv, ws, hws, rfl⟩
      exact ⟨v, ws, hv, ih.mp hws, rfl⟩
    · rintro ⟨v, ws, hv, hws, rfl⟩
      exact ⟨v, hv, ws, ih.mpr hws, rfl⟩

/-- The value at a position is that of the operand there. -/
theorem Activation.operand_of_getElem? {l : List Operand} {vs : List Value} {n : Nat}
    (h : a.operands l = some vs) (hv : vs[n]? = some v) :
    ∃ o, l[n]? = some o ∧ a.operand o = some v := by
  have hall := operands_eq_some.mp h
  obtain ⟨hn, rfl⟩ := List.getElem?_eq_some_iff.mp hv
  have hlt : n < l.length := hall.length_eq ▸ hn
  exact ⟨l[n], List.getElem?_eq_getElem hlt, hall.get hlt hn⟩

/-- Each value is that of some operand. -/
theorem Activation.exists_of_mem_operands {l : List Operand} {vs : List Value}
    (h : a.operands l = some vs) (hv : v ∈ vs) : ∃ o ∈ l, a.operand o = some v := by
  obtain ⟨n, hn⟩ := List.mem_iff_getElem?.mp hv
  obtain ⟨o, ho, hop⟩ := operand_of_getElem? h hn
  exact ⟨o, List.mem_of_getElem? ho, hop⟩

/-- What is handed over is an argument, or what the target of the call depends on. -/
theorem Activation.Hands.mem {callee : Callee} {vs handed : List Value}
    (h : a.Hands callee vs handed) (hv : v ∈ handed) :
    v ∈ vs ∨ ∃ o ∈ callee.uses, a.operand o = some v := by
  cases h with
  | static => exact .inl hv
  | dynamic hop | invoke hop =>
    split at hv
    · exact .inl hv
    · rcases List.mem_cons.mp hv with rfl | hv
      · exact .inr ⟨_, by simp [Callee.uses], hop⟩
      · exact .inl hv

section Confined

variable {rest : List Activation} (hc : Confined ⟨a :: rest, m⟩)
  (hi : a.instruction? = some i)
include hc

include hi in
/-- An instruction uses no addresses. -/
theorem Confined.use (ho : o ∈ i.uses) (h : a.operand o = some v) : v.AddressFree := by
  refine hc a rfl o ?_ v h
  unfold Activation.uses
  rw [hi]
  exact List.mem_append_left _ ho

/-- A terminator uses no addresses. -/
theorem Confined.useLast {t : Terminator} (ht : a.terminator? = some t) (ho : o ∈ t.uses)
    (h : a.operand o = some v) : v.AddressFree := by
  refine hc a rfl o ?_ v h
  unfold Activation.uses
  rw [ht]
  exact List.mem_append_right _ ho

include hi in
/-- An instruction uses no list of operands with an address among their values. -/
theorem Confined.useAll {l : List Operand} {vs : List Value} (hl : ∀ o ∈ l, o ∈ i.uses)
    (hs : a.operands l = some vs) : ∀ v ∈ vs, v.AddressFree := by
  intro v hv
  obtain ⟨o, ho, hop⟩ := Activation.exists_of_mem_operands hs hv
  exact hc.use hi (hl o ho) hop

/-- A function returns no addresses. -/
theorem Confined.returned {l : List Operand} {vs : List Value}
    (ht : a.terminator? = some (.ret l)) (hs : a.operands l = some vs) :
    ∀ v ∈ vs, v.AddressFree := by
  intro v hv
  obtain ⟨o, ho, hop⟩ := Activation.exists_of_mem_operands hs hv
  exact hc.useLast ht ho hop

/-- A call is passed no addresses. -/
theorem Confined.passed {dest : Option ValueId} {callee : Callee} {args : List Operand}
    {vs : List Value} (hi : a.instruction? = some (.call dest callee args))
    (hs : a.operands args = some vs) : ∀ v ∈ vs, v.AddressFree :=
  hc.useAll hi (fun _ ho ↦ List.mem_append_right _ ho) hs

/-- Code outside the program is handed no addresses. -/
theorem Confined.handed {dest : Option ValueId} {callee : Callee} {args : List Operand}
    {vs handed : List Value} (hi : a.instruction? = some (.call dest callee args))
    (hs : a.operands args = some vs) (hh : a.Hands callee vs handed) :
    ∀ v ∈ handed, v.AddressFree := by
  intro v hv
  rcases hh.mem hv with hv | ⟨o, ho, hop⟩
  · exact hc.passed hi hs v hv
  · exact hc.use hi (List.mem_append_left _ ho) hop

include hi in
/-- What a step does to the memory and defines: only a fresh local's address is an address. -/
theorem Activation.Performs.clean (h : a.Performs env m i results m') (ha : a.Tidy m)
    (hm : m.Clean) : m'.Clean ∧ m.cells.length ≤ m'.cells.length ∧
      ((∀ v ∈ results, v.AddressFree) ∨ ∃ dest typeName, i = .alloc dest typeName ∧
        results = [.address m.cells.length] ∧ m.cells.length < m'.cells.length) := by
  have hsingle {v : Value} (hv : v.AddressFree) : ∀ w ∈ [v], w.AddressFree := by
    simpa using hv
  cases h with
  | @makeInterface dest o typeName v h =>
    have hv : v.AddressFree := hc.use hi (by simp [Instruction.uses]) h
    exact ⟨hm, Nat.le_refl _, .inl (hsingle (v := .boxed typeName v) hv)⟩
  | changeInterface h =>
    exact ⟨hm, Nat.le_refl _, .inl (hsingle (hc.use hi (by simp [Instruction.uses]) h))⟩
  | @extract dest tuple index dest' callee args rs v ht h hv =>
    refine ⟨hm, Nat.le_refl _, .inl (hsingle ?_)⟩
    rcases ha.values tuple rs h with hfree | ⟨j, dest, typeName, -, -, hdef⟩
    · exact hfree v (List.mem_of_getElem? hv)
    · rw [ht] at hdef
      simp at hdef
  | extractElsewhere ht h => exact ⟨hm, Nat.le_refl _, .inl (hsingle (hm.addressFree h))⟩
  | alloc dest typeName =>
    exact ⟨hm.allocate typeName, by simp, .inr ⟨dest, typeName, rfl, rfl, by simp⟩⟩
  | storeLocal ha' h =>
    exact ⟨hm.store _ (hc.use hi (by simp [Instruction.uses]) h), by simp, .inl (by simp)⟩
  | storeElsewhere ha' hp h =>
    exact ⟨hm.hand (hsingle (hc.use hi (by simp [Instruction.uses]) h)), Nat.le_refl _,
      .inl (by simp)⟩
  | @loadLocal dest addr j c v ha' hcell h =>
    refine ⟨hm, Nat.le_refl _, .inl (hsingle ?_)⟩
    rcases h with h | ⟨-, h⟩
    · exact hm.cell j c v hcell h
    · exact h.addressFree
  | loadGlobal => exact ⟨hm, Nat.le_refl _, .inl (hsingle trivial)⟩
  | loadElsewhere ha' hp hg h => exact ⟨hm, Nat.le_refl _, .inl (hsingle (hm.addressFree h))⟩
  | binOp hl hr hv h => exact ⟨hm, Nat.le_refl _, .inl (hsingle (hm.addressFree h))⟩
  | not ho hv h => exact ⟨hm, Nat.le_refl _, .inl (hsingle (hm.addressFree h))⟩
  | phi ho h => exact ⟨hm, Nat.le_refl _, .inl (hsingle (hc.use hi ho h))⟩
  | @slice dest elements vs v hs h =>
    have hclean := hm.hand (hc.useAll hi (fun _ ho ↦ ho) hs)
    exact ⟨hclean, Nat.le_refl _, .inl (hsingle (hclean.addressFree h))⟩
  | opaqueValue h => exact ⟨hm, Nat.le_refl _, .inl (hsingle (hm.addressFree h))⟩
  | call hf hs hh htouched h =>
    obtain ⟨hclean, -⟩ := htouched.clean (hm.hand (hc.handed hi hs hh))
    exact ⟨hclean, Nat.le_of_eq htouched.length.symm, .inl fun v hv ↦ hclean.addressFree (h v hv)⟩

end Confined

/-- The instruction that runs next is one of the function's. -/
theorem Activation.mem_instructions (h : a.instruction? = some i) :
    i ∈ a.function.instructions := by
  obtain ⟨block, hblock, hi⟩ := Option.bind_eq_some_iff.mp h
  exact List.mem_flatMap.mpr ⟨block, List.mem_of_getElem? hblock, List.mem_of_getElem? hi⟩

/-- What has been defined before and after an instruction. -/
theorem Activation.values_define (a : Activation) (dest : Option ValueId) (id : ValueId) :
    (a.define dest results).values id = if dest = some id then some results else a.values id := rfl

section Define

variable {dest : Option ValueId} (hlen : m.cells.length ≤ m'.cells.length)
  (hnew : ∀ id, dest = some id → (∀ v ∈ results, v.AddressFree) ∨
    ∃ dest' typeName, results = [.address m.cells.length] ∧ m.cells.length < m'.cells.length ∧
      a.function.definition id = some (.alloc dest' typeName))

include hnew in
/-- An address that has just been defined is that of a fresh local. -/
theorem Activation.eq_of_values_define {id : ValueId} {j : Nat}
    (h : (a.define dest results).values id = some [.address j]) :
    dest = some id ∧ j = m.cells.length ∨ a.values id = some [.address j] := by
  rw [values_define] at h
  by_cases hd : dest = some id
  · rw [if_pos hd] at h
    obtain rfl := Option.some.inj h
    rcases hnew id hd with hfree | ⟨_, _, heq, -, -⟩
    · exact absurd hfree not_addressFree
    · exact .inl ⟨hd, by simpa using heq⟩
  · rw [if_neg hd] at h
    exact .inr h

include hlen hnew in
/-- An activation stays tidy when an instruction defines a value or a fresh local. -/
theorem Activation.Tidy.define (ha : a.Tidy m) : (a.define dest results).Tidy m' where
  args := ha.args
  values id rs h := by
    rw [values_define] at h
    by_cases hd : dest = some id
    · rw [if_pos hd] at h
      obtain rfl := Option.some.inj h
      rcases hnew id hd with hfree | ⟨dest', typeName, rfl, hlt, hdef⟩
      · exact .inl hfree
      · exact .inr ⟨_, dest', typeName, hlt, rfl, hdef⟩
    · rw [if_neg hd] at h
      rcases ha.values id rs h with hfree | ⟨j, dest', typeName, hj, rfl, hdef⟩
      · exact .inl hfree
      · exact .inr ⟨j, dest', typeName, Nat.lt_of_lt_of_le hj hlen, rfl, hdef⟩
  injective id id' j h h' := by
    rcases eq_of_values_define hnew h with ⟨hd, rfl⟩ | h
    · rcases eq_of_values_define hnew h' with ⟨hd', -⟩ | h'
      · exact Option.some.inj (hd.symm.trans hd')
      · exact absurd (ha.address h').1 (Nat.lt_irrefl _)
    · rcases eq_of_values_define hnew h' with ⟨-, rfl⟩ | h'
      · exact absurd (ha.address h).1 (Nat.lt_irrefl _)
      · exact ha.injective id id' j h h'

include hnew in
/-- Activations stay apart when an instruction of one defines a value or a fresh local. -/
theorem Apart.define (h : Apart a b) (hb : b.Tidy m) : Apart (a.define dest results) b := by
  intro id id' j hid hid'
  rcases Activation.eq_of_values_define hnew hid with ⟨-, rfl⟩ | hid
  · exact absurd (hb.address hid').1 (Nat.lt_irrefl _)
  · exact h id id' j hid hid'

end Define

/-- An activation stays tidy when there are more locals. -/
theorem Activation.Tidy.mono (ha : a.Tidy m) (hlen : m.cells.length ≤ m'.cells.length) :
    a.Tidy m' where
  args := ha.args
  values id rs h := by
    rcases ha.values id rs h with hfree | ⟨j, dest, typeName, hj, rfl, hdef⟩
    · exact .inl hfree
    · exact .inr ⟨j, dest, typeName, Nat.lt_of_lt_of_le hj hlen, rfl, hdef⟩
  injective := ha.injective

/-- The invariant holds at the start. -/
theorem Invariant.initial {f : Function} {args outside : List Value}
    (hf : env.program.function? f.name = some f) (hargs : ∀ v ∈ args, v.AddressFree)
    (houtside : ∀ v ∈ outside, v.AddressFree) : Invariant env (.initial f args outside) where
  function a ha := by
    obtain rfl := List.mem_singleton.mp ha
    exact hf
  called := .singleton _
  tidy a ha := by
    obtain rfl := List.mem_singleton.mp ha
    exact ⟨hargs, fun id rs h ↦ by simp at h, fun id id' j h ↦ by simp at h⟩
  apart := List.pairwise_singleton _ _
  clean := ⟨fun j c v hc ↦ by simp [State.initial] at hc, houtside⟩

/-- The invariant is kept by the activation that runs, if it is kept by what it becomes. -/
private theorem Invariant.replace {a' : Activation} {rest : List Activation}
    (h : Invariant env ⟨a :: rest, m⟩) (hfunction : a'.function = a.function)
    (hargs : a'.args = a.args) (htidy : a'.Tidy m') (hlen : m.cells.length ≤ m'.cells.length)
    (hapart : ∀ b ∈ rest, b.Tidy m → Apart a b → Apart a' b) (hclean : m'.Clean) :
    Invariant env ⟨a' :: rest, m'⟩ where
  function b hb := by
    rcases List.mem_cons.mp hb with rfl | hb
    · rw [hfunction]
      exact h.function a (by simp)
    · exact h.function b (by simp [hb])
  called := by
    have hcalled := List.isChain_cons.mp h.called
    refine List.isChain_cons.mpr ⟨fun b hb ↦ ?_, hcalled.2⟩
    obtain ⟨dest, callee, args, hi, hf, hs⟩ := hcalled.1 b hb
    exact ⟨dest, callee, args, hi, hfunction ▸ hf, hargs ▸ hs⟩
  tidy b hb := by
    rcases List.mem_cons.mp hb with rfl | hb
    · exact htidy
    · exact (h.tidy b (by simp [hb])).mono hlen
  apart := by
    have hall := List.pairwise_cons.mp h.apart
    refine List.pairwise_cons.mpr ⟨fun b hb ↦ ?_, hall.2⟩
    exact hapart b hb (h.tidy b (by simp [hb])) (hall.1 b hb)
  clean := hclean

/-- Without the activation that runs, the invariant still holds. -/
private theorem Invariant.tail {rest : List Activation} (h : Invariant env ⟨a :: rest, m⟩) :
    Invariant env ⟨rest, m⟩ where
  function b hb := h.function b (by simp [show b ∈ rest from hb])
  called := (List.isChain_cons.mp h.called).2
  tidy b hb := h.tidy b (by simp [show b ∈ rest from hb])
  apart := (List.pairwise_cons.mp h.apart).2
  clean := h.clean

/-- A step keeps the invariant. -/
theorem Invariant.step {s s' : State} (hssa : SingleAssignment env) (h : Invariant env s)
    (hc : Confined s) (hs : Step env s s') : Invariant env s' := by
  cases hs with
  | @perform a rest m m' i results hi hperform =>
    have ha := h.tidy a (by simp)
    obtain ⟨hclean, hlen, hres⟩ := hperform.clean hc hi ha h.clean
    have hnew : ∀ id, i.dest = some id → (∀ v ∈ results, v.AddressFree) ∨
        ∃ dest' typeName, results = [.address m.cells.length] ∧
          m.cells.length < m'.cells.length ∧
          a.function.definition id = some (.alloc dest' typeName) := by
      intro id hd
      rcases hres with hfree | ⟨dest, typeName, rfl, hres, hlt⟩
      · exact .inl hfree
      · exact .inr ⟨dest, typeName, hres, hlt, Function.definition_eq
          (hssa _ _ (h.function a (by simp))) (Activation.mem_instructions hi) hd⟩
    exact h.replace rfl rfl (ha.define hlen hnew) hlen (fun b hb hbt hapart ↦ hapart.define hnew hbt)
      hclean
  | @enter a rest m dest callee args f vs hi hf hops =>
    have hargs := hc.passed hi hops
    refine ⟨?_, ?_, ?_, ?_, h.clean⟩
    · intro b hb
      rcases List.mem_cons.mp hb with rfl | hb
      · exact Environment.has_of_followed hf []
      · exact h.function b hb
    · exact List.isChain_cons.mpr ⟨fun b hb ↦ by
        obtain rfl := Option.some.inj hb
        exact ⟨dest, callee, args, hi, hf, hops⟩, h.called⟩
    · intro b hb
      rcases List.mem_cons.mp hb with rfl | hb
      · exact ⟨hargs, fun id rs hid ↦ by simp at hid, fun id id' j hid ↦ by simp at hid⟩
      · exact h.tidy b hb
    · exact List.pairwise_cons.mpr ⟨fun b hb id id' j hid ↦ by simp at hid, h.apart⟩
  | @goto a rest m target ht hb =>
    have ha := h.tidy a (by simp)
    exact h.replace rfl rfl ⟨ha.args, ha.values, ha.injective⟩ (Nat.le_refl _)
      (fun b hb hbt hapart ↦ hapart) h.clean
  | @ret a b rest m results vs i ht hops hi =>
    have hnew : ∀ id, i.dest = some id → (∀ v ∈ vs, v.AddressFree) ∨
        ∃ dest' typeName, vs = [.address m.cells.length] ∧ m.cells.length < m.cells.length ∧
          a.function.definition id = some (.alloc dest' typeName) := fun _ _ ↦
      .inl (hc.returned ht hops)
    have hrest := h.tail
    have ha := hrest.tidy a (by simp)
    exact hrest.replace rfl rfl (ha.define (Nat.le_refl _) hnew) (Nat.le_refl _)
      (fun b hb hbt hapart ↦ hapart.define hnew hbt) h.clean
  | finish =>
    exact ⟨fun a ha ↦ by simp at ha, .nil, fun a ha ↦ by simp at ha, .nil, h.clean⟩

/-- The invariant holds throughout a run in which addresses are confined. -/
theorem Invariant.runs {P : State → Prop} {s₀ s : State} (hssa : SingleAssignment env)
    (hP : ∀ s, P s → Confined s) (h₀ : Invariant env s₀) (h : Runs env P s₀ s) :
    Invariant env s := by
  induction h with
  | start => exact h₀
  | step h hp hs ih => exact ih.step hssa (hP _ hp) hs

end Wiring.Run
