import Wiring.Analysis.ConfigurerCalls
import Wiring.Proofs.Program.Blocks
import Mathlib.Tactic.ByContra

/-!
# Marks

What the taint of a function amounts to once no pass adds a mark: its marks are closed under what
instructions derive from them, and whatever a reachable instruction does with a marked value is
among the encounters.
-/

namespace Wiring.Analysis

open Wiring.Program (Operand Instruction Function Block)

/-- Where an instruction is: in which block, and at which position in it. -/
structure Place where
  block : Nat
  index : Nat
  deriving DecidableEq, Repr

/-- Places in the order of the blocks, and of the instructions in a block. -/
instance : LT Place := ⟨fun p q ↦ p.block < q.block ∨ p.block = q.block ∧ p.index < q.index⟩

theorem Place.lt_iff {p q : Place} :
    p < q ↔ p.block < q.block ∨ p.block = q.block ∧ p.index < q.index := Iff.rfl

instance (p q : Place) : Decidable (p < q) := inferInstanceAs (Decidable (_ ∨ _))

theorem Place.lt_asymm {p q : Place} (h : p < q) : ¬ q < p := by
  rw [Place.lt_iff] at h ⊢
  omega

namespace Taint

variable {f : Function} {t : Taint} {i : Instruction} {l : List Instruction} {m : Mark}

/-- The marks are closed under what the function's instructions derive from them. -/
def Closed (f : Function) (t : Taint) : Prop :=
  ∀ i ∈ f.instructions, ∀ m, t.derived f i = some m → m ∈ t.marks

/-- A step takes no mark away, and if it changes the taint it adds one. -/
theorem step_eq_or_lt (f : Function) (t : Taint) (i : Instruction) :
    step f t i = t ∨ t.marks.length < (step f t i).marks.length := by
  unfold step
  split
  · unfold add
    split
    · exact .inl rfl
    · exact .inr (by simp)
  · exact .inl rfl

/-- Steps take no marks away. -/
theorem length_le_foldl (f : Function) (l : List Instruction) (t : Taint) :
    t.marks.length ≤ (l.foldl (step f) t).marks.length := by
  induction l generalizing t with
  | nil => exact Nat.le_refl _
  | cons i l ih =>
    have hrest := ih (step f t i)
    rw [List.foldl_cons]
    rcases step_eq_or_lt f t i with heq | hlt
    · rwa [heq] at hrest ⊢
    · exact Nat.le_trans (Nat.le_of_lt hlt) hrest

/-- If a series of steps changes nothing, none of them does. -/
theorem step_eq_of_foldl (h : l.foldl (step f) t = t) (hi : i ∈ l) : step f t i = t := by
  induction l with
  | nil => simp at hi
  | cons j l ih =>
    have hj : step f t j = t := by
      rcases step_eq_or_lt f t j with heq | hlt
      · exact heq
      · have hle := length_le_foldl f l (step f t j)
        rw [List.foldl_cons] at h
        rw [h] at hle
        omega
    rcases List.mem_cons.mp hi with rfl | hi
    · exact hj
    · rw [List.foldl_cons, hj] at h
      exact ih h hi

/-- Where a step changes nothing, its mark is there. -/
theorem mem_of_step_eq (h : step f t i = t) (hm : t.derived f i = some m) : m ∈ t.marks := by
  unfold step at h
  rw [hm] at h
  by_contra hnot
  have hlen := congrArg (fun t : Taint ↦ t.marks.length) h
  simp [add, hnot] at hlen

/-- Passes end when the marks are closed; the parameters stay the same. -/
theorem closed_close (f : Function) (t : Taint) :
    Closed f (close f t) ∧ (close f t).params = t.params := by
  have hparams (t : Taint) : (pass f t).params = t.params := by
    have hstep (t : Taint) (i : Instruction) : (step f t i).params = t.params := by
      unfold step add
      split
      · split <;> rfl
      · rfl
    unfold pass
    induction f.instructions generalizing t with
    | nil => rfl
    | cons i l ih => rw [List.foldl_cons, ih, hstep]
  fun_induction close f t with
  | case1 t h =>
    exact ⟨fun i hi m hm ↦ mem_of_step_eq (step_eq_of_foldl h hi) hm, rfl⟩
  | case2 t h hlt ih =>
    exact ⟨ih.1, ih.2.trans (hparams t)⟩

/-- The taint of a function is closed. -/
theorem closed_ofParams (f : Function) (params : List Nat) : Closed f (ofParams f params) :=
  (closed_close f _).1

@[simp] theorem params_ofParams (f : Function) (params : List Nat) :
    (ofParams f params).params = params :=
  (closed_close f _).2

/-- Whatever holds of each mark that an instruction derives from marks of which it holds, holds of
all marks of the function. -/
theorem ofParams_induction {f : Function} {params : List Nat} {S : Mark → Prop}
    (h : ∀ t : Taint, t.params = params → (∀ m ∈ t.marks, S m) → ∀ i ∈ f.instructions, ∀ m,
      t.derived f i = some m → S m) : ∀ m ∈ (ofParams f params).marks, S m := by
  have hstep (t : Taint) (i : Instruction) (hi : i ∈ f.instructions)
      (ht : t.params = params ∧ ∀ m ∈ t.marks, S m) :
      (step f t i).params = params ∧ ∀ m ∈ (step f t i).marks, S m := by
    unfold step
    cases hm : t.derived f i with
    | none => exact ht
    | some m =>
      dsimp only
      unfold add
      split
      · exact ht
      · exact ⟨ht.1, List.forall_mem_cons.mpr ⟨h t ht.1 ht.2 i hi m hm, ht.2⟩⟩
  have hpass (t : Taint) (ht : t.params = params ∧ ∀ m ∈ t.marks, S m) :
      (pass f t).params = params ∧ ∀ m ∈ (pass f t).marks, S m :=
    List.foldlRecOn f.instructions (step f) ht fun t ht i hi ↦ hstep t i hi ht
  have hclose (t : Taint) (ht : t.params = params ∧ ∀ m ∈ t.marks, S m) :
      ∀ m ∈ (close f t).marks, S m := by
    fun_induction close f t with
    | case1 t h => exact ht.2
    | case2 t h hlt ih => exact ih (hpass t ht)
  exact hclose { params } ⟨rfl, by simp⟩

/-- More marks make more operands the configurer. -/
theorem contains_mono {s : Taint} (hp : t.params = s.params) (hm : ∀ m ∈ t.marks, m ∈ s.marks)
    {o : Operand} (h : t.contains o) : s.contains o := by
  unfold contains at h ⊢
  cases o with
  | param index => simpa [hp] using h
  | value id => simpa using hm _ (by simpa using h)
  | const | global | function => simp at h

/-- An instruction derives what it did if its operands may still be the configurer, and locals may
still hold it. -/
theorem derived_of_derived {s : Taint} (hoperands : ∀ o ∈ i.operands, t.contains o → s.contains o)
    (hholder : ∀ id, .holder id ∈ t.marks → .holder id ∈ s.marks) (h : t.derived f i = some m) :
    s.derived f i = some m := by
  unfold derived at h ⊢
  split at h
  · rw [Option.ite_none_right_eq_some] at h ⊢
    exact ⟨hoperands _ (by simp [Instruction.operands]) h.1, h.2⟩
  · rw [Option.ite_none_right_eq_some] at h ⊢
    exact ⟨hoperands _ (by simp [Instruction.operands]) h.1, h.2⟩
  · rw [Option.ite_none_right_eq_some] at h ⊢
    rw [List.any_eq_true] at h ⊢
    obtain ⟨⟨o, ho, hc⟩, heq⟩ := h
    exact ⟨⟨o, ho, hoperands o ho hc⟩, heq⟩
  · rw [Option.ite_none_right_eq_some] at h ⊢
    exact ⟨by simpa using hholder _ (by simpa using h.1), h.2⟩
  · rw [Option.ite_none_right_eq_some] at h ⊢
    exact ⟨hoperands _ (by simp [Instruction.operands]) h.1, h.2⟩
  · cases h

/-- An instruction marks the value that it defines, or else it stores the configurer. -/
theorem dest_or_store_of_derived (h : t.derived f i = some m) :
    (∃ id, m = .value id ∧ i.dest = some id) ∨
      ∃ addr value, i = .store addr value ∧ t.contains value := by
  unfold derived at h
  split at h
  · rw [Option.ite_none_right_eq_some] at h
    exact .inl ⟨_, (Option.some.inj h.2).symm, rfl⟩
  · rw [Option.ite_none_right_eq_some] at h
    exact .inl ⟨_, (Option.some.inj h.2).symm, rfl⟩
  · rw [Option.ite_none_right_eq_some] at h
    exact .inl ⟨_, (Option.some.inj h.2).symm, rfl⟩
  · rw [Option.ite_none_right_eq_some] at h
    exact .inl ⟨_, (Option.some.inj h.2).symm, rfl⟩
  · rw [Option.ite_none_right_eq_some] at h
    exact .inr ⟨_, _, rfl, h.1⟩
  · cases h

/-- What an instruction does with the configurer depends on which of its operands may be it. -/
theorem encounter_congr {s : Taint} (h : ∀ o ∈ i.operands, s.contains o = t.contains o) :
    s.encounter i = t.encounter i := by
  cases i with
  | call dest callee args =>
    have hpositions : s.positions args = t.positions args := by
      unfold positions
      refine congrArg (List.map Prod.snd) (List.filter_congr fun (a, n) ha ↦ ?_)
      have hmem : a ∈ args := List.fst_mem_of_mem_zipIdx ha
      exact h a (by simp [Instruction.operands, hmem])
    cases callee with
    | invoke receiver method =>
      have hreceiver := h receiver (by simp [Instruction.operands, Program.Callee.operands])
      simp only [encounter, hpositions, hreceiver]
    | static | dynamic => simp only [encounter, hpositions]
  | makeInterface | changeInterface | extract | alloc | store | load | binOp | not | phi | slice
  | opaqueValue => rfl

/-- Whether the configurer gets lost depends on which operands may be it. -/
theorem lost_congr {s : Taint} (h : ∀ o ∈ i.operands, s.contains o = t.contains o) :
    s.lost f i = t.lost f i := by
  cases i with
  | store addr value => simp only [lost, h value (by simp [Instruction.operands])]
  | slice dest elements =>
    unfold lost
    rw [Bool.eq_iff_iff, List.any_eq_true, List.any_eq_true]
    refine exists_congr fun o ↦ and_congr_right fun ho ↦ ?_
    rw [h o ho]
  | call | makeInterface | changeInterface | extract | alloc | load | binOp | not | phi
  | opaqueValue => rfl

/-- If nothing receives the configurer, no operand may be it. -/
@[simp] theorem contains_empty (o : Operand) : (⟨[], []⟩ : Taint).contains o = false := by
  cases o <;> simp [contains]

/-- If nothing receives the configurer, nothing is derived. -/
theorem derived_empty (f : Function) (i : Instruction) :
    (⟨[], []⟩ : Taint).derived f i = none := by
  unfold derived
  split <;> simp

/-- If nothing receives the configurer, it does not get lost. -/
theorem lost_empty (f : Function) (i : Instruction) : (⟨[], []⟩ : Taint).lost f i = false := by
  unfold lost
  split <;> simp

/-- If nothing receives the configurer, it is not encountered. -/
theorem encounter_empty (i : Instruction) : (⟨[], []⟩ : Taint).encounter i = none := by
  unfold encounter
  split
  · next callee args =>
    have hpositions : (⟨[], []⟩ : Taint).positions args = [] := by simp [positions]
    cases callee <;> simp [hpositions]
  · rfl

/-- Locals are the values that are defined by making one. -/
theorem localOf_eq_some_iff {o : Operand} {id : Program.ValueId} : localOf f o = some id ↔
    o = .value id ∧ ∃ dest typeName, f.definition id = some (.alloc dest typeName) := by
  unfold localOf
  split
  · next id' =>
    split
    · next hd =>
      constructor
      · rintro ⟨⟩
        exact ⟨rfl, _, _, hd⟩
      · rintro ⟨⟨⟩, -⟩
        rfl
    · next hd =>
      constructor
      · rintro ⟨⟩
      · rintro ⟨⟨⟩, dest, typeName, hd'⟩
        exact absurd hd' (hd dest typeName)
  · next hne =>
    constructor
    · rintro ⟨⟩
    · rintro ⟨rfl, -⟩
      exact absurd rfl (hne id)

/-- The encounters, each with the place of its instruction. -/
def placed (t : Taint) (f : Function) (g : FlowGraph) : List (Place × Encounter × Bool) :=
  g.blocks.flatMap fun b ↦
    ((f.blocks[b]?.map Block.instructions).getD []).zipIdx.filterMap fun (i, n) ↦
      (t.encounter i).map fun e ↦ (⟨b, n⟩, e, g.isUnconditional b)

/-- Without their places, they are the encounters. -/
theorem map_snd_placed (t : Taint) (f : Function) (g : FlowGraph) :
    (t.placed f g).map Prod.snd = t.encounters f g := by
  unfold placed encounters
  rw [List.map_flatMap]
  congr 1
  funext b
  generalize (f.blocks[b]?.map Block.instructions).getD [] = l
  rw [List.map_filterMap]
  conv_rhs => rw [← List.zipIdx_map_fst 0 l, List.filterMap_map]
  congr 1
  funext ⟨i, n⟩
  rw [Option.map_map]
  rfl

/-- What a reachable instruction does with the configurer is among the encounters. -/
theorem mem_placed {g : FlowGraph} {b n : Nat} {block : Block} {e : Encounter}
    (hb : f.blocks[b]? = some block) (hg : g.isReachable b) (hi : block.instructions[n]? = some i)
    (he : t.encounter i = some e) : (⟨b, n⟩, e, g.isUnconditional b) ∈ t.placed f g := by
  have hlt : b < g.size := by
    by_contra hnot
    have hnone : g.edges.getD b none = none := by
      rw [List.getD_eq_getElem?_getD, List.getElem?_eq_none (by simpa [FlowGraph.size] using hnot)]
      rfl
    rw [FlowGraph.isReachable, hnone] at hg
    simp at hg
  refine List.mem_flatMap.mpr ⟨b, List.mem_filter.mpr ⟨List.mem_range.mpr hlt, hg⟩, ?_⟩
  refine List.mem_filterMap.mpr ⟨(i, n), ?_, ?_⟩
  · rw [hb]
    exact List.mk_mem_zipIdx_iff_getElem?.mpr hi
  · dsimp only
    rw [he, Option.map_some]

/-- An encounter at a place is what the instruction there does, in a block that can be reached. -/
theorem exists_of_mem_placed {g : FlowGraph} {p : Place} {e : Encounter} {always : Bool}
    (h : (p, e, always) ∈ t.placed f g) : g.isReachable p.block ∧
      always = g.isUnconditional p.block ∧ ∃ block i, f.blocks[p.block]? = some block ∧
        block.instructions[p.index]? = some i ∧ t.encounter i = some e := by
  obtain ⟨b, hb, h⟩ := List.mem_flatMap.mp h
  obtain ⟨⟨i, n⟩, hi, h⟩ := List.mem_filterMap.mp h
  obtain ⟨e, he, heq⟩ := Option.map_eq_some_iff.mp h
  cases heq
  replace hi := List.mk_mem_zipIdx_iff_getElem?.mp hi
  cases hblock : f.blocks[b]? with
  | none => simp [hblock] at hi
  | some block =>
    exact ⟨(List.mem_filter.mp hb).2, rfl, block, i, rfl, by simpa [hblock] using hi, he⟩

/-- The encounters come in the order of their places. -/
theorem pairwise_placed (t : Taint) (f : Function) (g : FlowGraph) :
    (t.placed f g).Pairwise fun a b ↦ a.1 < b.1 := by
  refine List.pairwise_flatMap.mpr ⟨fun b _ ↦ ?_, ?_⟩
  · refine List.pairwise_filterMap.mpr ?_
    have hindex (l : List Instruction) : l.zipIdx.Pairwise fun i j ↦ i.2 < j.2 := by
      rw [List.pairwise_iff_getElem]
      intro i j hi hj hlt
      simpa using hlt
    refine (hindex _).imp fun {i j} hlt a ha c hc ↦ ?_
    obtain ⟨e, -, rfl⟩ := Option.map_eq_some_iff.mp ha
    obtain ⟨d, -, rfl⟩ := Option.map_eq_some_iff.mp hc
    exact .inr ⟨rfl, hlt⟩
  · refine (List.pairwise_lt_range.filter _).imp fun {b c} hlt x hx y hy ↦ ?_
    obtain ⟨i, -, hi⟩ := List.mem_filterMap.mp hx
    obtain ⟨j, -, hj⟩ := List.mem_filterMap.mp hy
    obtain ⟨e, -, rfl⟩ := Option.map_eq_some_iff.mp hi
    obtain ⟨d, -, rfl⟩ := Option.map_eq_some_iff.mp hj
    exact .inl hlt

/-- The positions of arguments that may be the configurer. -/
theorem mem_positions {args : List Operand} {n : Nat} :
    n ∈ t.positions args ↔ ∃ o, args[n]? = some o ∧ t.contains o := by
  unfold positions
  simp only [List.mem_map, List.mem_filter, Prod.exists, exists_eq_right]
  exact exists_congr fun o ↦ and_congr_left' List.mk_mem_zipIdx_iff_getElem?

/-- A method call on what may be the configurer is encountered. -/
theorem encounter_invoke {dest : Option Program.ValueId} {receiver : Operand} {method : String}
    {args : List Operand} (h : t.contains receiver) :
    t.encounter (.call dest (.invoke receiver method) args) = some (.call method args) := by
  simp [encounter, h]

/-- Some argument may be the configurer exactly if there are positions of such. -/
theorem positions_ne_nil_iff {args : List Operand} :
    t.positions args ≠ [] ↔ ∃ a ∈ args, t.contains a := by
  rw [ne_eq, List.eq_nil_iff_forall_not_mem, not_forall_not]
  simp only [mem_positions]
  constructor
  · rintro ⟨n, o, ho, hc⟩
    exact ⟨o, List.mem_of_getElem? ho, hc⟩
  · rintro ⟨o, ho, hc⟩
    obtain ⟨n, hn⟩ := List.mem_iff_getElem?.mp ho
    exact ⟨n, o, hn, hc⟩

/-- Only calls are encounters. -/
theorem exists_of_encounter {e : Encounter} (h : t.encounter i = some e) :
    ∃ dest callee args, i = .call dest callee args := by
  unfold encounter at h
  split at h
  · exact ⟨_, _, _, rfl⟩
  · simp at h

/-- A call that is not of a method of the configurer does nothing with it or hands it over. -/
theorem encounter_call_of_not {dest : Option Program.ValueId} {callee : Program.Callee}
    {args : List Operand}
    (hcallee : ∀ receiver method, callee = .invoke receiver method → t.contains receiver = false) :
    t.encounter (.call dest callee args) = if t.positions args = [] then none
      else some (.handover ⟨callee, args, t.positions args⟩) := by
  unfold encounter
  cases hp : t.positions args with
  | nil =>
    cases callee with
    | static | dynamic => simp [hp]
    | invoke receiver method => simp [hp, hcallee receiver method rfl]
  | cons n rest =>
    cases callee with
    | static | dynamic => simp [hp]
    | invoke receiver method => simp [hp, hcallee receiver method rfl]

/-- Any other call of what may be the configurer hands it over. -/
theorem encounter_handover {dest : Option Program.ValueId} {callee : Program.Callee}
    {args : List Operand} (hcallee : ∀ receiver method, callee ≠ .invoke receiver method)
    (h : t.positions args ≠ []) : t.encounter (.call dest callee args) =
      some (.handover ⟨callee, args, t.positions args⟩) := by
  rw [encounter_call_of_not fun receiver method heq ↦ absurd heq (hcallee receiver method),
    if_neg h]

/-- An instruction is encountered as a method call exactly if it calls a method of the
configurer. -/
theorem encounter_eq_call_iff {method : String} {args : List Operand} :
    t.encounter i = some (.call method args) ↔ ∃ dest receiver,
      i = .call dest (.invoke receiver method) args ∧ t.contains receiver := by
  constructor
  · intro h
    obtain ⟨dest, callee, args', rfl⟩ := exists_of_encounter h
    by_cases hcallee : ∃ receiver method, callee = .invoke receiver method ∧ t.contains receiver
    · obtain ⟨receiver, method', rfl, hc⟩ := hcallee
      rw [encounter_invoke hc] at h
      cases h
      exact ⟨dest, receiver, rfl, hc⟩
    · rw [encounter_call_of_not (by simpa using hcallee)] at h
      split at h <;> simp at h
  · rintro ⟨dest, receiver, rfl, hc⟩
    exact encounter_invoke hc

/-- An instruction is encountered as a handover exactly if it calls anything else with what may be
the configurer. -/
theorem encounter_eq_handover_iff {h : Handover} :
    t.encounter i = some (.handover h) ↔ (∃ dest, i = .call dest h.callee h.args) ∧
      (∀ receiver method, h.callee = .invoke receiver method → t.contains receiver = false) ∧
      (∃ a ∈ h.args, t.contains a) ∧ h.positions = t.positions h.args := by
  rw [← positions_ne_nil_iff]
  constructor
  · intro he
    obtain ⟨dest, callee, args, rfl⟩ := exists_of_encounter he
    by_cases hcallee : ∃ receiver method, callee = .invoke receiver method ∧ t.contains receiver
    · obtain ⟨receiver, method, rfl, hc⟩ := hcallee
      rw [encounter_invoke hc] at he
      simp at he
    · replace hcallee : ∀ receiver method, callee = .invoke receiver method →
          t.contains receiver = false := by simpa using hcallee
      rw [encounter_call_of_not hcallee] at he
      split at he
      · simp at he
      · next hp =>
        cases he
        exact ⟨⟨dest, rfl⟩, hcallee, hp, rfl⟩
  · rintro ⟨⟨dest, rfl⟩, hcallee, hp, hpositions⟩
    rw [encounter_call_of_not hcallee, if_neg hp, ← hpositions]

/-- What a handover passes on are operands of the instruction. -/
theorem mem_operands_of_encounter {h : Handover} {a : Operand}
    (he : t.encounter i = some (.handover h)) (ha : a ∈ h.args) : a ∈ i.operands := by
  obtain ⟨⟨dest, rfl⟩, -⟩ := encounter_eq_handover_iff.mp he
  simp [Instruction.operands, ha]

/-- An encounter is what some instruction of a reachable block does. -/
theorem exists_of_mem_encounters {g : FlowGraph} {e : Encounter × Bool}
    (h : e ∈ t.encounters f g) :
    ∃ b, g.isReachable b ∧ ∃ i ∈ f.instructionsOf b, t.encounter i = some e.1 := by
  obtain ⟨b, hb, h⟩ := List.mem_flatMap.mp h
  obtain ⟨i, hi, h⟩ := List.mem_filterMap.mp h
  obtain ⟨encounter, he, rfl⟩ := Option.map_eq_some_iff.mp h
  exact ⟨b, (List.mem_filter.mp hb).2, i, hi, he⟩

end Taint
end Wiring.Analysis
