import Wiring.Proofs.Analysis.Accord
import Wiring.Proofs.Analysis.Marks
import Mathlib.Data.List.Basic

/-!
# Emptied blocks

A function one of whose blocks has lost its instructions. Where the block is not looked at, the
function is as it was; and while the function is being followed, the rest of the program cannot
tell, since the function is not entered again.
-/

namespace Wiring.Analysis

open Wiring.Program (Operand ValueId Instruction Callee Function Block)

/-- What is stored to an address is the same if the emptied block does not count, or stores nothing
there. -/
theorem storedTo_emptied {f : Function} {b : Nat} {flow : Option FlowGraph} {addr : Operand}
    (h : flow.all (fun g ↦ g.isReachable b) → ∀ o, .store addr o ∉ f.instructionsOf b) :
    storedTo (f.emptied b) flow addr = storedTo f flow addr := by
  unfold storedTo
  refine Function.flatMap_emptied fun block hb ↦ ?_
  dsimp only
  split
  · next hcounts =>
    refine (List.filterMap_eq_nil_iff.mpr fun i hi ↦ ?_).symm
    split
    · next a value =>
      rw [if_neg]
      rintro rfl
      exact h hcounts value (by rw [Function.instructionsOf, hb]; exact hi)
    · rfl
  · rfl

/-- The frame with a block of its function emptied. -/
def Frame.emptied (frame : Frame) (b : Nat) : Frame :=
  { frame with function := frame.function.emptied b }

/-- The environment with a block of one of its functions emptied. -/
def Environment.emptied (env : Environment) (f : Function) (b : Nat) : Environment :=
  { env with program := env.program.addFunction (f.emptied b) }

/-- The function of a name may be entered if there is one. -/
theorem Environment.mem_functionNames_iff {env : Environment} {name : String} :
    name ∈ env.functionNames ↔ (env.program.function? name).isSome := by
  unfold functionNames Program.function? Catalogue.find?
  rw [List.find?_isSome, List.mem_map]
  simp [Keyed.key]

section Emptied

variable {env : Environment} {f : Function} {b : Nat}
  (h : env.program.function? f.name = some f)
include h

/-- Looking up a function gives what it has become. -/
theorem Environment.function?_emptied (name : String) :
    (env.emptied f b).program.function? name =
      (env.program.function? name).map (f.emptiedIn b) := by
  have hkey : Keyed.key (f.emptied b) = f.name := rfl
  refine (Catalogue.find?_file env.program.functions (f.emptied b) name).trans ?_
  rw [hkey]
  by_cases hname : f.name = name
  · subst hname
    rw [if_pos rfl, h, Option.map_some, Function.emptiedIn, if_pos rfl]
  · rw [if_neg hname]
    change env.program.function? name = _
    cases hg : env.program.function? name with
    | none => rfl
    | some g =>
      have hne : ¬ g.name = f.name := by
        rw [Environment.name_of_function? hg]
        exact Ne.symm hname
      rw [Option.map_some, Function.emptiedIn, if_neg hne]

/-- The same functions may be entered. -/
theorem Environment.mayEnter_emptied {stack : List String} {name : String} :
    (env.emptied f b).MayEnter stack name ↔ env.MayEnter stack name := by
  unfold Environment.MayEnter
  rw [Environment.mem_functionNames_iff, Environment.mem_functionNames_iff,
    Environment.function?_emptied h, Option.isSome_map]
  rfl

/-- Resolution cannot tell the environments apart, but that the function has changed. -/
theorem mirrors_emptied : Mirrors env (env.emptied f b) (f.emptiedIn b) where
  vocabulary := rfl
  global _ := rfl
  followed callee := by
    have hstatic : (env.emptied f b).staticCallee callee =
        (env.staticCallee callee).map (f.emptiedIn b) := by
      unfold Environment.staticCallee
      split
      · exact Environment.function?_emptied h _
      · exact Environment.function?_emptied h _
      · rfl
      · rfl
    unfold Environment.followed
    rw [hstatic]
    cases hg : env.staticCallee callee with
    | none => rfl
    | some g =>
      have hexternal : (f.emptiedIn b g).isExternal = g.isExternal := by
        unfold Function.emptiedIn
        split
        · next hname =>
          have hg := Environment.function?_of_staticCallee hg
          rw [hname, h] at hg
          cases hg
          exact Function.isExternal_emptied
        · rfl
      rw [Option.map_some, Option.filter_some, Option.filter_some, hexternal]
      split <;> rfl

/-- While the function is being followed, no question has another answer than before. -/
theorem accord_emptied : Accord env (env.emptied f b) (f.emptiedIn b) (f.name ∈ ·) where
  toMirrors := mirrors_emptied h
  name_counterpart := Function.name_emptiedIn
  mayEnter _ _ := Environment.mayEnter_emptied h
  enter hstack _ := List.mem_cons_of_mem _ hstack
  counterpart_eq {stack g} hstack hg := by
    refine if_neg fun hname ↦ hg.2.1 ?_
    rwa [hname]

end Emptied

namespace Taint

/-- The instruction puts what may be the configurer somewhere: in a local, a slice or elsewhere. -/
def keeps (t : Taint) : Instruction → Bool
  | .store _ value => t.contains value
  | .slice _ elements => elements.any t.contains
  | _ => false

/-- Whoever loses the configurer has put it somewhere. -/
theorem keeps_of_lost {t : Taint} {f : Function} {i : Instruction} (h : t.lost f i) :
    t.keeps i := by
  cases i with
  | store addr value => exact ((Bool.and_eq_true ..).mp h).1
  | slice dest elements => exact h
  | call | makeInterface | changeInterface | extract | alloc | load | binOp | not | phi
  | opaqueValue => cases h

/-- The block puts the configurer nowhere, and no other block uses a value of the block that may be
the configurer, or stores what may be the configurer to a value of the block. -/
structure Spares (t : Taint) (f : Function) (b : Nat) : Prop where
  unkept : ∀ i ∈ f.instructionsOf b, t.keeps i = false
  unshared {c : Nat} {i : Instruction} {id : ValueId} (hc : c ≠ b) (hi : i ∈ f.instructionsOf c)
    (hdef : f.DefinesIn b id) (hid : .value id ∈ i.operands) : t.contains (.value id) = false
  unstored {c : Nat} {id : ValueId} {value : Operand} (hc : c ≠ b)
    (hi : .store (.value id) value ∈ f.instructionsOf c) (hdef : f.DefinesIn b id) :
    t.contains value = false

section Spares

variable {f : Function} {b c : Nat} {params : List Nat} {i : Instruction} {o : Operand}

/-- An address that is not defined in the block is one of a local as before. -/
theorem localOf_emptied (h : ∀ id, o = .value id → ¬ f.DefinesIn b id) :
    localOf (f.emptied b) o = localOf f o := by
  unfold localOf
  split
  · next id => rw [Function.definition_emptied (h id rfl)]
  · rfl

variable (h : (ofParams f params).Spares f b) (hc : c ≠ b) (hi : i ∈ f.instructionsOf c)
include h hc hi

/-- What is stored may be the configurer only if the address is one of a local as before. -/
theorem Spares.localOf_eq {addr value : Operand} (hstore : i = .store addr value)
    (hvalue : (ofParams f params).contains value) :
    localOf (f.emptied b) addr = localOf f addr := by
  subst hstore
  refine localOf_emptied fun id haddr hdef ↦ ?_
  subst haddr
  rw [h.unstored hc hi hdef] at hvalue
  cases hvalue

/-- Another block's instruction derives the same mark. -/
theorem Spares.derived_emptied {t : Taint}
    (ht : ∀ o, t.contains o → (ofParams f params).contains o) :
    t.derived (f.emptied b) i = t.derived f i := by
  cases i with
  | store addr value =>
    by_cases hvalue : t.contains value
    · simp only [derived, hvalue, if_true, h.localOf_eq hc hi rfl (ht value hvalue)]
    · simp only [derived, hvalue]
      rfl
  | load dest addr => cases addr <;> rfl
  | call | makeInterface | changeInterface | extract | alloc | binOp | not | phi | slice
  | opaqueValue => rfl

/-- Another block's instruction loses the configurer as before. -/
theorem Spares.lost_emptied : (ofParams f params).lost (f.emptied b) i =
    (ofParams f params).lost f i := by
  cases i with
  | store addr value =>
    by_cases hvalue : (ofParams f params).contains value
    · simp only [lost, h.localOf_eq hc hi rfl hvalue]
    · simp only [lost, hvalue]
      rfl
  | call | makeInterface | changeInterface | extract | alloc | load | binOp | not | phi | slice
  | opaqueValue => rfl

omit hc hi

/-- Without the block there are no more marks. -/
theorem Spares.mem_marks {m : Mark} (hm : m ∈ (ofParams (f.emptied b) params).marks) :
    m ∈ (ofParams f params).marks := by
  refine ofParams_induction (S := (· ∈ (ofParams f params).marks))
    (fun t hparams ht i hi m hm ↦ ?_) m hm
  obtain ⟨c, hc, hi⟩ := Function.mem_instructions_emptied.mp hi
  have hcontains (o : Operand) : t.contains o → (ofParams f params).contains o :=
    contains_mono (by rw [hparams, params_ofParams]) ht
  rw [h.derived_emptied hc hi hcontains] at hm
  exact closed_ofParams f params i (Function.mem_instructions_iff.mpr ⟨c, hi⟩) m
    (derived_of_derived (fun o _ ↦ hcontains o) (fun id ↦ ht _) hm)

/-- Another block's instruction works on the configurer without the block only if it does with
it. -/
theorem Spares.contains_of_emptied (ho : (ofParams (f.emptied b) params).contains o) :
    (ofParams f params).contains o :=
  contains_mono (by rw [params_ofParams, params_ofParams]) (fun _ ↦ h.mem_marks) ho

/-- Without the block there are no fewer marks, but for values that the block defines. -/
theorem Spares.mem_marks_emptied_or {m : Mark} (hm : m ∈ (ofParams f params).marks) :
    m ∈ (ofParams (f.emptied b) params).marks ∨ ∃ id, m = .value id ∧ f.DefinesIn b id := by
  suffices hkept : m ∈ (ofParams f params).marks ∧
      (m ∈ (ofParams (f.emptied b) params).marks ∨ ∃ id, m = .value id ∧ f.DefinesIn b id) from
    hkept.2
  refine ofParams_induction (S := fun m ↦ m ∈ (ofParams f params).marks ∧
    (m ∈ (ofParams (f.emptied b) params).marks ∨ ∃ id, m = .value id ∧ f.DefinesIn b id))
    (fun t hparams ht i hi m hm ↦ ?_) m hm
  have hcontains (o : Operand) : t.contains o → (ofParams f params).contains o :=
    contains_mono (by rw [hparams, params_ofParams]) fun m hm ↦ (ht m hm).1
  refine ⟨closed_ofParams f params i hi m
    (derived_of_derived (fun o _ ↦ hcontains o) (fun id hid ↦ (ht _ hid).1) hm), ?_⟩
  obtain ⟨c, hi⟩ := Function.mem_instructions_iff.mp hi
  by_cases hc : c = b
  · subst hc
    rcases dest_or_store_of_derived hm with ⟨id, rfl, hdest⟩ | ⟨addr, value, rfl, hvalue⟩
    · exact .inr ⟨id, rfl, i, hi, hdest⟩
    · have hnot : (ofParams f params).contains value = false := h.unkept _ hi
      rw [hcontains value hvalue] at hnot
      cases hnot
  · rw [← h.derived_emptied hc hi hcontains] at hm
    refine .inl (closed_ofParams (f.emptied b) params i
      (Function.mem_instructions_emptied.mpr ⟨c, hc, hi⟩) m (derived_of_derived ?_ ?_ hm))
    · -- what may be the configurer is not defined in the block, so its mark is there without it
      intro o ho ht'
      unfold contains at ht' ⊢
      cases o with
      | param index => simpa [hparams] using ht'
      | value id =>
        rcases (ht _ (by simpa using ht')).2 with hmark | ⟨id', hid', hdef⟩
        · simpa using hmark
        · cases hid'
          have hnot := h.unshared hc hi hdef ho
          rw [hcontains (.value id) (by simpa [contains] using ht')] at hnot
          cases hnot
      | const | global | function => cases ht'
    · intro id hid
      rcases (ht _ hid).2 with hmark | ⟨id', hid', -⟩
      · exact hmark
      · cases hid'

include hc hi

/-- Another block's instruction works on the configurer without the block exactly if it does with
it. -/
theorem Spares.contains_emptied (ho : o ∈ i.operands) :
    (ofParams (f.emptied b) params).contains o = (ofParams f params).contains o := by
  rw [Bool.eq_iff_iff]
  refine ⟨h.contains_of_emptied, fun hcontains ↦ ?_⟩
  cases o with
  | param index =>
    simpa [contains] using hcontains
  | value id =>
    rcases h.mem_marks_emptied_or (by simpa [contains] using hcontains) with hmark | ⟨_, ⟨⟩, hdef⟩
    · simpa [contains] using hmark
    · have hnot := h.unshared hc hi hdef ho
      rw [hcontains] at hnot
      cases hnot
  | const | global | function => cases hcontains

omit hc hi

/-- Without the block the configurer gets lost exactly if it does with it. -/
theorem Spares.escapes_emptied : (ofParams (f.emptied b) params).escapes (f.emptied b) =
    (ofParams f params).escapes f := by
  have hlost {c : Nat} {i : Instruction} (hc : c ≠ b) (hi : i ∈ f.instructionsOf c) :
      (ofParams (f.emptied b) params).lost (f.emptied b) i = (ofParams f params).lost f i := by
    rw [← h.lost_emptied hc hi]
    exact lost_congr fun o ho ↦ h.contains_emptied hc hi ho
  unfold escapes
  rw [Bool.eq_iff_iff, List.any_eq_true, List.any_eq_true]
  constructor
  · rintro ⟨i, hi, hl⟩
    obtain ⟨c, hc, hi⟩ := Function.mem_instructions_emptied.mp hi
    rw [hlost hc hi] at hl
    exact ⟨i, Function.mem_instructions_iff.mpr ⟨c, hi⟩, hl⟩
  · rintro ⟨i, hi, hl⟩
    obtain ⟨c, hi⟩ := Function.mem_instructions_iff.mp hi
    have hc : c ≠ b := by
      rintro rfl
      have hkept := keeps_of_lost hl
      rw [h.unkept i hi] at hkept
      cases hkept
    rw [← hlost hc hi] at hl
    exact ⟨i, Function.mem_instructions_emptied.mpr ⟨c, hc, hi⟩, hl⟩

/-- Where the block is not reachable, the encounters are the same. -/
theorem Spares.encounters_emptied {g : FlowGraph} (hb : ¬ g.isReachable b) :
    (ofParams (f.emptied b) params).encounters (f.emptied b) g =
      (ofParams f params).encounters f g := by
  refine List.flatMap_congr fun c hmem ↦ ?_
  have hc : c ≠ b := by
    rintro rfl
    exact hb (List.mem_filter.mp hmem).2
  change ((f.emptied b).instructionsOf c).filterMap _ = (f.instructionsOf c).filterMap _
  rw [Function.instructionsOf_emptied hc]
  refine List.filterMap_congr fun i hi ↦ ?_
  rw [encounter_congr fun o ho ↦ h.contains_emptied hc hi ho]

end Spares
end Taint
end Wiring.Analysis
