import Mathlib.Data.List.Perm.Subperm
import Mathlib.Data.Set.Basic
import Wiring.Proofs.Analysis.Marks

/-!
# How the configurer spreads

The taint of a function said by rules: which values may be the configurer, and which locals may hold
it, given what the instructions do with it. The marks are the least sets that the rules allow. They
are found by going over the instructions again and again, in whatever order, and it is noticed on
the way if the configurer gets lost.
-/

namespace Wiring.Analysis.Taint

open Wiring.Program (Operand ValueId Instruction Function Block)

/-! ### The rules -/

/-- The operand may be the configurer, if the values may. -/
def Carries (params : List Nat) (values : Set ValueId) : Operand → Prop
  | .param index => index.toNat ∈ params
  | .value id => id ∈ values
  | .const _ | .global _ | .function _ => False

/-- The operand is the address of a local of the function. -/
def IsLocal (f : Function) (addr : Operand) (id : ValueId) : Prop :=
  addr = .value id ∧ ∃ dest typeName, f.definition id = some (.alloc dest typeName)

/-- The values and locals are closed under what the instructions do with the configurer. -/
structure Propagates (f : Function) (params : List Nat) (values locals : Set ValueId) : Prop where
  makeInterface : ∀ dest value typeName, .makeInterface dest value typeName ∈ f.instructions →
    Carries params values value → dest ∈ values
  changeInterface : ∀ dest value, .changeInterface dest value ∈ f.instructions →
    Carries params values value → dest ∈ values
  phi : ∀ dest edges, .phi dest edges ∈ f.instructions →
    (∃ e ∈ edges, Carries params values e) → dest ∈ values
  store : ∀ addr value, .store addr value ∈ f.instructions → Carries params values value →
    ∀ id, IsLocal f addr id → id ∈ locals
  load : ∀ dest addr, .load dest (.value addr) ∈ f.instructions → addr ∈ locals → dest ∈ values

/-- The configurer is stored to something else than a local, or put in a slice. -/
def Loses (f : Function) (params : List Nat) (values : Set ValueId) : Prop :=
  (∃ addr value, .store addr value ∈ f.instructions ∧ Carries params values value ∧
    ∀ id, ¬ IsLocal f addr id) ∨
  ∃ dest elements, .slice dest elements ∈ f.instructions ∧ ∃ e ∈ elements, Carries params values e

variable {f g : Function} {params : List Nat} {V W L : Set ValueId} {t : Taint} {i : Instruction}
  {l : List Instruction} {m : Mark} {o : Operand} {id : ValueId}

theorem Carries.mono (h : Carries params V o) (hsub : V ⊆ W) : Carries params W o := by
  cases o with
  | param => exact h
  | value => exact hsub h
  | const | global | function => exact h

/-! ### The marks -/

/-- The values that have marks. -/
def values (t : Taint) : Set ValueId := {id | .value id ∈ t.marks}

/-- The locals that have marks. -/
def locals (t : Taint) : Set ValueId := {id | .holder id ∈ t.marks}

theorem contains_iff : t.contains o ↔ Carries t.params t.values o := by
  cases o <;> simp [contains, Carries, Taint.values]

theorem isLocal_iff : IsLocal f o id ↔ localOf f o = some id := localOf_eq_some_iff.symm

/-- Marks to which nothing is to be added are closed under the rules. -/
theorem Closed.propagates (h : Closed f t) : Propagates f t.params t.values t.locals where
  makeInterface dest value typeName hi hc := h _ hi _ (by simp [derived, contains_iff.mpr hc])
  changeInterface dest value hi hc := h _ hi _ (by simp [derived, contains_iff.mpr hc])
  phi dest edges hi he := by
    obtain ⟨e, he, hc⟩ := he
    have hany : edges.any t.contains := List.any_eq_true.mpr ⟨e, he, contains_iff.mpr hc⟩
    exact h _ hi _ (by simp [derived, hany])
  store addr value hi hc id hid :=
    h _ hi _ (by simp [derived, contains_iff.mpr hc, isLocal_iff.mp hid])
  load dest addr hi haddr := by
    have hmem : t.marks.contains (.holder addr) := List.contains_iff_mem.mpr haddr
    exact h _ hi _ (by rw [derived, if_pos hmem])

/-- The mark says of a value that it is among these values, or of a local that it is among these
locals. -/
inductive Within (V L : Set ValueId) : Mark → Prop
  | value {id : ValueId} (h : id ∈ V) : Within V L (.value id)
  | holder {id : ValueId} (h : id ∈ L) : Within V L (.holder id)

theorem within_value_iff : Within V L (.value id) ↔ id ∈ V := by
  refine ⟨fun h ↦ ?_, .value⟩
  cases h
  assumption

theorem within_holder_iff : Within V L (.holder id) ↔ id ∈ L := by
  refine ⟨fun h ↦ ?_, .holder⟩
  cases h
  assumption

/-- What the rules allow has all the marks. -/
theorem Propagates.subset (h : Propagates f params V L) :
    (ofParams f params).values ⊆ V ∧ (ofParams f params).locals ⊆ L := by
  have hall : ∀ m ∈ (ofParams f params).marks, Within V L m := by
    refine ofParams_induction fun t hparams ht i hi m hm ↦ ?_
    have hcarries {o : Operand} (ho : t.contains o) : Carries params V o := by
      rw [contains_iff, hparams] at ho
      exact ho.mono fun id hid ↦ within_value_iff.mp (ht _ hid)
    unfold derived at hm
    split at hm
    · rw [Option.ite_none_right_eq_some, Option.some.injEq] at hm
      exact hm.2 ▸ .value (h.makeInterface _ _ _ hi (hcarries hm.1))
    · rw [Option.ite_none_right_eq_some, Option.some.injEq] at hm
      exact hm.2 ▸ .value (h.changeInterface _ _ hi (hcarries hm.1))
    · rw [Option.ite_none_right_eq_some, Option.some.injEq, List.any_eq_true] at hm
      obtain ⟨⟨e, he, hc⟩, rfl⟩ := hm
      exact .value (h.phi _ _ hi ⟨e, he, hcarries hc⟩)
    · rw [Option.ite_none_right_eq_some, Option.some.injEq] at hm
      have hmem := within_holder_iff.mp (ht _ (List.contains_iff_mem.mp hm.1))
      exact hm.2 ▸ .value (h.load _ _ hi hmem)
    · rw [Option.ite_none_right_eq_some, Option.map_eq_some_iff] at hm
      obtain ⟨hc, id, hid, rfl⟩ := hm
      exact .holder (h.store _ _ hi (hcarries hc) id (isLocal_iff.mpr hid))
    · cases hm
  exact ⟨fun _ hid ↦ within_value_iff.mp (hall _ hid),
    fun _ hid ↦ within_holder_iff.mp (hall _ hid)⟩

theorem propagates_ofParams (f : Function) (params : List Nat) :
    Propagates f params (ofParams f params).values (ofParams f params).locals := by
  have h := (closed_ofParams f params).propagates
  rwa [params_ofParams] at h

/-- Whether the configurer gets lost, said by the rules. -/
theorem escapes_iff : t.escapes f ↔ Loses f t.params t.values := by
  unfold escapes Loses
  simp only [isLocal_iff, ← contains_iff, ← Option.eq_none_iff_forall_ne_some]
  rw [List.any_eq_true]
  constructor
  · rintro ⟨i, hi, h⟩
    unfold lost at h
    split at h
    · rw [Bool.and_eq_true, Option.isNone_iff_eq_none] at h
      exact .inl ⟨_, _, hi, h⟩
    · rw [List.any_eq_true] at h
      exact .inr ⟨_, _, hi, h⟩
    · cases h
  · rintro (⟨addr, value, hi, hc, haddr⟩ | ⟨dest, elements, hi, he⟩)
    · exact ⟨_, hi, by simp [lost, hc, haddr]⟩
    · exact ⟨_, hi, List.any_eq_true.mpr he⟩

/-! ### The passes -/

/-- What one instruction adds, and whether the configurer has got lost in it or before. -/
def look (f : Function) (s : Taint × Bool) (i : Instruction) : Taint × Bool :=
  (step f s.1 i, s.2 || s.1.lost f i)

/-- Passes over a list of instructions, until one adds nothing: how many passes add marks, and what
is found in the end. -/
inductive Passes (f : Function) (l : List Instruction) :
    Taint × Bool → Nat → Taint × Bool → Prop
  | last {s : Taint × Bool} (h : (l.foldl (look f) s).1 = s.1) : Passes f l s 0 (l.foldl (look f) s)
  | more {s s' : Taint × Bool} {n : Nat} (h : (l.foldl (look f) s).1 ≠ s.1)
      (hrest : Passes f l (l.foldl (look f) s) n s') : Passes f l s (n + 1) s'

theorem fst_foldl_look (f : Function) (l : List Instruction) (s : Taint × Bool) :
    (l.foldl (look f) s).1 = l.foldl (step f) s.1 := by
  induction l generalizing s with
  | nil => rfl
  | cons i l ih => exact ih (look f s i)

/-- A pass that adds nothing sees where the configurer gets lost by all marks. -/
theorem snd_foldl_look {s : Taint × Bool} (h : ∀ i ∈ l, step f s.1 i = s.1) :
    (l.foldl (look f) s).2 = (s.2 || l.any (s.1.lost f)) := by
  induction l generalizing s with
  | nil => simp
  | cons i l ih =>
    rw [List.forall_mem_cons] at h
    have hfst : (look f s i).1 = s.1 := h.1
    rw [List.foldl_cons, ih (hfst.symm ▸ h.2), hfst, List.any_cons, ← Bool.or_assoc]
    rfl

/-- A pass adds a mark or changes nothing. -/
theorem foldl_eq_or_lt (f : Function) (l : List Instruction) (t : Taint) :
    l.foldl (step f) t = t ∨ t.marks.length < (l.foldl (step f) t).marks.length := by
  induction l generalizing t with
  | nil => exact .inl rfl
  | cons i l ih =>
    rw [List.foldl_cons]
    rcases step_eq_or_lt f t i with heq | hlt
    · rw [heq]
      exact ih t
    · exact .inr (hlt.trans_le (length_le_foldl f l (step f t i)))

/-- The mark that an instruction can add, whatever marks there are. -/
def target (f : Function) : Instruction → Option Mark
  | .makeInterface dest _ _ | .changeInterface dest _ | .phi dest _ | .load dest _ =>
    some (.value dest)
  | .store addr _ => (localOf f addr).map .holder
  | _ => none

theorem target_of_derived (h : t.derived f i = some m) : target f i = some m := by
  unfold derived at h
  split at h
  all_goals first
    | rw [Option.ite_none_right_eq_some] at h
      exact h.2
    | cases h

/-- The configurer gets lost with more marks where it does with fewer. -/
theorem lost_mono {s : Taint} (hp : t.params = s.params) (hm : ∀ m ∈ t.marks, m ∈ s.marks)
    (h : t.lost f i) : s.lost f i := by
  unfold lost at h ⊢
  split at h
  · rw [Bool.and_eq_true] at h ⊢
    exact ⟨contains_mono hp hm h.1, h.2⟩
  · rw [List.any_eq_true] at h ⊢
    obtain ⟨o, ho, hc⟩ := h
    exact ⟨o, ho, contains_mono hp hm hc⟩
  · cases h

/-- Passes are under way: they have found nothing but what is true of the function, each mark once
and for an instruction that adds it. -/
structure Underway (f : Function) (params : List Nat) (s : Taint × Bool) : Prop where
  given : s.1.params = params
  nodup : s.1.marks.Nodup
  targets : ∀ m ∈ s.1.marks, m ∈ f.instructions.filterMap (target f)
  marks : ∀ m ∈ s.1.marks, m ∈ (ofParams f params).marks
  lost : s.2 → (ofParams f params).escapes f

namespace Underway

variable {s : Taint × Bool}

theorem start (f : Function) (params : List Nat) : Underway f params ({ params }, false) where
  given := rfl
  nodup := .nil
  targets := by simp
  marks := by simp
  lost := by simp

/-- One instruction adds what is true of the function. -/
theorem look (h : Underway f params s) (hi : i ∈ f.instructions) :
    Underway f params (look f s i) := by
  have hparams : s.1.params = (ofParams f params).params := by rw [h.given, params_ofParams]
  have hlost : (s.2 || s.1.lost f i) → (ofParams f params).escapes f := by
    rw [Bool.or_eq_true]
    rintro (hs | hs)
    · exact h.lost hs
    · exact List.any_eq_true.mpr ⟨i, hi, lost_mono hparams h.marks hs⟩
  unfold Taint.look step
  cases hm : s.1.derived f i with
  | none => exact ⟨h.given, h.nodup, h.targets, h.marks, hlost⟩
  | some m =>
    dsimp only
    unfold add
    split
    · exact ⟨h.given, h.nodup, h.targets, h.marks, hlost⟩
    · next hnot =>
      have htarget : m ∈ f.instructions.filterMap (target f) :=
        List.mem_filterMap.mpr ⟨i, hi, target_of_derived hm⟩
      have hmark : m ∈ (ofParams f params).marks :=
        closed_ofParams f params i hi m (derived_of_derived
          (fun o _ ho ↦ contains_mono hparams h.marks ho) (fun id ↦ h.marks (.holder id)) hm)
      exact ⟨h.given, List.nodup_cons.mpr ⟨hnot, h.nodup⟩,
        List.forall_mem_cons.mpr ⟨htarget, h.targets⟩,
        List.forall_mem_cons.mpr ⟨hmark, h.marks⟩, hlost⟩

/-- A pass adds what is true of the function. -/
theorem foldl_look (h : Underway f params s) (hl : ∀ i ∈ l, i ∈ f.instructions) :
    Underway f params (l.foldl (Taint.look f) s) :=
  List.foldlRecOn l (Taint.look f) h fun _ hs i hi ↦ hs.look (hl i hi)

/-- There are no more marks than instructions. -/
theorem length_le (h : Underway f params s) : s.1.marks.length ≤ f.instructions.length :=
  (h.nodup.subperm h.targets).length_le.trans (List.length_filterMap_le _ _)

/-- Where a pass adds nothing, all marks are there. -/
theorem mem_marks_iff (h : Underway f params s) (hl : ∀ i, i ∈ l ↔ i ∈ f.instructions)
    (hlast : l.foldl (step f) s.1 = s.1) (m : Mark) :
    m ∈ s.1.marks ↔ m ∈ (ofParams f params).marks := by
  have hclosed : Closed f s.1 := fun i hi m hm ↦
    mem_of_step_eq (step_eq_of_foldl hlast ((hl i).mpr hi)) hm
  have hsub := hclosed.propagates.subset
  rw [h.given] at hsub
  refine ⟨h.marks m, fun hm ↦ ?_⟩
  cases m with
  | value id => exact hsub.1 hm
  | holder id => exact hsub.2 hm

/-- Passes come to an end, each but the last adding a mark, and find all that is true of the
function. -/
theorem exists_passes (h : Underway f params s) (hl : ∀ i, i ∈ l ↔ i ∈ f.instructions) :
    ∃ n s', Passes f l s n s' ∧ s.1.marks.length + n ≤ f.instructions.length ∧
      (∀ m, m ∈ s'.1.marks ↔ m ∈ (ofParams f params).marks) ∧
      s'.2 = (ofParams f params).escapes f := by
  induction hk : f.instructions.length - s.1.marks.length using Nat.strongRecOn generalizing s with
  | ind k ih =>
    have hnext := h.foldl_look fun i ↦ (hl i).mp
    by_cases hlast : (l.foldl (Taint.look f) s).1 = s.1
    · have hsteps : l.foldl (step f) s.1 = s.1 := by rw [← fst_foldl_look, hlast]
      have hmarks := h.mem_marks_iff hl hsteps
      refine ⟨0, _, .last hlast, h.length_le, by rwa [hlast], ?_⟩
      rw [Bool.eq_iff_iff]
      refine ⟨hnext.lost, fun hlost ↦ ?_⟩
      rw [snd_foldl_look fun i ↦ step_eq_of_foldl hsteps, Bool.or_eq_true]
      obtain ⟨i, hi, hlost⟩ := List.any_eq_true.mp hlost
      have hparams : (ofParams f params).params = s.1.params := by rw [h.given, params_ofParams]
      exact .inr (List.any_eq_true.mpr
        ⟨i, (hl i).mpr hi, lost_mono hparams (fun m ↦ (hmarks m).mpr) hlost⟩)
    · have hlt : s.1.marks.length < (l.foldl (Taint.look f) s).1.marks.length := by
        rw [fst_foldl_look] at hlast ⊢
        exact (foldl_eq_or_lt f l s.1).resolve_left hlast
      have hle := hnext.length_le
      obtain ⟨n, s', hpasses, hcount, hmarks, hlost⟩ := ih _ (by omega) hnext rfl
      exact ⟨n + 1, s', .more hlast hpasses, by omega, hmarks, hlost⟩

end Underway

/-- Passes over the instructions in their order end with the taint of the function. -/
theorem Passes.fst_eq {s s' : Taint × Bool} {n : Nat} (h : Passes f f.instructions s n s') :
    s'.1 = close f s.1 := by
  induction h with
  | @last s h =>
    rw [fst_foldl_look] at h ⊢
    have hpass : pass f s.1 = s.1 := h
    rw [close, dif_pos hpass]
    exact h
  | @more s s' n h _ ih =>
    rw [fst_foldl_look] at h ih
    have hpass : pass f s.1 ≠ s.1 := h
    calc s'.1 = close f (pass f s.1) := ih
      _ = close f s.1 := by rw [close.eq_def f s.1, dif_neg hpass]

/-! ### The order of blocks -/

/-- The second function has the blocks of the first, as far as their instructions go, in some other
order. -/
def Rearranged (f g : Function) : Prop :=
  (g.blocks.map Block.instructions).Perm (f.blocks.map Block.instructions)

theorem Rearranged.perm (h : Rearranged f g) : g.instructions.Perm f.instructions := by
  have hflat := List.Perm.flatten h
  rwa [← List.flatMap_def, ← List.flatMap_def] at hflat

theorem Rearranged.symm (h : Rearranged f g) : Rearranged g f := List.Perm.symm h

/-- If no value is defined twice, the order of blocks does not tell which values are locals. -/
theorem Rearranged.isLocal_iff (h : Rearranged f g) (hf : f.definedValues.Nodup) (addr : Operand)
    (id : ValueId) : IsLocal g addr id ↔ IsLocal f addr id := by
  have hg : g.definedValues.Nodup := (h.perm.filterMap Instruction.dest).nodup_iff.mpr hf
  have hdefinition {f g : Function} (hg : g.definedValues.Nodup)
      (hsub : ∀ i ∈ f.instructions, i ∈ g.instructions) {i : Instruction}
      (hi : f.definition id = some i) : g.definition id = some i :=
    Function.definition_eq hg (hsub i (List.mem_of_find?_eq_some hi))
      (by simpa using List.find?_some hi)
  refine and_congr_right fun _ ↦ exists_congr fun dest ↦ exists_congr fun typeName ↦ ?_
  exact ⟨hdefinition hf fun i ↦ h.perm.mem_iff.mp, hdefinition hg fun i ↦ h.perm.mem_iff.mpr⟩

/-- What has a mark as a local is one. -/
theorem exists_alloc_of_mem_locals (h : id ∈ (ofParams f params).locals) :
    ∃ dest typeName, f.definition id = some (.alloc dest typeName) := by
  have hall : ∀ m ∈ (ofParams f params).marks, ∀ id, m = .holder id →
      ∃ dest typeName, f.definition id = some (.alloc dest typeName) := by
    refine ofParams_induction fun t _ _ i _ m hm id hid ↦ ?_
    subst hid
    rcases dest_or_store_of_derived hm with ⟨_, ⟨⟩, _⟩ | ⟨addr, value, rfl, hc⟩
    simp only [derived, hc, if_true, Option.map_eq_some_iff, Mark.holder.injEq] at hm
    obtain ⟨_, hid, rfl⟩ := hm
    exact (localOf_eq_some_iff.mp hid).2
  exact hall _ h id rfl

/-- Sets stay closed in another order of blocks, if the configurer is stored to no other locals. -/
theorem Propagates.rearranged (hf : Propagates f params V L) (h : Rearranged f g)
    (hlocal : ∀ addr value, .store addr value ∈ f.instructions → Carries params V value →
      ∀ id, IsLocal g addr id → IsLocal f addr id) : Propagates g params V L where
  makeInterface dest value typeName hi :=
    hf.makeInterface dest value typeName (h.perm.mem_iff.mp hi)
  changeInterface dest value hi := hf.changeInterface dest value (h.perm.mem_iff.mp hi)
  phi dest edges hi := hf.phi dest edges (h.perm.mem_iff.mp hi)
  store addr value hi hc id hid :=
    have hi := h.perm.mem_iff.mp hi
    hf.store addr value hi hc id (hlocal addr value hi hc id hid)
  load dest addr hi := hf.load dest addr (h.perm.mem_iff.mp hi)

/-- The configurer gets lost as well in another order of blocks, if it is stored to no other
locals. -/
theorem Loses.rearranged (hf : Loses f params V) (h : Rearranged f g)
    (hlocal : ∀ addr value, .store addr value ∈ f.instructions → Carries params V value →
      ∀ id, IsLocal g addr id → IsLocal f addr id) : Loses g params V := by
  rcases hf with ⟨addr, value, hi, hc, hnone⟩ | ⟨dest, elements, hi, he⟩
  · exact .inl ⟨addr, value, h.perm.mem_iff.mpr hi, hc, fun id hid ↦
      hnone id (hlocal addr value hi hc id hid)⟩
  · exact .inr ⟨dest, elements, h.perm.mem_iff.mpr hi, he⟩

/-- In another order of blocks the result is the same exactly if the configurer is stored to the
same locals: the first instruction that defines a value tells whether it is one. -/
theorem Rearranged.ofParams_eq_iff (h : Rearranged f g) (params : List Nat) :
    ((ofParams g params).values = (ofParams f params).values ∧
      (ofParams g params).locals = (ofParams f params).locals ∧
      (ofParams g params).escapes g = (ofParams f params).escapes f) ↔
    ∀ addr value, .store addr value ∈ f.instructions →
      Carries params (ofParams f params).values value →
        ∀ id, IsLocal g addr id ↔ IsLocal f addr id := by
  have hf := propagates_ofParams f params
  have hg := propagates_ofParams g params
  constructor
  · rintro ⟨hvalues, hlocals, -⟩ addr value hi hc id
    constructor
    · intro hid
      have hmem := hg.store addr value (h.perm.mem_iff.mpr hi) (hvalues ▸ hc) id hid
      exact ⟨hid.1, exists_alloc_of_mem_locals (hlocals ▸ hmem)⟩
    · intro hid
      have hmem := hf.store addr value hi hc id hid
      exact ⟨hid.1, exists_alloc_of_mem_locals (f := g) (hlocals ▸ hmem)⟩
  · intro hsame
    have hle := (hf.rearranged h fun addr value hi hc id ↦ (hsame addr value hi hc id).mp).subset
    have hge := (hg.rearranged h.symm fun addr value hi hc id ↦
      (hsame addr value (h.perm.mem_iff.mp hi) (hc.mono hle.1) id).mpr).subset
    have hvalues := hle.1.antisymm hge.1
    refine ⟨hvalues, hle.2.antisymm hge.2, ?_⟩
    rw [Bool.eq_iff_iff, escapes_iff, escapes_iff, params_ofParams, params_ofParams, hvalues]
    exact ⟨fun hlost ↦ hlost.rearranged h.symm fun addr value hi hc id ↦
        (hsame addr value (h.perm.mem_iff.mp hi) hc id).mpr,
      fun hlost ↦ hlost.rearranged h fun addr value hi hc id ↦ (hsame addr value hi hc id).mp⟩

/-! ### The result -/

/-- The taint of a function is the least that the rules allow, and says by these final marks
whether the configurer gets lost. It is found by passes over the instructions, of which no more add
marks than there are instructions; and the same is found if the passes go over the instructions in
another order. A function with the same blocks in another order has the same taint exactly if the
configurer is stored to the same locals, as it always is if no value is defined twice. -/
theorem ofParams_least (f : Function) (params : List Nat) :
    (Propagates f params (ofParams f params).values (ofParams f params).locals ∧
      ∀ V L, Propagates f params V L →
        (ofParams f params).values ⊆ V ∧ (ofParams f params).locals ⊆ L) ∧
    ((ofParams f params).escapes f ↔ Loses f params (ofParams f params).values) ∧
    (∃ n ≤ f.instructions.length, Passes f f.instructions ({ params }, false) n
      (ofParams f params, (ofParams f params).escapes f)) ∧
    (∀ l, (∀ i, i ∈ l ↔ i ∈ f.instructions) → ∃ n ≤ f.instructions.length, ∃ s,
      Passes f l ({ params }, false) n s ∧ s.1.values = (ofParams f params).values ∧
        s.1.locals = (ofParams f params).locals ∧ s.2 = (ofParams f params).escapes f) ∧
    ∀ g, Rearranged f g →
      (((ofParams g params).values = (ofParams f params).values ∧
        (ofParams g params).locals = (ofParams f params).locals ∧
        (ofParams g params).escapes g = (ofParams f params).escapes f) ↔
      ∀ addr value, .store addr value ∈ f.instructions →
        Carries params (ofParams f params).values value →
          ∀ id, IsLocal g addr id ↔ IsLocal f addr id) ∧
      (f.definedValues.Nodup → ∀ addr id, IsLocal g addr id ↔ IsLocal f addr id) := by
  have hstart := Underway.start f params
  refine ⟨⟨propagates_ofParams f params, fun V L h ↦ h.subset⟩, ?_, ?_, fun l hl ↦ ?_,
    fun g h ↦ ⟨h.ofParams_eq_iff params, h.isLocal_iff⟩⟩
  · rw [escapes_iff, params_ofParams]
  · obtain ⟨n, s, hpasses, hn, -, hlost⟩ := hstart.exists_passes fun _ ↦ Iff.rfl
    have heq : s = (ofParams f params, (ofParams f params).escapes f) :=
      Prod.ext hpasses.fst_eq hlost
    exact ⟨n, (Nat.zero_add n).symm ▸ hn, heq ▸ hpasses⟩
  · obtain ⟨n, s, hpasses, hn, hmarks, hlost⟩ := hstart.exists_passes hl
    exact ⟨n, (Nat.zero_add n).symm ▸ hn, s, hpasses, Set.ext fun id ↦ hmarks (.value id),
      Set.ext fun id ↦ hmarks (.holder id), hlost⟩

/-- The configurer goes round: through a merge, to a local, and back into the merge. -/
def circling : Function where
  name := "circling"
  blocks := [
    { instructions := [.alloc ⟨0⟩ "Configurer"], terminator := .jump 1 },
    { instructions := [.load ⟨1⟩ (.value ⟨0⟩), .store (.value ⟨0⟩) (.value ⟨2⟩),
        .phi ⟨2⟩ [.param 0, .value ⟨1⟩]]
      terminator := .jump 1 }]

/-- The taint of such a function does not depend on the order of its blocks. -/
theorem ofParams_least_circling :
    let g := { circling with blocks := circling.blocks.reverse }
    Rearranged circling g ∧ circling.definedValues.Nodup ∧
      (∀ i, i ∈ g.instructions ↔ i ∈ circling.instructions) ∧
      (∃ n ≤ 4, ∃ s, Passes circling g.instructions ({ params := [0] }, false) n s ∧
        s.1.values = (ofParams circling [0]).values) ∧
      (ofParams g [0]).values = (ofParams circling [0]).values := by
  intro g
  have hg : Rearranged circling g := by
    unfold Rearranged
    decide
  have hnodup : circling.definedValues.Nodup := by decide
  have hmem (i : Instruction) : i ∈ g.instructions ↔ i ∈ circling.instructions := hg.perm.mem_iff
  obtain ⟨-, -, -, hpasses, hblocks⟩ := ofParams_least circling [0]
  obtain ⟨n, hn, s, hs, hvalues, -⟩ := hpasses g.instructions hmem
  obtain ⟨hsame, hlocal⟩ := hblocks g hg
  have hequal := hsame.mpr fun addr _ _ _ id ↦ hlocal hnodup addr id
  exact ⟨hg, hnodup, hmem, ⟨n, hn, s, hs, hvalues⟩, hequal.1⟩

/-- A branch to two blocks, of which one stores the configurer to a local, and the other defines the
value that is the local's address once more. -/
def redefining : Function where
  name := "redefining"
  blocks := [
    { instructions := [.opaqueValue ⟨1⟩ "flag"], terminator := .branch (.value ⟨1⟩) 1 2 },
    { instructions := [.alloc ⟨0⟩ "Configurer", .store (.value ⟨0⟩) (.param 0)]
      terminator := .ret [] },
    { instructions := [.opaqueValue ⟨0⟩ "elsewhere"], terminator := .ret [] }]

/-- The same function with the two blocks in the other order. -/
def redefiningFirst : Function where
  name := "redefiningFirst"
  blocks := [
    { instructions := [.opaqueValue ⟨1⟩ "flag"], terminator := .branch (.value ⟨1⟩) 2 1 },
    { instructions := [.opaqueValue ⟨0⟩ "elsewhere"], terminator := .ret [] },
    { instructions := [.alloc ⟨0⟩ "Configurer", .store (.value ⟨0⟩) (.param 0)]
      terminator := .ret [] }]

/-- Where a value is defined twice, the order of blocks matters: the first definition counts. -/
theorem ofParams_redefining_ne :
    Rearranged redefining redefiningFirst ∧
      (ofParams redefining [0]).escapes redefining = false ∧
      ⟨0⟩ ∈ (ofParams redefining [0]).locals ∧
      (ofParams redefiningFirst [0]).escapes redefiningFirst = true ∧
      ⟨0⟩ ∉ (ofParams redefiningFirst [0]).locals := by
  have hmarked : ofParams redefining [0] = { params := [0], marks := [.holder ⟨0⟩] } := by
    have h : Passes redefining redefining.instructions ({ params := [0] }, false) 1 _ :=
      .more (by decide) (.last (by decide))
    exact h.fst_eq.symm
  have hlost : ofParams redefiningFirst [0] = { params := [0] } := by
    have h : Passes redefiningFirst redefiningFirst.instructions ({ params := [0] }, false) 0 _ :=
      .last (by decide)
    exact h.fst_eq.symm
  refine ⟨?_, ?_, ?_, ?_, ?_⟩
  · unfold Rearranged
    decide
  · rw [hmarked]
    decide
  · simp [locals, hmarked]
  · rw [hlost]
    decide
  · simp [locals, hlost]

end Wiring.Analysis.Taint
