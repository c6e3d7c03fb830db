import Wiring.Proofs.Analysis.Locals

/-!
# Operands of a value that is being followed

While a value is being followed, resolution does not come back to it. For an operand that the value
cannot do without this makes no difference: to come back to the value would be to need the operand
for itself. So the operand resolves to what it resolves to on its own, unless one of the two is cut
short.
-/

namespace Wiring.Analysis

open Wiring.Program (Operand ValueId Instruction Function)
open Memoized

/-- The computation never gives a value. -/
def Memoized.Vain {α : Type} (c : Memoized (Option α)) : Prop := ∀ m, (c m).1 = none

/-- There are no values of all items if one of them never has any. -/
theorem Memoized.vain_all {α β : Type} {f : α → Memoized (Option β)} {l : List α} {a : α}
    (ha : a ∈ l) (h : Vain (f a)) : Vain (Memoized.all f l) := by
  induction l with
  | nil => cases ha
  | cons b l ih =>
    intro m
    rw [all_cons_fst, Option.bind_eq_none_iff]
    intro v hv
    rcases List.mem_cons.mp ha with rfl | ha
    · rw [h m] at hv
      cases hv
    · rw [ih ha, Option.map_none]

/-- The instruction defines no value if the operand has none. -/
def Requires (env : Environment) (src : Sources Memoized) (f : Function) (i : Instruction)
    (o : Operand) : Prop :=
  ∀ resolve : Resolver Memoized, Vain (resolve o) → Vain (resolveInstruction env src f resolve i)

/-- A merged value is not known without the values that come along the edges. -/
theorem requires_phi {env : Environment} {src : Sources Memoized} {f : Function} {dest : ValueId}
    {edges : List Operand} {o : Operand} (ho : o ∈ edges) :
    Requires env src f (.phi dest edges) o := by
  intro resolve h m
  have hall : (Memoized.all resolve edges m).1 = none := vain_all ho h m
  show (Memoized.all resolve edges m).1.bind StaticValue.agreement = none
  rw [hall, Option.bind_none]

/-- What never gives a value is followed by giving none. -/
theorem Follows.of_vain {α : Type} {M : Memo} {c : Memoized (Option α)} (h : Vain c)
    (hc : Grows c) : Follows M c (return none) where
  left := hc
  right := .pure none
  confirms := by
    rintro _ ⟨m, -, -, rfl, -⟩ m' hm' -
    exact ⟨(h m).symm, hm'⟩

section Operands

variable {env : Environment} {stack : List String} {frame : Frame} {id e : ValueId}
  {i : Instruction} {M : Memo} {visiting visiting' : List ValueId}

section

variable (hdefinition : frame.function.definition id = some i)
  (hrequires : Requires env (sources env (resultOf env stack) [] frame) frame.function i (.value e))
include hdefinition hrequires

/-- A value is not known while something that it requires is being followed. -/
theorem vain_resolveOperand (he : e ∈ visiting ∨ e = id) :
    Vain (resolveOperand env (sources env (resultOf env stack) [] frame) frame visiting
      (.value id)) := by
  rw [resolveOperand_value, hdefinition]
  split
  · exact fun _ ↦ rfl
  · have hmem : e ∈ id :: visiting := List.mem_cons.mpr he.symm
    apply hrequires
    rw [resolveOperand_value, if_pos hmem]
    exact fun _ ↦ rfl

/-- What a value requires, and whatever that leads to, resolves alike whether the value is being
followed or not. -/
theorem follows_resolveOperand (hM : Good env M) (hframe : env.Has frame)
    (hsub : visiting ⊆ visiting') (hsup : visiting' ⊆ id :: visiting) {o : Operand}
    (he : e ∈ visiting ∨ e = id ∨ o = .value e) : Follows M
      (resolveOperand env (sources env (resultOf env stack) [] frame) frame visiting o)
      (resolveOperand env (sources env (resultOf env stack) [] frame) frame visiting' o) := by
  have hP := lockstep_follows M
  have hflow : Follows M (sources env (resultOf env stack) [] frame).flow
      (sources env (resultOf env stack) [] frame).flow :=
    hP.map (follows_flowOf hM hframe fun _ _ _ _ hc index ↦ follows_resultOf hM hc index) some
  have hstored (resolve resolve' : Resolver Memoized) (j : ValueId)
      (hresolve : ∀ o, Follows M (resolve o) (resolve' o)) : Follows M
        (loadLocal (sources env (resultOf env stack) [] frame) frame.function resolve j)
        (loadLocal (sources env (resultOf env stack) [] frame) frame.function resolve' j) :=
    hP.bind hflow fun g ↦ hP.bind (hP.all _ fun o _ ↦ hresolve o) fun _ ↦ hP.pure _
  -- by the values that are not being followed on the left
  induction hn : (unvisited frame.function visiting).length using Nat.strongRecOn
    generalizing visiting visiting' o with
  | ind n ih =>
    cases o with
    | value j =>
      by_cases hj : j ∈ visiting
      · rw [resolveOperand_value, if_pos hj, resolveOperand_value, if_pos (hsub hj)]
        exact hP.pure _
      have hej : e ∈ visiting ∨ e = id ∨ e = j := by simpa [eq_comm] using he
      by_cases hj' : j ∈ visiting'
      · -- only on the right the value is being followed; on the left it comes to nothing
        obtain rfl : j = id := (List.mem_cons.mp (hsup hj')).resolve_right hj
        have hvain := vain_resolveOperand hdefinition hrequires (by simpa using hej)
        rw [resolveOperand_value env _ frame visiting', if_pos hj']
        exact .of_vain hvain ((remembering_grows env).resolveOperand_self _ _ hframe _ _)
      · rw [resolveOperand_value, if_neg hj, resolveOperand_value, if_neg hj']
        cases hd : frame.function.definition j with
        | none => exact hP.pure _
        | some k =>
          refine hP.resolveInstruction (.refl env) (.refl frame.function)
            (fun callee g hg args index ↦
              follows_resultOf hM (Environment.has_of_followed hg args) index)
            (fun j _ resolve resolve' hresolve ↦
              hstored resolve resolve' j fun o ↦ hresolve o trivial)
            (fun o _ ↦ ?_) k fun _ _ ↦ trivial
          have hsup' : j :: visiting' ⊆ id :: j :: visiting :=
            List.Subset.trans (List.cons_subset_cons j hsup) (List.Perm.swap id j visiting).subset
          refine ih _ (hn ▸ unvisited_lt hj hd) (List.cons_subset_cons j hsub) hsup' ?_ rfl
          rcases hej with he | he | rfl
          · exact .inl (List.mem_cons_of_mem _ he)
          · exact .inr (.inl he)
          · exact .inl List.mem_cons_self
    | const | param | global | function =>
      rw [resolveOperand, resolveOperand]
      exact hP.pure _

end

/-- What a value requires resolves as on its own while the value is being followed. -/
theorem follows_resolveFor (hdefinition : frame.function.definition id = some i) {o : Operand}
    (hrequires : Requires env (sources env (resultOf env stack) [] frame) frame.function i o)
    (hM : Good env M) (hframe : env.Has frame) :
    Follows M (Query.resolve env stack frame o) (resolveFor env stack frame id o) := by
  cases o with
  | value e =>
    exact follows_resolveOperand hdefinition hrequires hM hframe (List.nil_subset _)
      (List.Subset.refl _) (.inr (.inr rfl))
  | const | param | global | function =>
    unfold Query.resolve resolveIn resolveFor
    rw [resolveOperand, resolveOperand]
    exact (lockstep_follows M).pure _

end Operands

section Turns

variable {env : Environment} {α β : Type} {f f' : α → Memoized (Option β)} {l : List α} {m M : Memo}

/-- What is asked of the same memo is settled by what is remembered once all of it has been asked,
as far as it is not cut short. -/
theorem exists_settles (hm : Good env m) (hf : ∀ a ∈ l, Steady env (f a))
    (hcut : ∀ a ∈ l, Uncut (f a) m) :
    ∃ M, Good env M ∧ m.Within M ∧ ∀ a ∈ l, Settles (f a) M (f a m).1 := by
  induction l with
  | nil => exact ⟨m, hm, .refl m, by simp⟩
  | cons a l ih =>
    rw [List.forall_mem_cons] at hf hcut
    obtain ⟨M, hM, hsub, hsettles⟩ := ih hf.2 hcut.2
    obtain ⟨hcut', heq, -⟩ := hf.1.transfers m M hm hM hsub hcut.1
    have hgrown : M.Within (f a M).2 := (hf.1.grows M).2
    refine ⟨(f a M).2, hf.1.good M hM, hsub.trans hgrown, ?_⟩
    rw [List.forall_mem_cons]
    exact ⟨⟨M, hgrown, hcut', heq, .refl _⟩, fun b hb ↦ (hsettles b hb).mono hgrown⟩

/-- The values of items in their turns are those that have been settled, unless cut short. -/
theorem forall_turns_iff_of_settles {answer : α → Option β} {v : β}
    (hsettles : ∀ a ∈ l, Settles (f a) M (answer a)) (hfollows : ∀ a ∈ l, Follows M (f a) (f' a))
    (hsub : m.Within M) (hcut : Uncut (Memoized.all f' l) m) :
    (∀ t ∈ turns f' l m, (f' t.1 t.2).1 = some v) ↔ ∀ a ∈ l, answer a = some v := by
  induction l generalizing m with
  | nil => simp [turns]
  | cons a l ih =>
    rw [List.forall_mem_cons] at hsettles hfollows
    have hgrows : Lockstep (m := Memoized) (n := Memoized) fun _ c _ ↦ Grows c := ⟨.pure, .bind⟩
    have hrest : Grows (Memoized.all f' l) :=
      @Lockstep.all _ _ _ _ _ hgrows _ _ f' f' l fun b hb ↦ (hfollows.2 b hb).right
    have hparts := hcut.of_bind hfollows.1.right fun r ↦ by
      cases r with
      | none => exact .pure none
      | some b => exact hrest.bind fun _ ↦ .pure _
    obtain ⟨heq, hend⟩ := hfollows.1.confirms _ hsettles.1 m hsub hparts.1
    rw [turns, List.forall_mem_cons, List.forall_mem_cons, heq]
    refine and_congr_right fun ha ↦ ih hsettles.2 hfollows.2 hend ?_
    have hnext := hparts.2
    rw [heq, ha] at hnext
    exact (hnext.of_bind hrest fun _ ↦ .pure _).1

end Turns
end Wiring.Analysis
