import Wiring.Proofs.Analysis.Marks
import Wiring.Proofs.Run.Soundness
import Wiring.Proofs.Analysis.Coverage

/-!
# Where the configurer gets to

In a run that passes the configurer on only in ways that are followed, whatever holds the configurer
is marked: an argument, a value or a local, in every call that has not ended. So every method call on
the configurer is among those found, at its place, if they cover the function that the run began
with.
-/

namespace Wiring.Run

open Wiring.Program (Constant ValueId Operand Callee Instruction Terminator Function Block)
open Wiring.Analysis (Environment Frame StaticValue Judgement Derivable Question Taint Mark
  Encounter ConfigurerCall Place Covered CoversEncounter Callees Query.configurerCalls
  rememberedAfter)

/-- Where what runs next in the activation is. -/
def Activation.place (a : Activation) : Place := ⟨a.block, a.next⟩

/-- What following the configurer takes for granted about the next step. -/
structure Traceable (s : State) : Prop where
  careful : Careful s
  /-- No operator is applied to a constant inside an interface. -/
  operated : ∀ a ∈ s.stack.head?, ∀ o ∈ a.operated, ∀ x c, a.operand o = some x →
    x.unboxed = .const c → x = .const c
  /-- A call does not return the configurer. -/
  returned : ∀ b ∈ s.stack.head?, ∀ results vs, b.terminator? = some (.ret results) →
    b.operands results = some vs → ∀ v ∈ vs, v.isConfigurer = false
  /-- A method is not passed the configurer. -/
  passed : ∀ a ∈ s.stack.head?, ∀ dest receiver method args vs,
    a.instruction? = some (.call dest (.invoke receiver method) args) →
      a.operands args = some vs → ∀ v ∈ vs, v.isConfigurer = false

/-- Code outside the program has not been handed the configurer. -/
def Memory.Unaware (m : Memory) : Prop := ∀ v ∈ m.outside, v.isConfigurer = false

/-- Whatever holds the configurer in an activation is marked, and no result of a call does. -/
structure Marked (t : Taint) (a : Activation) (m : Memory) : Prop where
  args : ∀ (n : Nat) v, a.args[n]? = some v → v.isConfigurer → n ∈ t.params
  values : ∀ id rs v, a.values id = some rs → v ∈ rs → v.isConfigurer → .value id ∈ t.marks
  locals : ∀ id j c v, a.values id = some [.address j] → m.cells[j]? = some c → c.held = some v →
    v.isConfigurer → .holder id ∈ t.marks
  calls : ∀ id dest callee operands rs,
    a.function.definition id = some (.call dest callee operands) → a.values id = some rs →
      ∀ v ∈ rs, v.isConfigurer = false

/-- Either the activation has nothing to do with the configurer, or the calls cover a frame that
fits. -/
inductive Tracks (env : Environment) (calls : List (ConfigurerCall × Place)) (a : Activation) :
    Taint → Prop
  | apart : Tracks env calls a ⟨[], []⟩
  | covered {frame : Frame} {params : List Nat} (hfit : a.Fits frame)
      (h : Covered env calls frame params) :
      Tracks env calls a (Taint.ofParams a.function params)

/-- Wherever the configurer is, it is being followed. -/
structure Tracked (env : Environment) (calls : List (ConfigurerCall × Place)) (s : State) :
    Prop where
  unaware : s.memory.Unaware
  marked : ∀ a ∈ s.stack, ∃ t, Tracks env calls a t ∧ Marked t a s.memory

variable {env : Environment} {calls : List (ConfigurerCall × Place)} {s₀ s s' : State}
  {a b : Activation} {m m' : Memory} {t : Taint} {v : Value} {o : Operand} {i : Instruction}
  {results : List Value} {rest : List Activation}

/-- An operand that is the configurer is marked. -/
theorem Marked.contains (h : Marked t a m) (ho : a.operand o = some v) (hv : v.isConfigurer) :
    t.contains o := by
  cases o with
  | param index => simpa [Taint.contains] using h.args index.toNat v ho hv
  | value id =>
    obtain ⟨rs, hid, hhead⟩ := Option.bind_eq_some_iff.mp ho
    simpa [Taint.contains] using h.values id rs v hid (List.mem_of_head? hhead) hv
  | const | global | function =>
    obtain rfl := Option.some.inj ho
    simp [Value.isConfigurer] at hv

/-- The marks of an activation hold after a call has returned neither the configurer nor a local. -/
theorem Marked.define {dest : Option ValueId} (hm : Marked t a m)
    (hnot : ∀ v ∈ results, v.isConfigurer = false) (hfree : ∀ v ∈ results, v.AddressFree) :
    Marked t (a.define dest results) m := by
  have hold {id : ValueId} {rs : List Value} (hid : (a.define dest results).values id = some rs) :
      rs = results ∨ a.values id = some rs := by
    rw [Activation.values_define] at hid
    by_cases hd : dest = some id
    · rw [if_pos hd] at hid
      exact .inl (Option.some.inj hid).symm
    · rw [if_neg hd] at hid
      exact .inr hid
  refine ⟨hm.args, fun id rs v hid hv hc ↦ ?_, fun id j c v hid hcell hheld hc ↦ ?_,
    fun id d callee operands rs hd hid ↦ ?_⟩
  · rcases hold hid with rfl | hid
    · simp [hnot v hv] at hc
    · exact hm.values id rs v hid hv hc
  · rcases hold hid with rfl | hid
    · exact absurd hfree not_addressFree
    · exact hm.locals id j c v hid hcell hheld hc
  · rcases hold hid with rfl | hid
    · exact hnot
    · exact hm.calls id d callee operands rs hd hid

/-- What code outside the program can make is not the configurer. -/
theorem Memory.Unaware.not_configurer (h : m.Unaware) (hm : m.Clean) (hv : m.Known v) :
    v.isConfigurer = false := by
  induction hv with
  | given hv => exact h _ hv
  | const | global | function | foreign => rfl
  | boxed hv ih => exact ih
  | held hv ih => exact ih
  | content hv hc ih => exact absurd (hm.addressFree hv) (fun h ↦ h)

/-- What a local holds at first is not the configurer. -/
theorem Value.IsZero.not_configurer {typeName : String} (h : v.IsZero typeName) :
    v.isConfigurer = false := by
  unfold IsZero at h
  split at h
  · rw [h]
    rfl
  · split at h
    · rw [h]
      rfl
    · split at h
      · rw [h]
        rfl
      · rcases h with rfl | ⟨tag, rfl⟩ <;> rfl

/-- The value that is called is not handed over if it is the configurer. -/
theorem Activation.Hands.mem_of_isConfigurer {callee : Callee} {vs handed : List Value}
    (h : a.Hands callee vs handed) (hv : v ∈ handed) (hc : v.isConfigurer) : v ∈ vs := by
  cases h with
  | static => exact hv
  | dynamic hop | invoke hop =>
    split at hv
    · exact hv
    · next hnot =>
      rcases List.mem_cons.mp hv with rfl | hv
      · exact absurd hc hnot
      · exact hv

namespace Tracks

/-- Tracking is a matter of the activation's function and arguments. -/
theorem of_eq (h : Tracks env calls a t) (hf : b.function = a.function) (ha : b.args = a.args) :
    Tracks env calls b t := by
  cases h with
  | apart => exact .apart
  | covered hfit h => exact hf ▸ .covered (hfit.of_eq hf ha) h

/-- The marks are closed. -/
theorem closed (h : Tracks env calls a t) : t.Closed a.function := by
  cases h with
  | apart =>
    intro i _ m hm
    rw [Taint.derived_empty] at hm
    simp at hm
  | covered hfit h => exact Taint.closed_ofParams _ _

/-- No instruction brings the configurer to where it is not followed. -/
theorem lost_eq_false (h : Tracks env calls a t) (hi : i ∈ a.function.instructions) :
    t.lost a.function i = false := by
  cases h with
  | apart => exact Taint.lost_empty _ _
  | covered hfit h =>
    cases h with
    | intro hg hescapes =>
      rw [← hfit.function] at hescapes
      simpa using List.any_eq_false.mp hescapes i hi

end Tracks

/-- What the truth of derivations rests on is given in traceable runs. -/
theorem Traceable.setting {f : Function} {args outside : List Value} (hssa : SingleAssignment env)
    (hinv : Invariant env (.initial f args outside)) :
    Setting env Traceable (.initial f args outside) fun _ ↦ True where
  ssa := hssa
  initial := ⟨f, args, outside, rfl⟩
  invariant := hinv
  careful _ hs := hs.careful
  called _ _ _ _ _ _ _ _ _ := trivial
  operated a _ _ _ hs _ _ o ho _ x c _ hx hdescribes hc :=
    hs.operated a rfl o ho x c hx (hdescribes.unboxed hc)

section Step

variable (hset : Setting env Traceable s₀ fun _ ↦ True)
  (hr : Runs env Traceable s₀ ⟨a :: rest, m⟩) (hs : Traceable ⟨a :: rest, m⟩)
  (hi : a.instruction? = some i)
include hset hr hi

/-- Whatever the next instruction does with the configurer is covered. -/
theorem Tracks.encounter (h : Tracks env calls a t) {e : Encounter}
    (he : t.encounter i = some e) :
    ∃ frame, a.Fits frame ∧ CoversEncounter env frame a.place calls e := by
  cases h with
  | apart => simp [Taint.encounter_empty] at he
  | @covered frame params hfit h =>
    obtain ⟨block, hblock, hmem⟩ := Option.bind_eq_some_iff.mp hi
    cases h with
    | @intro _ _ g f bound hg _ hcall hcallees hcovered =>
      have hreachable := (hset.holds hg trivial _ hr a (by simp) hfit block hblock).1
      rw [hfit.function] at hblock he
      have hplaced := Taint.mem_placed hblock hreachable hmem he
      refine ⟨frame, hfit, ?_⟩
      cases e with
      | call method args => exact hcall _ method args _ hplaced
      | handover h => exact ⟨f h, bound h, hcallees _ h _ hplaced, hcovered _ h _ hplaced⟩

include hs

/-- A call that is not followed is not passed the configurer. -/
theorem Tracks.args_not_configurer (h : Tracks env calls a t) (hm : Marked t a m)
    {dest : Option ValueId} {callee : Callee} {args : List Operand} {vs : List Value}
    (hcall : i = .call dest callee args) (hf : env.followed callee = none)
    (hops : a.operands args = some vs) : ∀ v ∈ vs, v.isConfigurer = false := by
  intro v hv
  rw [Bool.eq_false_iff]
  intro hc
  cases callee with
  | invoke receiver method =>
    rw [hs.passed a rfl dest receiver method args vs (hcall ▸ hi) hops v hv] at hc
    simp at hc
  | static | dynamic =>
    obtain ⟨n, hn⟩ := List.mem_iff_getElem?.mp hv
    obtain ⟨o, ho, hop⟩ := Activation.operand_of_getElem? hops hn
    have hpositions : t.positions args ≠ [] :=
      List.ne_nil_of_mem (Taint.mem_positions.mpr ⟨o, ho, hm.contains hop hc⟩)
    subst hcall
    obtain ⟨frame, -, f, bound, hcallees, -⟩ :=
      h.encounter hset hr hi (Taint.encounter_handover (by simp) hpositions)
    have hfollowed := hcallees.followed
    rw [hf] at hfollowed
    simp at hfollowed

omit hs in
/-- What the next instruction stores elsewhere than to a local is not the configurer. -/
theorem Tracks.stored_not_configurer (h : Tracks env calls a t) (hm : Marked t a m)
    {addr o : Operand} {p : Value} (hstore : i = .store addr o) (hp : a.operand addr = some p)
    (hne : ∀ j, p ≠ .address j) (ho : a.operand o = some v) : v.isConfigurer = false := by
  rw [Bool.eq_false_iff]
  intro hc
  have hlost := h.lost_eq_false (Activation.mem_instructions hi)
  rw [hstore] at hlost
  simp only [Taint.lost, hm.contains ho hc, Bool.true_and, Option.isNone_eq_false_iff,
    Option.isSome_iff_exists] at hlost
  obtain ⟨id, hid⟩ := hlost
  obtain ⟨rfl, dest, typeName, hd⟩ := Taint.localOf_eq_some_iff.mp hid
  obtain ⟨j, rfl, -⟩ := hset.exists_address hr (by simp) hd hp
  exact hne j rfl

/-- The next instruction does not hand the configurer to code outside the program. -/
theorem Tracks.unaware (h : Tracks env calls a t) (hm : Marked t a m) (hu : m.Unaware)
    (hperform : a.Performs env m i results m') : m'.Unaware := by
  have hhand {vs : List Value} (hvs : ∀ v ∈ vs, v.isConfigurer = false) : (m.hand vs).Unaware := by
    intro v hv
    rcases List.mem_append.mp hv with hv | hv
    · exact hvs v hv
    · exact hu v hv
  cases hperform with
  | storeElsewhere hp hne ho =>
    refine hhand fun v hv ↦ ?_
    obtain rfl := List.mem_singleton.mp hv
    exact h.stored_not_configurer hset hr hi hm rfl hp hne ho
  | @slice dest elements vs w hops hw =>
    refine hhand fun v hv ↦ ?_
    obtain ⟨o, ho, hop⟩ := Activation.exists_of_mem_operands hops hv
    have hlost := h.lost_eq_false (Activation.mem_instructions hi)
    have hnot : ¬ t.contains o := by simpa using List.any_eq_false.mp hlost o ho
    rw [Bool.eq_false_iff]
    exact fun hc ↦ hnot (hm.contains hop hc)
  | call hf hops hh htouched hresults =>
    have hnone := h.args_not_configurer hset hr hs hi hm rfl hf hops
    intro v hv
    rw [htouched.outside] at hv
    refine hhand (fun v hv ↦ ?_) v hv
    rw [Bool.eq_false_iff]
    intro hc
    rw [hnone v (hh.mem_of_isConfigurer hv hc)] at hc
    simp at hc
  | _ => exact hu

/-- Where the next instruction defines the configurer, it marks the value. -/
theorem Tracks.value_mem (h : Tracks env calls a t) (hm : Marked t a m) (hu : m.Unaware)
    (hperform : a.Performs env m i results m') {id : ValueId} (hd : i.dest = some id)
    (hv : v ∈ results) (hc : v.isConfigurer) : .value id ∈ t.marks := by
  have hclosed := h.closed i (Activation.mem_instructions hi)
  have hinv := hset.invariant_of_runs hr
  have htidy := hinv.tidy a (by simp)
  have hknown (hk : m'.Known v) : v.isConfigurer = false :=
    (h.unaware hset hr hs hi hm hu hperform).not_configurer
      (hperform.clean hs.careful.confined hi htidy hinv.clean).1 hk
  have hnot (hf : v.isConfigurer = false) : .value id ∈ t.marks := by
    rw [hf] at hc
    simp at hc
  cases hperform with
  | makeInterface hop | changeInterface hop =>
    obtain rfl := Option.some.inj hd
    obtain rfl := List.mem_singleton.mp hv
    exact hclosed _ (if_pos (hm.contains hop hc))
  | phi ho hop =>
    obtain rfl := Option.some.inj hd
    obtain rfl := List.mem_singleton.mp hv
    exact hclosed _ (if_pos (List.any_eq_true.mpr ⟨_, ho, hm.contains hop hc⟩))
  | extract ht htuple hindex =>
    obtain rfl := List.mem_singleton.mp hv
    exact hnot (hm.calls _ _ _ _ _ ht htuple _ (List.mem_of_getElem? hindex))
  | loadLocal hop hcell hheld =>
    obtain rfl := Option.some.inj hd
    obtain rfl := List.mem_singleton.mp hv
    rcases hheld with hheld | ⟨-, hzero⟩
    · obtain ⟨id', rfl, hid'⟩ := htidy.eq_value hop
      have hmark := hm.locals id' _ _ _ hid' hcell hheld hc
      exact hclosed _ (if_pos (by simpa using hmark))
    · exact hnot hzero.not_configurer
  | alloc | loadGlobal =>
    obtain rfl := List.mem_singleton.mp hv
    simp [Value.isConfigurer] at hc
  | storeLocal | storeElsewhere => simp at hv
  | extractElsewhere _ hk | loadElsewhere _ _ _ hk | binOp _ _ _ hk | not _ _ hk | slice _ hk
  | opaqueValue hk =>
    obtain rfl := List.mem_singleton.mp hv
    exact hnot (hknown hk)
  | call hf hops hh htouched hk => exact hnot (hknown (hk v hv))

/-- The marks of an activation hold after its next instruction. -/
theorem Tracks.marked_define (h : Tracks env calls a t) (hm : Marked t a m) (hu : m.Unaware)
    (hperform : a.Performs env m i results m') : Marked t (a.define i.dest results) m' := by
  have hinv := hset.invariant_of_runs hr
  have hconfined := hs.careful.confined
  have htidy := hinv.tidy a (by simp)
  have hssa := hset.ssa _ _ (hinv.function a (by simp))
  obtain ⟨hclean, -, -⟩ := hperform.clean hconfined hi htidy hinv.clean
  refine ⟨hm.args, fun id rs v hid hv hc ↦ ?_, fun id j c v hid hcell hheld hc ↦ ?_,
    fun id dest callee operands rs hd hid v hv ↦ ?_⟩
  · rw [Activation.values_define] at hid
    by_cases hd : i.dest = some id
    · rw [if_pos hd] at hid
      obtain rfl := Option.some.inj hid
      exact h.value_mem hset hr hs hi hm hu hperform hd hv hc
    · rw [if_neg hd] at hid
      exact hm.values id rs v hid hv hc
  · obtain ⟨hid, hheld'⟩ := hperform.held_local hconfined hi htidy hinv.clean hcell hheld hid
    rcases hheld' with ⟨c', hcell', hheld'⟩ | ⟨o, rfl, ho⟩
    · exact hm.locals id j c' v hid hcell' hheld' hc
    · obtain ⟨-, dest, typeName, hdef⟩ := htidy.address hid
      refine h.closed _ (Activation.mem_instructions hi) _ ?_
      unfold Taint.derived
      dsimp only
      rw [if_pos (hm.contains ho hc), Taint.localOf_eq_some_iff.mpr ⟨rfl, dest, typeName, hdef⟩]
      rfl
  · rw [Activation.values_define] at hid
    by_cases hdest : i.dest = some id
    · rw [if_pos hdest] at hid
      obtain rfl := Option.some.inj hid
      have hdef := Function.definition_eq hssa (Activation.mem_instructions hi) hdest
      obtain rfl := Option.some.inj (hdef.symm.trans hd)
      cases hperform with
      | call hf hops hh htouched hk =>
        have hu' := h.unaware hset hr hs hi hm hu (.call hf hops hh htouched hk)
        exact hu'.not_configurer hclean (hk v hv)
    · rw [if_neg hdest] at hid
      exact hm.calls id dest callee operands rs hd hid v hv

/-- The next instruction leaves the locals of other activations alone. -/
theorem Marked.of_performs (hm : Marked t b m) (hb : b ∈ rest)
    (hperform : a.Performs env m i results m') : Marked t b m' := by
  have hinv := hset.invariant_of_runs hr
  refine ⟨hm.args, hm.values, fun id j c v hid hcell hheld hc ↦ ?_, hm.calls⟩
  obtain ⟨c', hcell', hheld'⟩ := hperform.held_elsewhere hs.careful.confined hi
    (hinv.tidy a (by simp)) hinv.clean hcell hheld ((List.pairwise_cons.mp hinv.apart).1 b hb) hid
  exact hm.locals id j c' v hid hcell' hheld' hc

omit hs in
/-- A call that is followed is tracked as the call before it was. -/
theorem Tracks.enter (h : Tracks env calls a t) (hm : Marked t a m) {dest : Option ValueId}
    {callee : Callee} {args : List Operand} {f : Function} {vs : List Value}
    (hcall : i = .call dest callee args) (hf : env.followed callee = some f)
    (hops : a.operands args = some vs) :
    ∃ t', Tracks env calls { function := f, args := vs } t' ∧
      Marked t' { function := f, args := vs } m := by
  have hmarked (t' : Taint) (hargs : ∀ n ∈ t.positions args, n ∈ t'.params) :
      Marked t' { function := f, args := vs } m := by
    refine ⟨fun n v hn hc ↦ ?_, fun id rs v hid ↦ by simp at hid, fun id j c v hid ↦ by simp at hid,
      fun id _ _ _ rs _ hid ↦ by simp at hid⟩
    obtain ⟨o, ho, hop⟩ := Activation.operand_of_getElem? hops hn
    exact hargs n (Taint.mem_positions.mpr ⟨o, ho, hm.contains hop hc⟩)
  by_cases hpositions : t.positions args = []
  · exact ⟨_, .apart, hmarked _ fun n hn ↦ by simp [hpositions] at hn⟩
  · have hinvoke : ∀ receiver method, callee ≠ .invoke receiver method := by
      rintro receiver method rfl
      simp [Environment.followed, Environment.staticCallee] at hf
    subst hcall
    obtain ⟨frame, hfit, f', bound, hcallees, hcovered⟩ :=
      h.encounter hset hr hi (Taint.encounter_handover hinvoke hpositions)
    obtain rfl := Option.some.inj (hf.symm.trans hcallees.followed)
    refine ⟨_, .covered ⟨rfl, ?_⟩ hcovered, hmarked _ fun n hn ↦ ?_⟩
    · exact Setting.describes_bound hr (by simp) hfit hops fun n o w ho hw ↦
        hset.holds (hcallees.derivable n o w ho hw) trivial
    · rw [Taint.params_ofParams]
      exact hn

end Step

/-- A step leaves everything tracked. -/
theorem Tracked.step (hset : Setting env Traceable s₀ fun _ ↦ True)
    (hr : Runs env Traceable s₀ s) (hp : Traceable s) (hs : Step env s s')
    (h : Tracked env calls s) : Tracked env calls s' := by
  cases hs with
  | @perform a rest m m' i vs hi hperform =>
    obtain ⟨t, ht, hm⟩ := h.marked a (by simp)
    refine ⟨ht.unaware hset hr hp hi hm h.unaware hperform, fun b hb ↦ ?_⟩
    rcases List.mem_cons.mp hb with rfl | hb
    · exact ⟨t, ht.of_eq rfl rfl, ht.marked_define hset hr hp hi hm h.unaware hperform⟩
    · obtain ⟨t', ht', hm'⟩ := h.marked b (by simp [hb])
      exact ⟨t', ht', hm'.of_performs hset hr hp hi hb hperform⟩
  | @enter a rest m dest callee args f vs hi hf hops =>
    obtain ⟨t, ht, hm⟩ := h.marked a (by simp)
    refine ⟨h.unaware, fun b hb ↦ ?_⟩
    rcases List.mem_cons.mp hb with rfl | hb
    · exact ht.enter hset hr hi hm rfl hf hops
    · exact h.marked b hb
  | @goto a rest m target ht hlt =>
    refine ⟨h.unaware, fun b hb ↦ ?_⟩
    rcases List.mem_cons.mp hb with rfl | hb
    · obtain ⟨t, ht, hm⟩ := h.marked a (by simp)
      exact ⟨t, ht.of_eq rfl rfl, hm.args, hm.values, hm.locals, hm.calls⟩
    · exact h.marked b (by simp [hb])
  | @ret a b rest m operands vs i ht hops hi =>
    refine ⟨h.unaware, fun c hc ↦ ?_⟩
    rcases List.mem_cons.mp hc with rfl | hc
    · obtain ⟨t, ht', hm⟩ := h.marked a (by simp)
      exact ⟨t, ht'.of_eq rfl rfl, hm.define (hp.returned b rfl operands vs ht hops)
        (hp.careful.confined.returned ht hops)⟩
    · exact h.marked c (by simp [hc])
  | finish => exact ⟨h.unaware, fun c hc ↦ by simp at hc⟩

/-- The arguments are as the frame has them, and only the one at that position is the configurer.
Nothing else that a run begins with is, and nothing is the address of a local. -/
structure Given (frame : Frame) (configurer : Nat) (args outside : List Value) : Prop where
  fits : Activation.Fits { function := frame.function, args } frame
  args : ∀ (n : Nat) v, args[n]? = some v → v.AddressFree ∧ (v.isConfigurer → n = configurer)
  outside : ∀ v ∈ outside, v.AddressFree ∧ v.isConfigurer = false

/-- The configurer is followed throughout a run that begins with a function that the calls cover. -/
theorem tracked_of_runs {args outside : List Value} {frame : Frame} {configurer : Nat}
    (hset : Setting env Traceable (.initial frame.function args outside) fun _ ↦ True)
    (hcovered : Covered env calls frame [configurer]) (hgiven : Given frame configurer args outside)
    (h : Runs env Traceable (.initial frame.function args outside) s) : Tracked env calls s := by
  induction h with
  | start =>
    refine ⟨fun v hv ↦ (hgiven.outside v hv).2, fun a ha ↦ ?_⟩
    obtain rfl := List.mem_singleton.mp ha
    refine ⟨_, .covered hgiven.fits hcovered, fun n v hn hc ↦ ?_, fun id rs v hid ↦ by simp at hid,
      fun id j c v hid ↦ by simp at hid, fun id _ _ _ rs _ hid ↦ by simp at hid⟩
    rw [Taint.params_ofParams, List.mem_singleton]
    exact (hgiven.args n v hn).2 hc
  | step hr hp hs ih => exact ih.step hset hr hp hs

/-- Every method call on the configurer in a traceable run is among the calls, with the place that it
is made at. -/
def CoversRuns (env : Environment) (frame : Frame) (configurer : Nat)
    (calls : List (ConfigurerCall × Place)) : Prop :=
  ∀ args outside, Given frame configurer args outside →
    ∀ a rest m, Runs env Traceable (.initial frame.function args outside) ⟨a :: rest, m⟩ →
      ∀ dest receiver method operands v,
        a.instruction? = some (.call dest (.invoke receiver method) operands) →
          a.operand receiver = some v → v.isConfigurer →
            ∃ c, (c, a.place) ∈ calls ∧ c.frame.function = a.function ∧ c.method = method ∧
              c.args = operands ∧ a.Fits c.frame

/-- Calls that cover a frame cover the runs that begin with it. -/
theorem CoversRuns.of_covered {frame : Frame} {configurer : Nat} (hssa : SingleAssignment env)
    (hframe : env.Has frame) (h : Covered env calls frame [configurer]) :
    CoversRuns env frame configurer calls := by
  intro args outside hgiven a rest m hrun dest receiver method operands v hi hreceiver hconfigurer
  have hinv : Invariant env (.initial frame.function args outside) := by
    refine .initial hframe (fun v hv ↦ ?_) fun v hv ↦ (hgiven.outside v hv).1
    obtain ⟨n, hn⟩ := List.mem_iff_getElem?.mp hv
    exact (hgiven.args n v hn).1
  have hset := Traceable.setting hssa hinv
  obtain ⟨t, ht, hm⟩ := (tracked_of_runs hset h hgiven hrun).marked a (by simp)
  obtain ⟨frame', hfit, c, hc, hmethod, hargs, rfl⟩ :=
    ht.encounter hset hrun hi (Taint.encounter_invoke (hm.contains hreceiver hconfigurer))
  exact ⟨c, hc, hfit.function.symm, hmethod, hargs, hfit⟩

/-- Whatever has been asked before: if no call on the configurer is reported missing, the calls found
have places such that every method call on the configurer, in any traceable run of the function that
is given it, is one of them, made at its place. -/
theorem configurerCalls_complete (hssa : SingleAssignment env) {history : List Question}
    (hhistory : ∀ q ∈ history, env.Has q.frame) (stack : List String) {frame : Frame}
    (hframe : env.Has frame) {configurer : Nat}
    (hcomplete : (Query.configurerCalls env stack frame configurer
      (rememberedAfter env history)).1.fidelity.incomplete = false) :
    ∃ places : List Place,
      places.length = (Query.configurerCalls env stack frame configurer
        (rememberedAfter env history)).1.calls.length ∧
      CoversRuns env frame configurer ((Query.configurerCalls env stack frame configurer
        (rememberedAfter env history)).1.calls.zip places) := by
  have hconcludes := Analysis.findConfigurerCalls_concludes stack hframe configurer
    (rememberedAfter env history) (Analysis.justified_rememberedAfter hhistory)
  obtain ⟨places, hlen, hcovered⟩ := hconcludes.1 hcomplete
  exact ⟨places, hlen, .of_covered hssa hframe (hcovered _ fun _ h ↦ h)⟩

namespace Sample

/-- A function that passes on what it is given. -/
def passing : Function :=
  ⟨"passing", [], [⟨[.call none (.static "naming" []) [.param 0]], .ret []⟩]⟩

/-- A function that calls a method of what it is given. -/
def naming : Function :=
  ⟨"naming", [], [⟨[.call none (.invoke (.param 0) "Identity") []], .ret []⟩]⟩

/-- A function that stores what it is given to a local, and passes the local's address on. -/
def lending : Function := ⟨"lending", [], [⟨[.alloc ⟨0⟩ "configurer", .store (.value ⟨0⟩) (.param 0),
  .call none (.static "borrowing" []) [.value ⟨0⟩]], .ret []⟩]⟩

/-- A function that loads from the address it is given, and calls a method of that. -/
def borrowing : Function := ⟨"borrowing", [], [⟨[.load ⟨0⟩ (.param 0),
  .call none (.invoke (.value ⟨0⟩) "Identity") []], .ret []⟩]⟩

/-- The program of all four. -/
def handing : Environment where
  program := .ofLists [] [borrowing, lending, naming, passing] []

theorem singleAssignment_handing : SingleAssignment handing := by
  intro name f hf
  have hf := List.mem_of_find?_eq_some hf
  rw [show handing.program.functions.toList = [borrowing, lending, naming, passing] by
    decide +kernel] at hf
  have hall : ∀ f ∈ [borrowing, lending, naming, passing], f.definedValues.Nodup := by decide
  exact hall f hf

/-- The run of the function that passes on what it is given can be traced. -/
theorem runs_passing : Runs handing Traceable (.initial passing [.configurer] [])
    ⟨[{ function := naming, args := [.configurer] },
      { function := passing, args := [.configurer] }], {}⟩ := by
  refine .step .start ⟨⟨?_, ?_⟩, ?_, ?_, ?_⟩ (.enter rfl (by decide +kernel) rfl)
  · intro a ha o ho v hv
    obtain rfl := Option.some.inj ha
    obtain rfl := List.mem_singleton.mp ho
    obtain rfl := Option.some.inj hv
    trivial
  · intro a ha dest addr hload
    obtain rfl := Option.some.inj ha
    cases hload
  · intro a ha o ho
    obtain rfl := Option.some.inj ha
    exact absurd ho List.not_mem_nil
  · intro a ha operands vs hret
    obtain rfl := Option.some.inj ha
    cases hret
  · intro a ha dest receiver method args vs hcall
    obtain rfl := Option.some.inj ha
    cases hcall

end Sample

open Sample in
/-- The method call on the configurer that has been passed on is among those found. -/
theorem configurerCalls_complete_passing :
    Runs handing Traceable (.initial passing [.configurer] [])
        ⟨[{ function := naming, args := [.configurer] },
          { function := passing, args := [.configurer] }], {}⟩ ∧
      (Query.configurerCalls handing [] ⟨passing, []⟩ 0
        (rememberedAfter handing [])).1.fidelity.incomplete = false ∧
      ∃ places : List Place, ∃ c, (c, ⟨0, 0⟩) ∈ (Query.configurerCalls handing [] ⟨passing, []⟩ 0
          (rememberedAfter handing [])).1.calls.zip places ∧
        c.frame.function = naming ∧ c.method = "Identity" ∧ c.args = [] := by
  have hframe : handing.Has ⟨passing, []⟩ := by
    unfold Environment.Has
    decide +kernel
  have hcomplete : (Query.configurerCalls handing [] ⟨passing, []⟩ 0
      (rememberedAfter handing [])).1.fidelity.incomplete = false := by
    change (Query.configurerCalls handing [] ⟨passing, []⟩ 0 {}).1.fidelity.incomplete = false
    decide +kernel
  have hgiven : Given ⟨passing, []⟩ 0 [.configurer] [] := by
    refine ⟨⟨rfl, fun n v x h ↦ by simp [Frame.arg] at h⟩, fun n v hn ↦ ?_, by simp⟩
    obtain ⟨hlt, rfl⟩ := List.getElem?_eq_some_iff.mp hn
    obtain rfl : n = 0 := by simpa using hlt
    exact ⟨trivial, fun _ ↦ rfl⟩
  obtain ⟨places, -, hcovers⟩ :=
    configurerCalls_complete singleAssignment_handing (by simp) [] hframe hcomplete
  obtain ⟨c, hc, hfunction, hmethod, hargs, -⟩ :=
    hcovers _ _ hgiven _ _ _ runs_passing _ _ _ _ _ rfl rfl rfl
  exact ⟨runs_passing, hcomplete, places, c, hc, hfunction, hmethod, hargs⟩

open Sample in
/-- The configurer can be loaded from an address that has been passed on: a method call on it that
is not among those found, though none is reported missing. -/
theorem configurerCalls_lending_ne : SingleAssignment handing ∧ handing.Has ⟨lending, []⟩ ∧
    (Query.configurerCalls handing [] ⟨lending, []⟩ 0 (rememberedAfter handing [])).1 =
      { calls := [], fidelity := .immaculate } ∧
    ∃ a rest m, Runs handing (fun _ ↦ True) (.initial lending [.configurer] []) ⟨a :: rest, m⟩ ∧
      a.instruction? = some (.call none (.invoke (.value ⟨0⟩) "Identity") []) ∧
      a.operand (.value ⟨0⟩) = some .configurer := by
  refine ⟨singleAssignment_handing, ?_, ?_,
    { function := borrowing, args := [.address 0] : Activation }.define (some ⟨0⟩) [.configurer],
    [({ function := lending, args := [.configurer] : Activation }.define (some ⟨0⟩)
      [.address 0]).define none []], (Memory.allocate {} "configurer").store 0 .configurer, ?_, rfl,
    rfl⟩
  · unfold Environment.Has
    decide +kernel
  · change (Query.configurerCalls handing [] ⟨lending, []⟩ 0 {}).1 =
      { calls := [], fidelity := .immaculate }
    decide +kernel
  · have hfollowed : handing.followed (.static "borrowing" []) = some borrowing := by
      decide +kernel
    exact .step (.step (.step (.step .start trivial (.perform rfl (.alloc _ _))) trivial
      (.perform rfl (.storeLocal rfl rfl))) trivial (.enter rfl hfollowed rfl)) trivial
      (.perform rfl (.loadLocal rfl rfl (.inl rfl)))

end Wiring.Run
