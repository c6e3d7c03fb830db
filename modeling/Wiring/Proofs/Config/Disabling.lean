import Mathlib.Tactic.ByContra
import Mathlib.Tactic.Push
import Wiring.Config.Handler

/-!
# Whether a handler is turned off

What is known about a handler leaves open how its flags turn out at run time. The answer on whether
it is turned off is right however they do; and one is given whenever all ways agree, except that a
handler is not said to be on while a flag may be absent.
-/

namespace Wiring.Config

/-- The flag may have the setting at run time. -/
def Flag.MayBe (f : Flag) (setting : Bool) : Prop :=
  f.value = some setting ∨ f.value = none ∨ f.fidelity.incomplete

/-- How flags may turn out at run time: each has a setting that it may have, a speculative one may
be absent, and an open list may have further settings anywhere. -/
inductive Completion (isOpen : Bool) : List Flag → List Bool → Prop
  | nil : Completion isOpen [] []
  | keep {f : Flag} {setting : Bool} {flags : List Flag} {settings : List Bool}
      (hf : f.MayBe setting) (rest : Completion isOpen flags settings) :
      Completion isOpen (f :: flags) (setting :: settings)
  | drop {f : Flag} {flags : List Flag} {settings : List Bool} (hf : f.fidelity.speculative)
      (rest : Completion isOpen flags settings) : Completion isOpen (f :: flags) settings
  | further {setting : Bool} {flags : List Flag} {settings : List Bool} (hopen : isOpen)
      (rest : Completion isOpen flags settings) : Completion isOpen flags (setting :: settings)

/-- How the flags of a handler may turn out at run time. An incomplete handler may have more. -/
def Handler.Completion (h : Handler) (settings : List Bool) : Prop :=
  Config.Completion h.fidelity.incomplete h.disabled settings

namespace Flag

/-- A setting that is certain is the one that is known. -/
theorem certainValue_eq_some_iff {f : Flag} {setting : Bool} :
    f.certainValue = some setting ↔ f.fidelity.isImmaculate ∧ f.value = some setting := by
  unfold certainValue
  split <;> simp [*]

/-- A flag with a certain setting is there, and has no other setting. -/
theorem eq_of_certainValue {f : Flag} {setting : Bool} (h : f.certainValue = some setting) :
    f.fidelity.speculative = false ∧ ∀ other, f.MayBe other → other = setting := by
  obtain ⟨hf, hv⟩ := certainValue_eq_some_iff.mp h
  obtain ⟨hi, hs⟩ : f.fidelity.incomplete = false ∧ f.fidelity.speculative = false := by
    simpa [Fidelity.isImmaculate] using hf
  refine ⟨hs, ?_⟩
  rintro other (h | h | h)
  · exact Option.some.inj (h.symm.trans hv)
  · simp [hv] at h
  · simp [hi] at h

/-- A flag that is there but has no certain setting may have any. -/
theorem mayBe_of_certainValue_eq_none {f : Flag} (h : f.certainValue = none)
    (hs : f.fidelity.speculative = false) (setting : Bool) : f.MayBe setting := by
  unfold certainValue Fidelity.isImmaculate at h
  unfold MayBe
  cases hi : f.fidelity.incomplete <;> simp_all

end Flag

namespace Completion

variable {isOpen : Bool} {flags : List Flag} {settings : List Bool}

/-- A flag that certainly turns the handler off does so however the others turn out. -/
theorem true_mem {f : Flag} (hf : f ∈ flags) (hc : f.certainValue = some true)
    (h : Completion isOpen flags settings) : true ∈ settings := by
  induction h with
  | nil => cases hf
  | keep hmay rest ih =>
    rcases List.mem_cons.mp hf with rfl | hf
    · rw [(Flag.eq_of_certainValue hc).2 _ hmay]
      exact List.mem_cons_self
    · exact List.mem_cons_of_mem _ (ih hf)
  | drop hs rest ih =>
    rcases List.mem_cons.mp hf with rfl | hf
    · rw [(Flag.eq_of_certainValue hc).1] at hs
      cases hs
    · exact ih hf
  | further hopen rest ih => exact List.mem_cons_of_mem _ (ih hf)

/-- Flags of which each is certainly off leave a handler on if there can be no others. -/
theorem true_notMem (hflags : ∀ f ∈ flags, f.certainValue = some false)
    (h : Completion false flags settings) : true ∉ settings := by
  induction h with
  | nil => exact List.not_mem_nil
  | keep hmay rest ih =>
    rw [List.forall_mem_cons] at hflags
    rw [(Flag.eq_of_certainValue hflags.1).2 _ hmay]
    simpa using ih hflags.2
  | drop hs rest ih => exact ih (List.forall_mem_cons.mp hflags).2
  | further hopen rest ih => cases hopen

/-- Flags may always turn out in some way. -/
theorem exists_settings (isOpen : Bool) (flags : List Flag) :
    ∃ settings, Completion isOpen flags settings := by
  induction flags with
  | nil => exact ⟨[], .nil⟩
  | cons f flags ih =>
    obtain ⟨settings, h⟩ := ih
    cases hv : f.value with
    | none => exact ⟨true :: settings, .keep (.inr (.inl hv)) h⟩
    | some setting => exact ⟨setting :: settings, .keep (.inl hv) h⟩

/-- If no flag certainly turns the handler off, it may be on. -/
theorem exists_true_notMem (hflags : ∀ f ∈ flags, f.certainValue ≠ some true) :
    ∃ settings, Completion isOpen flags settings ∧ true ∉ settings := by
  induction flags with
  | nil => exact ⟨[], .nil, List.not_mem_nil⟩
  | cons f flags ih =>
    rw [List.forall_mem_cons] at hflags
    obtain ⟨settings, h, hnot⟩ := ih hflags.2
    -- what may be absent is dropped, and anything else may be off
    cases hs : f.fidelity.speculative with
    | true => exact ⟨settings, .drop hs h, hnot⟩
    | false =>
      refine ⟨false :: settings, .keep ?_ h, by simpa using hnot⟩
      cases hc : f.certainValue with
      | none => exact f.mayBe_of_certainValue_eq_none hc hs false
      | some setting =>
        cases setting with
        | true => exact absurd hc hflags.1
        | false => exact .inl (Flag.certainValue_eq_some_iff.mp hc).2

/-- If a flag is there and not certain, the handler may be off. -/
theorem exists_true_mem {f : Flag} (hf : f ∈ flags) (hc : f.certainValue = none)
    (hs : f.fidelity.speculative = false) :
    ∃ settings, Completion isOpen flags settings ∧ true ∈ settings := by
  induction flags with
  | nil => cases hf
  | cons f' flags ih =>
    rcases List.mem_cons.mp hf with rfl | hf
    · obtain ⟨settings, h⟩ := exists_settings isOpen flags
      exact ⟨true :: settings, .keep (f.mayBe_of_certainValue_eq_none hc hs true) h,
        List.mem_cons_self⟩
    · obtain ⟨settings, h, hmem⟩ := ih hf
      cases hv : f'.value with
      | none =>
        exact ⟨true :: settings, .keep (.inr (.inl hv)) h, List.mem_cons_self⟩
      | some setting =>
        exact ⟨setting :: settings, .keep (.inl hv) h, List.mem_cons_of_mem _ hmem⟩

/-- What turns a handler off however its flags turn out. -/
theorem forall_true_mem_iff :
    (∀ settings, Completion isOpen flags settings → true ∈ settings) ↔
      ∃ f ∈ flags, f.certainValue = some true := by
  constructor
  · intro hall
    by_contra hnone
    push Not at hnone
    obtain ⟨settings, hsettings, hnot⟩ := exists_true_notMem hnone
    exact hnot (hall settings hsettings)
  · rintro ⟨f, hf, hc⟩ settings hsettings
    exact hsettings.true_mem hf hc

/-- What leaves a handler on however its flags turn out, if none of them may be absent. -/
theorem forall_true_notMem_iff :
    ((∀ settings, Completion isOpen flags settings → true ∉ settings) ∧
        ∀ f ∈ flags, f.fidelity.speculative = false) ↔
      isOpen = false ∧ ∀ f ∈ flags, f.certainValue = some false := by
  constructor
  · rintro ⟨hall, hthere⟩
    obtain ⟨settings, hsettings⟩ := exists_settings isOpen flags
    refine ⟨Bool.eq_false_iff.mpr fun hopen ↦ ?_, fun f hf ↦ ?_⟩
    · exact hall (true :: settings) (.further hopen hsettings) List.mem_cons_self
    · cases hc : f.certainValue with
      | none =>
        obtain ⟨settings, hsettings, hmem⟩ := exists_true_mem hf hc (hthere f hf)
        exact absurd hmem (hall settings hsettings)
      | some setting =>
        cases setting with
        | true => exact absurd (hsettings.true_mem hf hc) (hall settings hsettings)
        | false => rfl
  · rintro ⟨rfl, hoff⟩
    exact ⟨fun settings hsettings ↦ hsettings.true_notMem hoff,
      fun f hf ↦ (Flag.eq_of_certainValue (hoff f hf)).1⟩

end Completion

namespace Handler

/-- When a handler is said to be off. -/
theorem disabledState_eq_some_true_iff (h : Handler) :
    h.disabledState = some true ↔ ∃ f ∈ h.disabled, f.certainValue = some true := by
  unfold disabledState
  by_cases hany : h.disabled.any fun f ↦ f.certainValue = some true
  · rw [if_pos hany]
    simpa using hany
  · rw [if_neg hany]
    have hnone : ¬ ∃ f ∈ h.disabled, f.certainValue = some true := by simpa using hany
    refine iff_of_false ?_ hnone
    split <;> simp

/-- When a handler is said to be on. -/
theorem disabledState_eq_some_false_iff (h : Handler) :
    h.disabledState = some false ↔
      h.fidelity.incomplete = false ∧ ∀ f ∈ h.disabled, f.certainValue = some false := by
  unfold disabledState
  by_cases hany : h.disabled.any fun f ↦ f.certainValue = some true
  · rw [if_pos hany]
    obtain ⟨f, hf, hc⟩ : ∃ f ∈ h.disabled, f.certainValue = some true := by simpa using hany
    refine iff_of_false (by simp) fun hoff ↦ ?_
    simpa using hc.symm.trans (hoff.2 f hf)
  · rw [if_neg hany]
    have hne : ∀ f ∈ h.disabled, f.certainValue ≠ some true := by simpa using hany
    have hcertain : (h.disabled.all fun f ↦ f.certainValue.isSome) ↔
        ∀ f ∈ h.disabled, f.certainValue = some false := by
      rw [List.all_eq_true]
      refine forall₂_congr fun f hf ↦ ?_
      have hf := hne f hf
      cases hc : f.certainValue with
      | none => simp
      | some setting => cases setting <;> simp_all
    rw [← hcertain, ← Bool.not_eq_true', ← Bool.and_eq_true]
    split <;> simp [*]

/-- A handler is said to be off, or on, only if it is so however its flags turn out. If all ways
agree, it is said to be off; and it is said to be on, if also none of its flags may be absent. -/
theorem disabledState_eq_some_iff (h : Handler) (off : Bool) :
    h.disabledState = some off ↔
      (∀ settings, h.Completion settings → settings.any id = off) ∧
        (off = false → ∀ f ∈ h.disabled, f.fidelity.speculative = false) := by
  have hany (settings : List Bool) : settings.any id = true ↔ true ∈ settings := by simp
  have hnone (settings : List Bool) : settings.any id = false ↔ true ∉ settings := by simp
  unfold Handler.Completion
  cases off with
  | true =>
    simp only [hany, Completion.forall_true_mem_iff, disabledState_eq_some_true_iff,
      Bool.true_eq_false, false_implies, and_true]
  | false =>
    simp only [hnone, forall_const, Completion.forall_true_notMem_iff,
      disabledState_eq_some_false_iff]

end Handler
end Wiring.Config
