import Wiring.Proofs.Analysis.Lockstep

/-!
# What is remembered

A remembered answer was computed without being cut short. So whenever an answer is computed without
being cut short, from whatever has been remembered, while whatever is being followed, it is the
same: two computations of it agree by induction on the functions that are left to follow, where one
of them may have been run when the answer was first remembered.
-/

namespace Wiring.Analysis

/-- A remembered answer. -/
inductive Entry where
  | flow (key : Frame.Key) (graph : FlowGraph)
  | result (key : Frame.Key) (index : Nat) (value : Option StaticValue)

/-- What a remembered answer is the answer to. -/
def Entry.question : Entry → Frame.Key × Option Nat
  | flow key _ => (key, none)
  | result key index _ => (key, some index)

namespace Memo

/-- The answer is remembered. -/
def Holds (m : Memo) : Entry → Prop
  | .flow key graph => (key, graph) ∈ m.flows
  | .result key index value => ((key, index), value) ∈ m.results

/-- What is remembered in one memo is remembered in the other too. -/
def Within (m m' : Memo) : Prop := ∀ e, m.Holds e → m'.Holds e

variable {m m' m'' : Memo}

/-- A memo has what it has. -/
theorem Within.refl (m : Memo) : m.Within m := fun _ h ↦ h

/-- A memo has what another has that it includes. -/
theorem Within.trans (h : m.Within m') (h' : m'.Within m'') : m.Within m'' :=
  fun e he ↦ h' e (h e he)

end Memo

/-- How an answer is looked up and kept: under its question, next to all that was kept before. -/
structure Keeps {α : Type} (find? : Memo → Option α) (keep : α → Memo → Memo)
    (entry : α → Entry) : Prop where
  holds_of_find? {m : Memo} {a : α} (h : find? m = some a) : m.Holds (entry a)
  find?_isSome {m : Memo} {a : α} (h : m.Holds (entry a)) : (find? m).isSome
  holds_keep {m : Memo} {a : α} {e : Entry} : (keep a m).Holds e ↔ e = entry a ∨ m.Holds e
  cutoffs_keep (m : Memo) (a : α) : (keep a m).cutoffs = m.cutoffs
  entry_inj {a b : α} (h : entry a = entry b) : a = b
  question_entry (a b : α) : (entry a).question = (entry b).question
  eq_entry {a : α} {e : Entry} (h : e.question = (entry a).question) : ∃ b, e = entry b

/-- Flow graphs are kept by frame. -/
theorem keeps_flow (key : Frame.Key) : Keeps (fun m ↦ m.flows.lookup key)
    (fun g m ↦ { m with flows := (key, g) :: m.flows }) (Entry.flow key) where
  holds_of_find? h := by
    obtain ⟨l, l', hl, -⟩ := List.lookup_eq_some_iff.mp h
    simp [Memo.Holds, hl]
  find?_isSome h := List.lookup_isSome_iff.mpr ⟨_, h, by simp⟩
  holds_keep {m a e} := by cases e <;> simp [Memo.Holds]
  cutoffs_keep m a := rfl
  entry_inj h := by simpa using h
  question_entry a b := rfl
  eq_entry {a e} h := by
    cases e with
    | flow key' g => exact ⟨g, by simpa [Entry.question] using h⟩
    | result => simp [Entry.question] at h

/-- Results of calls are kept by frame and position. -/
theorem keeps_result (key : Frame.Key) (index : Nat) :
    Keeps (fun m ↦ m.results.lookup (key, index))
      (fun v m ↦ { m with results := ((key, index), v) :: m.results }) (Entry.result key index) where
  holds_of_find? h := by
    obtain ⟨l, l', hl, -⟩ := List.lookup_eq_some_iff.mp h
    simp [Memo.Holds, hl]
  find?_isSome h := List.lookup_isSome_iff.mpr ⟨_, h, by simp⟩
  holds_keep {m a e} := by cases e <;> simp [Memo.Holds, and_assoc]
  cutoffs_keep m a := rfl
  entry_inj h := by simpa using h
  question_entry a b := rfl
  eq_entry {a e} h := by
    cases e with
    | flow => simp [Entry.question] at h
    | result key' index' v => exact ⟨v, by simpa [Entry.question] using h⟩

namespace Memoized

variable {α β : Type}

/-- From what is remembered the answer is computed without being cut short. -/
def Uncut (c : Memoized α) (m : Memo) : Prop := (c m).2.cutoffs = m.cutoffs

/-- Nothing remembered is forgotten, and cut-offs are only added. -/
def Grows (c : Memoized α) : Prop := ∀ m, m.cutoffs ≤ (c m).2.cutoffs ∧ m.Within (c m).2

variable {c : Memoized α} {f : α → Memoized β} {m : Memo} {find? : Memo → Option α}
  {keep : α → Memo → Memo} {entry : α → Entry}

/-- A plain answer changes nothing. -/
theorem Grows.pure (a : α) : Grows (Pure.pure a : Memoized α) :=
  fun m ↦ ⟨Nat.le_refl _, .refl m⟩

/-- Computations one after another grow what is remembered if each does. -/
theorem Grows.bind (hc : Grows c) (hf : ∀ a, Grows (f a)) : Grows (c >>= f) := fun m ↦
  ⟨Nat.le_trans (hc m).1 (hf _ _).1, (hc m).2.trans (hf _ _).2⟩

/-- If two computations one after another are not cut short, neither of them is. -/
theorem Uncut.of_bind (h : Uncut (c >>= f) m) (hc : Grows c) (hf : ∀ a, Grows (f a)) :
    Uncut c m ∧ Uncut (f (c m).1) (c m).2 := by
  have hfirst := (hc m).1
  have hsecond := (hf (c m).1 (c m).2).1
  have hall : (f (c m).1 (c m).2).2.cutoffs = m.cutoffs := h
  unfold Uncut
  omega

/-- A remembered answer is given. -/
theorem remembered_of_some {a : α} (h : find? m = some a) :
    remembered find? keep c m = (a, m) := by
  simp only [remembered, bind, StateT.bind, getThe, MonadStateOf.get, StateT.get, pure, h]
  rfl

/-- An answer that is not remembered is computed, and kept if it is not cut short. -/
theorem remembered_of_none (h : find? m = none) : remembered find? keep c m =
    ((c m).1, if (c m).2.cutoffs = m.cutoffs then keep (c m).1 (c m).2 else (c m).2) := by
  simp only [remembered, bind, StateT.bind, getThe, MonadStateOf.get, StateT.get, pure, h]
  obtain ⟨a, m'⟩ := c m
  by_cases hcut : m'.cutoffs = m.cutoffs
  · simp only [hcut, if_true]
    rfl
  · simp only [hcut, if_false]
    rfl

/-- Remembering two computations is the same where the answer is remembered or they do the same. -/
theorem remembered_congr {c' : Memoized α} (h : find? m = none → c m = c' m) :
    remembered find? keep c m = remembered find? keep c' m := by
  cases hfind : find? m with
  | some a => rw [remembered_of_some hfind, remembered_of_some hfind]
  | none => rw [remembered_of_none hfind, remembered_of_none hfind, h hfind]

/-- An answer that is not cut short is computed without that, unless it is remembered. -/
theorem Uncut.of_remembered (h : Uncut (remembered find? keep c) m) (hnone : find? m = none) :
    Uncut c m := by
  unfold Uncut at h ⊢
  rw [remembered_of_none hnone] at h
  dsimp only at h
  split at h
  · next hcut => exact hcut
  · exact h

/-- What is computed without being cut short is kept. -/
theorem remembered_of_uncut (h : Uncut c m) (hnone : find? m = none) :
    remembered find? keep c m = ((c m).1, keep (c m).1 (c m).2) := by
  have hcut : (c m).2.cutoffs = m.cutoffs := h
  rw [remembered_of_none hnone, if_pos hcut]

variable (hk : Keeps find? keep entry)
include hk

/-- Remembering answers grows what is remembered. -/
theorem Grows.remembered (hc : Grows c) : Grows (remembered find? keep c) := by
  intro m
  cases h : find? m with
  | some a =>
    rw [remembered_of_some h]
    exact ⟨Nat.le_refl _, .refl m⟩
  | none =>
    rw [remembered_of_none h]
    dsimp only
    split
    · refine ⟨?_, (hc m).2.trans fun e he ↦ hk.holds_keep.mpr (Or.inr he)⟩
      rw [hk.cutoffs_keep]
      exact (hc m).1
    · exact hc m

/-- An answer that is not cut short is remembered from then on. -/
theorem holds_of_uncut (h : Uncut (remembered find? keep c) m) :
    (remembered find? keep c m).2.Holds (entry (remembered find? keep c m).1) := by
  cases hfind : find? m with
  | some a =>
    rw [remembered_of_some hfind]
    exact hk.holds_of_find? hfind
  | none =>
    rw [remembered_of_uncut (h.of_remembered hfind) hfind]
    exact hk.holds_keep.mpr (Or.inl rfl)

end Memoized

open Memoized

/-- Relations under which what is remembered grows go through remembering. -/
theorem remembering_grows (env : Environment) :
    Remembering env (fun _ c _ ↦ Grows c) where
  pure := .pure
  bind hc hf := hc.bind hf
  cutOff m := ⟨Nat.le_succ _, fun e he ↦ by cases e <;> exact he⟩
  rememberedFlow stack building frame hframe h := h.remembered (keeps_flow frame.key)
  rememberedResult stack building frame index hframe h := by
    rw [resultOf_eq]
    exact h.remembered (keeps_result frame.key index)

/-- Some computation of the answer that is not cut short, from nothing else but what is remembered,
adds nothing to that. -/
def Settles {α : Type} (c : Memoized α) (M : Memo) (a : α) : Prop :=
  ∃ m, m.Within M ∧ Uncut c m ∧ (c m).1 = a ∧ (c m).2.Within M

/-- Every computation of the answer that is not cut short, from nothing else but what is remembered,
adds nothing to that. -/
def Confirms {α : Type} (c : Memoized α) (M : Memo) (a : α) : Prop :=
  ∀ m, m.Within M → Uncut c m → (c m).1 = a ∧ (c m).2.Within M

/-- The remembered answer was computed without being cut short. -/
def Supported (env : Environment) (M : Memo) : Entry → Prop
  | .flow key graph => ∃ stack building frame, env.Has frame ∧ frame.key = key ∧
      Settles (builtFlow env (resultOf env stack) building frame) M graph
  | .result key index value => ∃ stack building frame, env.Has frame ∧ frame.key = key ∧
      Settles (agreedResult env (resultOf env stack) building frame index) M value

/-- Each question is remembered with one answer, which was computed without being cut short. -/
structure Good (env : Environment) (M : Memo) : Prop where
  supported : ∀ e, M.Holds e → Supported env M e
  unique : ∀ e e', M.Holds e → M.Holds e' → e.question = e'.question → e = e'

/-- Where the one computation gives an answer without being cut short, the other one gives the same
answer unless it is cut short. -/
structure Follows (M : Memo) {α : Type} (c c' : Memoized α) : Prop where
  left : Grows c
  right : Grows c'
  confirms : ∀ a, Settles c M a → Confirms c' M a

variable {env : Environment} {M M' : Memo} {α : Type} {c c' : Memoized α} {a : α}
  {find? : Memo → Option α} {keep : α → Memo → Memo} {entry : α → Entry}

/-- What is always cut short confirms whatever you like. -/
theorem confirms_of_cut (h : ∀ m, ¬ Uncut c m) : Confirms c M a := fun m _ hm ↦ absurd hm (h m)

/-- What is always cut short settles nothing. -/
theorem not_settles_of_cut (h : ∀ m, ¬ Uncut c m) : ¬ Settles c M a :=
  fun ⟨m, _, hm, _⟩ ↦ h m hm

/-- An answer is cut short where a call is not followed or a flow graph is not available. -/
theorem not_uncut_cutOff (a : α) (m : Memo) :
    ¬ Uncut (do Memoized.cutOff; return a) m := by
  intro h
  have hcut : m.cutoffs + 1 = m.cutoffs := h
  omega

/-- Cutting an answer short forgets nothing. -/
theorem grows_cutOff (a : α) : Grows (do Memoized.cutOff; return a) :=
  fun m ↦ ⟨Nat.le_succ _, fun e he ↦ by cases e <;> exact he⟩

/-- Following goes through sequencing. -/
theorem lockstep_follows (M : Memo) :
    Lockstep (m := Memoized) (n := Memoized) fun _ ↦ Follows M where
  pure a :=
    { left := .pure a
      right := .pure a
      confirms := fun _ ⟨_, _, _, hb, _⟩ m' hm' _ ↦ ⟨hb, hm'⟩ }
  bind {α β c c' f f'} hc hf :=
    { left := hc.left.bind fun a ↦ (hf a).left
      right := hc.right.bind fun a ↦ (hf a).right
      confirms := fun b ⟨m, hm, hcut, hb, hend⟩ m' hm' hcut' ↦ by
        have h := hcut.of_bind hc.left fun a ↦ (hf a).left
        have h' := hcut'.of_bind hc.right fun a ↦ (hf a).right
        have hmid : (c m).2.Within M := ((hf _).left _).2.trans hend
        obtain ⟨heq, hmid'⟩ := hc.confirms _ ⟨m, hm, h.1, rfl, hmid⟩ m' hm' h'.1
        have hrest := (hf (c m).1).confirms b ⟨(c m).2, hmid, h.2, hb, hend⟩ (c' m').2 hmid'
        rw [← heq] at hrest
        exact hrest h'.2 }

/-- A remembered answer is given, so it is followed if every computation of it confirms it. -/
theorem Follows.remembered (hk : Keeps find? keep entry) (hM : Good env M) (hc : Grows c)
    (hc' : Grows c') (hconfirms : ∀ a, M.Holds (entry a) → Confirms c' M a) :
    Follows M (remembered find? keep c) (remembered find? keep c') where
  left := hc.remembered hk
  right := hc'.remembered hk
  confirms := by
    rintro _ ⟨m, hm, hcut, rfl, hend⟩ m' hm' hcut'
    have ha := hend _ (holds_of_uncut hk hcut)
    generalize (Memoized.remembered find? keep c m).1 = a at ha
    cases hfind : find? m' with
    | some b =>
      have hb := hm' _ (hk.holds_of_find? hfind)
      rw [remembered_of_some hfind]
      have heq := hM.unique _ _ hb ha (hk.question_entry b a)
      exact ⟨hk.entry_inj heq, hm'⟩
    | none =>
      have hcomputed := hcut'.of_remembered hfind
      obtain ⟨heq, hwithin⟩ := hconfirms a ha m' hm' hcomputed
      rw [remembered_of_uncut hcomputed hfind, heq]
      refine ⟨rfl, fun e he ↦ ?_⟩
      rcases hk.holds_keep.mp he with rfl | he
      · exact ha
      · exact hwithin e he

/-- A key is that of one frame of the program. -/
theorem Environment.Has.eq_of_key {frame frame' : Frame} (h : env.Has frame)
    (h' : env.Has frame') (hkey : frame.key = frame'.key) : frame = frame' := by
  obtain ⟨f, args⟩ := frame
  obtain ⟨f', args'⟩ := frame'
  obtain ⟨hname, rfl⟩ := Prod.mk.inj hkey
  have hf : env.program.function? f.name = some f := h
  have hf' : env.program.function? f'.name = some f' := h'
  have hff : some f = some f' := by
    rw [← hf, ← hf']
    exact congrArg _ hname
  cases hff
  rfl

section Agreement

variable {stack stack' building building' : List String} {frame : Frame}

/-- What is always cut short is followed by anything. -/
theorem Follows.of_cut_left (h : ∀ m, ¬ Uncut c m) (hc : Grows c) (hc' : Grows c') :
    Follows M c c' := ⟨hc, hc', fun _ ha ↦ absurd ha (not_settles_of_cut h)⟩

/-- What is always cut short follows anything. -/
theorem Follows.of_cut_right (h : ∀ m, ¬ Uncut c' m) (hc : Grows c) (hc' : Grows c') :
    Follows M c c' := ⟨hc, hc', fun _ _ ↦ confirms_of_cut h⟩

/-- A flow graph built anew follows another one if the results of calls do. -/
theorem follows_builtFlow
    (hresults : ∀ stack building building' callee, env.Has callee → ∀ i,
      Follows M (resultOf env stack building callee i) (resultOf env stack' building' callee i)) :
    Follows M (builtFlow env (resultOf env stack) building frame)
      (builtFlow env (resultOf env stack') building' frame) :=
  (lockstep_follows M).builtFlow (.refl env)
    (.of_cut_left (not_uncut_cutOff none) (grows_cutOff none) (grows_cutOff none))
    fun _ _ hg args i ↦ hresults _ _ _ _ (Environment.has_of_followed hg args) i

/-- What is remembered of a flow graph is confirmed if the results of calls are followed. -/
theorem confirms_builtFlow {graph : FlowGraph} (hM : Good env M) (hframe : env.Has frame)
    (hgraph : M.Holds (.flow frame.key graph))
    (hresults : ∀ stack building building' callee, env.Has callee → ∀ i,
      Follows M (resultOf env stack building callee i) (resultOf env stack' building' callee i)) :
    Confirms (builtFlow env (resultOf env stack') building' frame) M graph := by
  obtain ⟨s, b, frame', hframe', hkey, hsettles⟩ := hM.supported _ hgraph
  obtain rfl := hframe'.eq_of_key hframe hkey
  exact (follows_builtFlow hresults).confirms graph hsettles

/-- A flow graph follows another one if the results of calls do. -/
theorem follows_flowOf (hM : Good env M) (hframe : env.Has frame)
    (hresults : ∀ stack building building' callee, env.Has callee → ∀ i,
      Follows M (resultOf env stack building callee i) (resultOf env stack' building' callee i)) :
    Follows M (flowOf env (resultOf env stack) building frame)
      (flowOf env (resultOf env stack') building' frame) := by
  refine Follows.remembered (keeps_flow frame.key) hM
    ((remembering_grows env).builtFlow_self _ _ _) ((remembering_grows env).builtFlow_self _ _ _)
    fun g hg ↦ confirms_builtFlow hM hframe hg hresults

/-- The agreed result of a function follows another one if the results of calls do. -/
theorem follows_agreedResult (hM : Good env M) (hframe : env.Has frame)
    (hresults : ∀ stack building building' callee, env.Has callee → ∀ i,
      Follows M (resultOf env stack building callee i) (resultOf env stack' building' callee i))
    (index : Nat) : Follows M (agreedResult env (resultOf env stack) building frame index)
      (agreedResult env (resultOf env stack') building' frame index) := by
  have hflow (stack : List String) (building : List String) :
      Grows (sources env (resultOf env stack) building frame).flow := by
    unfold sources
    split
    · exact grows_cutOff none
    · exact ((remembering_grows env).flowOf_self _ _ frame hframe).bind fun g ↦
        .pure (some g)
  have hbuilt : Follows M (flowOf env (resultOf env stack) building frame)
      (flowOf env (resultOf env stack') building' frame) := follows_flowOf hM hframe hresults
  refine (lockstep_follows M).agreedResult (.refl env)
    (fun _ _ hg args i ↦ hresults _ _ _ _ (Environment.has_of_followed hg args) i) hbuilt ?_ index
  have hcut : ∀ m, ¬ Uncut unavailable m := not_uncut_cutOff none
  by_cases hb : frame.name ∈ building
  · refine .of_cut_left ?_ (hflow _ _) (hflow _ _)
    simpa only [sources, hb, if_true] using hcut
  · by_cases hb' : frame.name ∈ building'
    · refine .of_cut_right ?_ (hflow _ _) (hflow _ _)
      simpa only [sources, hb', if_true] using hcut
    · simpa only [sources, hb, hb', if_false] using (lockstep_follows M).map hbuilt some

/-- What is remembered of a result is confirmed if the results of calls are followed. -/
theorem confirms_computedResult {index : Nat} {value : Option StaticValue} (hM : Good env M)
    (hframe : env.Has frame) (hvalue : M.Holds (.result frame.key index value))
    (hresults : env.MayEnter stack' frame.name → ∀ stack building building' callee,
      env.Has callee → ∀ i, Follows M (resultOf env stack building callee i)
        (resultOf env (frame.name :: stack') building' callee i)) :
    Confirms (computedResult env stack' building' frame index) M value := by
  unfold computedResult
  split
  · next henter =>
    obtain ⟨s, b, frame', hframe', hkey, hsettles⟩ := hM.supported _ hvalue
    obtain rfl := hframe'.eq_of_key hframe hkey
    exact (follows_agreedResult hM hframe (hresults henter) index).confirms value hsettles
  · exact confirms_of_cut (not_uncut_cutOff none)

/-- Two computations of a result agree, unless one is cut short. -/
theorem follows_resultOf (hM : Good env M) (hframe : env.Has frame) (index : Nat) :
    Follows M (resultOf env stack building frame index)
      (resultOf env stack' building' frame index) := by
  induction hn : (env.remaining stack').length using Nat.strongRecOn
    generalizing stack stack' building building' frame index with
  | ind n ih =>
    have hgrows (stack building : List String) :
        Grows (computedResult env stack building frame index) := by
      unfold computedResult
      split
      · exact (remembering_grows env).agreedResult_self _ _ frame index hframe
      · exact grows_cutOff none
    rw [resultOf_eq, resultOf_eq]
    refine Follows.remembered (keeps_result frame.key index) hM (hgrows _ _) (hgrows _ _)
      fun v hv ↦ confirms_computedResult hM hframe hv fun henter stack b b' callee hc i ↦
        ih _ (hn ▸ Environment.remaining_lt henter) hc i rfl

end Agreement

/-- Settled is settled, whatever else is remembered. -/
theorem Settles.mono (h : Settles c M a) (hsub : M.Within M') : Settles c M' a := by
  obtain ⟨m, hm, hcut, ha, hend⟩ := h
  exact ⟨m, hm.trans hsub, hcut, ha, hend.trans hsub⟩

/-- Support stays, whatever else is remembered. -/
theorem Supported.mono {e : Entry} (h : Supported env M e) (hsub : M.Within M') :
    Supported env M' e := by
  cases e with
  | flow key graph =>
    obtain ⟨stack, building, frame, hframe, hkey, hs⟩ := h
    exact ⟨stack, building, frame, hframe, hkey, hs.mono hsub⟩
  | result key index value =>
    obtain ⟨stack, building, frame, hframe, hkey, hs⟩ := h
    exact ⟨stack, building, frame, hframe, hkey, hs.mono hsub⟩

/-- With nothing remembered there is nothing wrong. -/
theorem good_empty : Good env {} where
  supported e he := by cases e <;> simp [Memo.Holds] at he
  unique e e' he := by cases e <;> simp [Memo.Holds] at he

/-- Only what is remembered matters. -/
theorem Good.congr (h : Good env M) (hsub : M.Within M') (hsub' : M'.Within M) : Good env M' where
  supported e he := (h.supported e (hsub' e he)).mono hsub
  unique e e' he he' := h.unique e e' (hsub' e he) (hsub' e' he')

/-- A computation whose answer stays the same, once it has not been cut short. -/
structure Steady (env : Environment) (c : Memoized α) : Prop where
  grows : Grows c
  good : ∀ m, Good env m → Good env (c m).2
  transfers : ∀ m m', Good env m → Good env m' → m.Within m' → Uncut c m →
    Uncut c m' ∧ (c m').1 = (c m).1 ∧ (c m).2.Within (c m').2

/-- Plain answers stay the same. -/
theorem Steady.pure (a : α) : Steady env (Pure.pure a : Memoized α) where
  grows := .pure a
  good _ hm := hm
  transfers _ _ _ _ hsub _ := ⟨rfl, rfl, hsub⟩

/-- Steadiness goes through sequencing. -/
theorem Steady.bind {β : Type} {f : α → Memoized β} (hc : Steady env c)
    (hf : ∀ a, Steady env (f a)) : Steady env (c >>= f) where
  grows := hc.grows.bind fun a ↦ (hf a).grows
  good m hm := (hf _).good _ (hc.good m hm)
  transfers m m' hm hm' hsub hcut := by
    have h := hcut.of_bind hc.grows fun a ↦ (hf a).grows
    obtain ⟨hcut', heq, hsub'⟩ := hc.transfers m m' hm hm' hsub h.1
    obtain ⟨hrest, heq', hend⟩ :=
      (hf (c m).1).transfers _ _ (hc.good m hm) (hc.good m' hm') hsub' h.2
    have hrun : (c >>= f) m' = f (c m).1 (c m').2 := by
      change f (c m').1 (c m').2 = _
      rw [heq]
    unfold Uncut
    rw [hrun]
    exact ⟨hrest.trans hcut', heq', hend⟩

/-- What is always cut short is steady, as there is nothing to it. -/
theorem Steady.cutOff : Steady env Memoized.cutOff where
  grows m := ⟨Nat.le_succ _, fun e he ↦ by cases e <;> exact he⟩
  good m hm := hm.congr (fun e he ↦ by cases e <;> exact he) (fun e he ↦ by cases e <;> exact he)
  transfers m m' _ _ _ hcut := by
    have hcut : m.cutoffs + 1 = m.cutoffs := hcut
    omega

/-- An answer may be remembered if it is supported and whatever else might be remembered in its
place is the same. -/
theorem Good.kept (h : Good env M) (hk : Keeps find? keep entry)
    (hsupp : Supported env (keep a M) (entry a)) (hsame : ∀ b, M.Holds (entry b) → a = b) :
    Good env (keep a M) where
  supported e he := by
    rcases hk.holds_keep.mp he with rfl | he
    · exact hsupp
    · exact (h.supported e he).mono fun e he ↦ hk.holds_keep.mpr (Or.inr he)
  unique e e' he he' hq := by
    have hrival {e : Entry} (he : M.Holds e) (hq : e.question = (entry a).question) :
        e = entry a := by
      obtain ⟨b, rfl⟩ := hk.eq_entry hq
      rw [hsame b he]
    rcases hk.holds_keep.mp he with rfl | he
    · rcases hk.holds_keep.mp he' with rfl | he'
      · rfl
      · exact (hrival he' hq.symm).symm
    · rcases hk.holds_keep.mp he' with rfl | he'
      · exact hrival he hq
      · exact h.unique e e' he he' hq

/-- Remembering answers that are supported and confirmed is steady. -/
theorem Steady.remembered (hk : Keeps find? keep entry) (hc : Steady env c)
    (hsupp : ∀ M a, Settles c M a → Supported env M (entry a))
    (hconf : ∀ M, Good env M → ∀ a, M.Holds (entry a) → Confirms c M a) :
    Steady env (remembered find? keep c) where
  grows := hc.grows.remembered hk
  good m hm := by
    cases hfind : find? m with
    | some a => rwa [remembered_of_some hfind]
    | none =>
      have hgood := hc.good m hm
      have hgrown := (hc.grows m).2
      by_cases hcut : Uncut c m
      · rw [remembered_of_uncut hcut hfind]
        refine hgood.kept hk (hsupp _ _ ?_) fun b hb ↦ (hconf _ hgood b hb m hgrown hcut).1
        have hkept : (c m).2.Within (keep (c m).1 (c m).2) :=
          fun e he ↦ hk.holds_keep.mpr (Or.inr he)
        exact ⟨m, hgrown.trans hkept, hcut, rfl, hkept⟩
      · have hcut' : ¬ (c m).2.cutoffs = m.cutoffs := hcut
        rwa [remembered_of_none hfind, if_neg hcut']
  transfers m m' hm hm' hsub hcut := by
    have hknown {b : α} (hb : m'.Holds (entry b)) : find? m' = some b := by
      obtain ⟨d, hd⟩ := Option.isSome_iff_exists.mp (hk.find?_isSome hb)
      have heq := hm'.unique _ _ (hk.holds_of_find? hd) hb (hk.question_entry d b)
      rw [hd, hk.entry_inj heq]
    cases hfind : find? m with
    | some a =>
      have hfind' := hknown (hsub _ (hk.holds_of_find? hfind))
      unfold Uncut
      rw [remembered_of_some hfind, remembered_of_some hfind']
      exact ⟨rfl, rfl, hsub⟩
    | none =>
      have hcomputed := hcut.of_remembered hfind
      unfold Uncut
      rw [remembered_of_uncut hcomputed hfind]
      cases hfind' : find? m' with
      | some b =>
        have hb := hk.holds_of_find? hfind'
        obtain ⟨rfl, hwithin⟩ := hconf m' hm' b hb m hsub hcomputed
        rw [remembered_of_some hfind']
        refine ⟨rfl, rfl, fun e he ↦ ?_⟩
        rcases hk.holds_keep.mp he with rfl | he
        · exact hb
        · exact hwithin e he
      | none =>
        obtain ⟨hcut', heq, hwithin⟩ := hc.transfers m m' hm hm' hsub hcomputed
        rw [remembered_of_uncut hcut' hfind', heq]
        refine ⟨(hk.cutoffs_keep _ _).trans hcut', rfl, fun e he ↦ hk.holds_keep.mpr ?_⟩
        rcases hk.holds_keep.mp he with rfl | he
        · exact Or.inl rfl
        · exact Or.inr (hwithin e he)

/-- Steadiness goes through remembering. -/
theorem remembering_steady (env : Environment) : Remembering env (fun _ c _ ↦ Steady env c) where
  pure := .pure
  bind := .bind
  cutOff := .cutOff
  rememberedFlow stack building frame hframe h := by
    refine h.remembered (keeps_flow frame.key)
      (fun M g hg ↦ ⟨stack, building, frame, hframe, rfl, hg⟩) fun M hM g hg ↦ ?_
    exact confirms_builtFlow hM hframe hg fun _ _ _ _ hc i ↦ follows_resultOf hM hc i
  rememberedResult stack building frame index hframe h := by
    rw [resultOf_eq]
    refine h.remembered (keeps_result frame.key index) (fun M v hv ↦ ?_) fun M hM v hv ↦ ?_
    · unfold computedResult at hv
      split at hv
      · exact ⟨_, building, frame, hframe, rfl, hv⟩
      · exact absurd hv (not_settles_of_cut (not_uncut_cutOff none))
    · exact confirms_computedResult hM hframe hv fun _ _ _ _ _ hc i ↦ follows_resultOf hM hc i

end Wiring.Analysis
