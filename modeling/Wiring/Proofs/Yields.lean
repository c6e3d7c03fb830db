import Mathlib.Data.List.Forall2

/-!
# What a computation yields

Computations with a state, by an invariant of the state and a property of the answer, computations
that do the same in every state with the invariant, and computations of two kinds that go in lockstep.
-/

namespace Wiring

universe u

/-- Started in a state with the invariant, the computation ends in one, and its answer has the
property. -/
def Yields {σ α : Type u} (I : σ → Prop) (Q : α → Prop) (c : StateM σ α) : Prop :=
  ∀ s, I s → Q (c s).1 ∧ I (c s).2

namespace Yields

variable {σ α β : Type u} {I : σ → Prop} {Q R : α → Prop} {P : β → Prop}

/-- A plain answer leaves the state alone. -/
theorem pure {a : α} (h : Q a) : Yields I Q (Pure.pure a : StateM σ α) :=
  fun _ hs ↦ ⟨h, hs⟩

/-- One computation after another. -/
theorem bind {c : StateM σ α} {f : α → StateM σ β} (hc : Yields I Q c)
    (hf : ∀ a, Q a → Yields I P (f a)) : Yields I P (c >>= f) :=
  fun s hs ↦ hf _ (hc s hs).1 _ (hc s hs).2

/-- A property may be weakened. -/
theorem mono {c : StateM σ α} (hc : Yields I Q c) (h : ∀ a, Q a → R a) : Yields I R c :=
  fun s hs ↦ ⟨h _ (hc s hs).1, (hc s hs).2⟩

/-- An answer put through a function. -/
theorem map {c : StateM σ α} {f : α → β} (hc : Yields I Q c) (h : ∀ a, Q a → P (f a)) :
    Yields I P (f <$> c) :=
  fun s hs ↦ ⟨h _ (hc s hs).1, (hc s hs).2⟩

/-- Going on in the same way after every answer that there may be gives the same. -/
theorem bind_congr {c : StateM σ α} {f f' : α → StateM σ β} (hc : Yields (fun _ ↦ True) Q c)
    (h : ∀ a, Q a → f a = f' a) : c >>= f = c >>= f' :=
  funext fun s ↦ congrFun (h _ (hc s trivial).1) (c s).2

/-- A computation for each item of a list. -/
theorem mapM {γ : Type u} {f : γ → StateM σ α} {S : γ → α → Prop} {l : List γ}
    (h : ∀ x ∈ l, Yields I (S x) (f x)) : Yields I (List.Forall₂ S l) (l.mapM f) := by
  induction l with
  | nil =>
    rw [List.mapM_nil]
    exact .pure .nil
  | cons x l ih =>
    rw [List.mapM_cons]
    refine (h x (by simp)).bind fun a ha ↦ ?_
    exact (ih fun y hy ↦ h y (List.mem_cons_of_mem _ hy)).bind fun b hb ↦ .pure (.cons ha hb)

end Yields

/-- A relation between computations of two kinds that goes through sequencing. -/
structure Lockstep {m n : Type u → Type u} [Monad m] [Monad n]
    (P : ∀ ⦃α : Type u⦄, m α → n α → Prop) : Prop where
  pure {α : Type u} (a : α) : P (pure a) (pure a)
  bind {α β : Type u} {c : m α} {d : n α} {f : α → m β} {g : α → n β} (hc : P c d)
    (hf : ∀ a, P (f a) (g a)) : P (c >>= f) (d >>= g)

namespace Lockstep

variable {m n : Type u → Type u} [Monad m] [Monad n] [LawfulMonad m] [LawfulMonad n]
  {P : ∀ ⦃α : Type u⦄, m α → n α → Prop} (hP : Lockstep P) {α β : Type u}
include hP

/-- An answer put through a function. -/
theorem map {c : m α} {d : n α} (hc : P c d) (f : α → β) : P (f <$> c) (f <$> d) := by
  rw [map_eq_pure_bind, map_eq_pure_bind]
  exact hP.bind hc fun a ↦ hP.pure (f a)

/-- A computation for each item of a list. -/
theorem mapM {f : α → m β} {g : α → n β} (l : List α) (hf : ∀ a ∈ l, P (f a) (g a)) :
    P (l.mapM f) (l.mapM g) := by
  induction l with
  | nil =>
    rw [List.mapM_nil, List.mapM_nil]
    exact hP.pure _
  | cons a l ih =>
    rw [List.mapM_cons, List.mapM_cons]
    apply hP.bind (hf a (by simp))
    intro b
    exact hP.bind (ih fun a ha ↦ hf a (List.mem_cons_of_mem _ ha)) fun _ ↦ hP.pure _

end Lockstep

/-- Started in a state with the invariant, the computations do the same, and they end in one. -/
def Coincide {σ α : Type u} (I : σ → Prop) (c c' : StateM σ α) : Prop :=
  ∀ s, I s → c s = c' s ∧ I (c s).2

namespace Coincide

variable {σ α β : Type u} {I : σ → Prop}

/-- A plain answer leaves the state alone. -/
theorem pure (a : α) : Coincide I (Pure.pure a : StateM σ α) (Pure.pure a) :=
  fun _ hs ↦ ⟨rfl, hs⟩

/-- One computation after another, going on from the answers that there may be. -/
theorem bind_of {c c' : StateM σ α} {f f' : α → StateM σ β} (hc : Coincide I c c')
    (hf : ∀ s, I s → Coincide I (f (c s).1) (f' (c s).1)) : Coincide I (c >>= f) (c' >>= f') := by
  intro s hs
  obtain ⟨heq, hI⟩ := hc s hs
  obtain ⟨heq', hI'⟩ := hf s hs _ hI
  refine ⟨?_, hI'⟩
  change f (c s).1 (c s).2 = f' (c' s).1 (c' s).2
  rw [← heq, heq']

/-- One computation after another. -/
theorem bind {c c' : StateM σ α} {f f' : α → StateM σ β} (hc : Coincide I c c')
    (hf : ∀ a, Coincide I (f a) (f' a)) : Coincide I (c >>= f) (c' >>= f') :=
  hc.bind_of fun s _ ↦ hf (c s).1

/-- A computation that keeps the invariant does what it does. -/
theorem of_yields {Q : α → Prop} {c : StateM σ α} (hc : Yields I Q c) : Coincide I c c :=
  fun s hs ↦ ⟨rfl, (hc s hs).2⟩

/-- Going on alike after every answer with the property. -/
theorem bind_yields {Q : α → Prop} {c : StateM σ α} {f f' : α → StateM σ β} (hc : Yields I Q c)
    (hf : ∀ a, Q a → Coincide I (f a) (f' a)) : Coincide I (c >>= f) (c >>= f') :=
  (of_yields hc).bind_of fun s hs ↦ hf _ (hc s hs).1

theorem lockstep : Lockstep (m := StateM σ) (n := StateM σ) fun _ ↦ Coincide I := ⟨pure, bind⟩

/-- A computation for each item of a list. -/
theorem mapM {γ : Type u} {f f' : γ → StateM σ α} {l : List γ}
    (h : ∀ x ∈ l, Coincide I (f x) (f' x)) : Coincide I (l.mapM f) (l.mapM f') :=
  lockstep.mapM l h

end Coincide
end Wiring
