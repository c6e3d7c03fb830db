import Mathlib.Data.List.Chain
import Mathlib.Data.List.Nodup
import Mathlib.Tactic.Tauto
import Wiring.Proofs.Flow.Path

/-!
# What a depth-first search finds

The order in which a search leaves the blocks lists every block that can be reached, once, the
first block at the head, and each other block after one of its predecessors.
-/

namespace Wiring.Flow.Table

/-- The state of a search from a block: the blocks that it is in or has left are found, the others
are not, and no edge is forgotten. -/
structure Searching (g : Table) (a : Nat) (stack : List (Nat × List Nat))
    (unfound left : List Nat) : Prop where
  nodup : (stack.map Prod.fst ++ left).Nodup
  nodup_unfound : unfound.Nodup
  mem_unfound : ∀ b < g.length, b ∈ unfound ↔ b ∉ stack.map Prod.fst ++ left
  reached : ∀ b ∈ stack.map Prod.fst ++ left, g.Reaches a b
  /-- The search is in each block because of an edge from the one below it. -/
  entered : (stack.map Prod.fst).IsChain fun child parent ↦ child ∈ g.successors parent
  bottom : ∀ b ∈ (stack.map Prod.fst).getLast?, b = a
  /-- Successors that need not be looked at any more have been found. -/
  looked : ∀ e ∈ stack, ∀ s ∈ g.successors e.1, s ∈ e.2 ∨ s ∉ unfound
  to_look : ∀ e ∈ stack, ∀ s ∈ e.2, s ∈ g.successors e.1
  closed : ∀ b ∈ left, ∀ s ∈ g.successors b, s ∉ unfound
  /-- A block that has been left has a predecessor that is left after it. -/
  preceded : ∀ l₁ b l₂, left = l₁ ++ b :: l₂ → b = a ∨
    ∃ p ∈ stack.map Prod.fst ++ l₁, b ∈ g.successors p
  first : stack = [] → left.head? = some a

namespace Searching

variable {g : Table} {a b s : Nat} {rest unfound left : List Nat} {stack : List (Nat × List Nat)}

/-- A search starts in its first block. -/
theorem start (ha : a < g.length) :
    Searching g a [(a, g.successors a)] ((List.range g.length).erase a) [] where
  nodup := by simp
  nodup_unfound := List.nodup_range.erase a
  mem_unfound b hb := by simp [List.nodup_range.mem_erase_iff, hb]
  reached b hb := by
    obtain rfl : b = a := by simpa using hb
    exact .refl ha
  entered := by simp
  bottom := by simp
  looked := by simp +contextual
  to_look := by simp +contextual
  closed := by simp
  preceded := by simp
  first := by simp

/-- The search enters a successor that it has not found. -/
theorem enter (h : Searching g a ((b, s :: rest) :: stack) unfound left) (hg : g.InRange)
    (hs : s ∈ unfound) :
    Searching g a ((s, g.successors s) :: (b, rest) :: stack) (unfound.erase s) left where
  nodup := by
    have hlt : s < g.length := hg b s (h.to_look (b, s :: rest) (by simp) s (by simp))
    have hnot := (h.mem_unfound s hlt).mp hs
    simpa using ⟨by simpa using hnot, by simpa using h.nodup⟩
  nodup_unfound := h.nodup_unfound.erase s
  mem_unfound c hc := by
    rw [h.nodup_unfound.mem_erase_iff, h.mem_unfound c hc]
    simp
  reached c hc := by
    have hb : g.Reaches a b := h.reached b (by simp)
    rcases List.mem_cons.mp hc with rfl | hc
    · exact hb.step (h.to_look (b, c :: rest) (by simp) c (by simp))
    · exact h.reached c hc
  entered := by
    have hsb : s ∈ g.successors b := h.to_look (b, s :: rest) (by simp) s (by simp)
    simpa using List.IsChain.cons_cons hsb h.entered
  bottom := by simpa [List.getLast?_cons_cons] using h.bottom
  looked e he t ht := by
    have hkeep : t ∉ unfound → t ∉ unfound.erase s := fun hn hm ↦ hn (List.mem_of_mem_erase hm)
    rcases List.mem_cons.mp he with rfl | he
    · exact Or.inl ht
    · rcases List.mem_cons.mp he with rfl | he
      · rcases h.looked (b, s :: rest) (by simp) t ht with hin | hout
        · rcases List.mem_cons.mp hin with rfl | hin
          · exact Or.inr fun hm ↦ (h.nodup_unfound.mem_erase_iff.mp hm).1 rfl
          · exact Or.inl hin
        · exact Or.inr (hkeep hout)
      · exact (h.looked e (List.mem_cons_of_mem _ he) t ht).imp_right hkeep
  to_look e he t ht := by
    rcases List.mem_cons.mp he with rfl | he
    · exact ht
    · rcases List.mem_cons.mp he with rfl | he
      · exact h.to_look (b, s :: rest) (by simp) t (List.mem_cons_of_mem _ ht)
      · exact h.to_look e (List.mem_cons_of_mem _ he) t ht
  closed c hc t ht hm := h.closed c hc t ht (List.mem_of_mem_erase hm)
  preceded l₁ c l₂ hl := by
    refine (h.preceded l₁ c l₂ hl).imp_right fun ⟨p, hp, hc⟩ ↦ ⟨p, ?_, hc⟩
    exact List.mem_cons_of_mem _ hp
  first := by simp

/-- The search passes over a successor that it has found. -/
theorem skip (h : Searching g a ((b, s :: rest) :: stack) unfound left) (hs : s ∉ unfound) :
    Searching g a ((b, rest) :: stack) unfound left where
  nodup := h.nodup
  nodup_unfound := h.nodup_unfound
  mem_unfound := h.mem_unfound
  reached := h.reached
  entered := h.entered
  bottom := h.bottom
  looked e he t ht := by
    rcases List.mem_cons.mp he with rfl | he
    · rcases h.looked (b, s :: rest) (by simp) t ht with hin | hout
      · rcases List.mem_cons.mp hin with rfl | hin
        · exact Or.inr hs
        · exact Or.inl hin
      · exact Or.inr hout
    · exact h.looked e (List.mem_cons_of_mem _ he) t ht
  to_look e he t ht := by
    rcases List.mem_cons.mp he with rfl | he
    · exact h.to_look (b, s :: rest) (by simp) t (List.mem_cons_of_mem _ ht)
    · exact h.to_look e (List.mem_cons_of_mem _ he) t ht
  closed := h.closed
  preceded := h.preceded
  first := by simp

/-- The search leaves a block all of whose successors it has looked at. -/
theorem leave (h : Searching g a ((b, []) :: stack) unfound left) :
    Searching g a stack unfound (b :: left) where
  nodup := by
    have hn : (stack.map Prod.fst ++ b :: left).Perm (b :: (stack.map Prod.fst ++ left)) :=
      List.perm_middle
    exact hn.nodup_iff.mpr h.nodup
  nodup_unfound := h.nodup_unfound
  mem_unfound c hc := by
    rw [h.mem_unfound c hc]
    simp
    tauto
  reached c hc := by
    refine h.reached c ?_
    simp at hc ⊢
    tauto
  entered := by
    cases stack with
    | nil => simp
    | cons e stack => exact (List.isChain_cons_cons.mp h.entered).2
  bottom := by
    cases stack with
    | nil => simp
    | cons e stack => simpa [List.getLast?_cons_cons] using h.bottom
  looked e he := h.looked e (List.mem_cons_of_mem _ he)
  to_look e he := h.to_look e (List.mem_cons_of_mem _ he)
  closed c hc t ht := by
    rcases List.mem_cons.mp hc with rfl | hc
    · simpa using h.looked (c, []) (by simp) t ht
    · exact h.closed c hc t ht
  preceded l₁ c l₂ hl := by
    cases l₁ with
    | nil =>
      obtain ⟨rfl, -⟩ := List.cons.inj hl
      cases stack with
      | nil => exact Or.inl (h.bottom b (by simp))
      | cons e stack =>
        have hchain := List.isChain_cons_cons.mp h.entered
        exact Or.inr ⟨e.1, by simp, hchain.1⟩
    | cons d l₁ =>
      obtain ⟨rfl, hleft⟩ := List.cons.inj hl
      refine (h.preceded l₁ c l₂ hleft).imp_right fun ⟨p, hp, hc⟩ ↦ ⟨p, ?_, hc⟩
      simp at hp ⊢
      tauto
  first hs := by
    subst hs
    simpa using h.bottom b (by simp)

/-- The search ends with nothing left to look at. -/
theorem finish (hg : g.InRange) : ∀ {stack unfound left}, Searching g a stack unfound left →
    ∃ rest, Searching g a [] rest (g.search stack unfound left) := by
  intro stack unfound left h
  fun_induction search g stack unfound left with
  | case1 unfound left => exact ⟨unfound, h⟩
  | case2 unfound left b stack ih => exact ih h.leave
  | case3 unfound left b s rest stack hs this ih => exact ih (h.enter hg hs)
  | case4 unfound left b s rest stack hs ih => exact ih (h.skip hs)

/-- Everything that can be reached has been left in the end. -/
theorem mem_of_reaches (h : Searching g a [] unfound left) (hg : g.InRange) {c : Nat}
    (hc : g.Reaches a c) : c ∈ left := by
  obtain ⟨p, hp⟩ := hc
  induction hp with
  | start ha => exact List.mem_of_mem_head? (h.first rfl)
  | @step p b c hp hc ih =>
    have hnot : c ∉ unfound := h.closed b ih c hc
    rw [h.mem_unfound c (hg b c hc)] at hnot
    simpa using hnot

end Searching

variable {g : Table} {a b : Nat}

private theorem searched (hg : g.InRange) (ha : a < g.length) :
    ∃ unfound, Searching g a [] unfound (g.orderFrom a) := by
  unfold orderFrom
  rw [if_pos (List.mem_range.mpr ha)]
  exact Searching.finish hg (.start ha)

/-- No block comes twice. -/
theorem nodup_orderFrom (hg : g.InRange) : (g.orderFrom a).Nodup := by
  by_cases ha : a < g.length
  · obtain ⟨_, h⟩ := searched hg ha
    simpa using h.nodup
  · simp [orderFrom, ha]

/-- The order lists what can be reached. -/
theorem mem_orderFrom (hg : g.InRange) : b ∈ g.orderFrom a ↔ g.Reaches a b := by
  constructor
  · intro hb
    by_cases ha : a < g.length
    · obtain ⟨_, h⟩ := searched hg ha
      exact h.reached b (by simpa using hb)
    · simp [orderFrom, ha] at hb
  · rintro ⟨p, hp⟩
    obtain ⟨_, h⟩ := searched hg hp.start_lt
    exact h.mem_of_reaches hg ⟨p, hp⟩

/-- The first block is at the head of the order. -/
theorem head?_orderFrom (hg : g.InRange) (ha : a < g.length) :
    (g.orderFrom a).head? = some a := by
  obtain ⟨_, h⟩ := searched hg ha
  exact h.first rfl

/-- Every other block comes after one of its predecessors. -/
theorem exists_earlier (hg : g.InRange) (hb : b ∈ g.orderFrom a) (hne : b ≠ a) :
    ∃ p ∈ g.orderFrom a, b ∈ g.successors p ∧
      (g.orderFrom a).idxOf p < (g.orderFrom a).idxOf b := by
  obtain ⟨q, hq⟩ := (mem_orderFrom hg).mp hb
  obtain ⟨_, h⟩ := searched hg hq.start_lt
  obtain ⟨l₁, l₂, hl⟩ := List.append_of_mem hb
  have hn := nodup_orderFrom (a := a) hg
  obtain ⟨p, hp, hbp⟩ := (h.preceded l₁ b l₂ hl).resolve_left hne
  replace hp : p ∈ l₁ := by simpa using hp
  rw [hl] at hn ⊢
  have hb₁ : b ∉ l₁ := fun hm ↦ (List.nodup_append.mp hn).2.2 b hm b (by simp) rfl
  refine ⟨p, by simp [hp], hbp, ?_⟩
  rw [List.idxOf_append_of_mem hp, List.idxOf_append_of_notMem hb₁]
  exact Nat.lt_add_right _ (List.idxOf_lt_length_of_mem hp)

end Wiring.Flow.Table
