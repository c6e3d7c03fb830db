/-!
# Range tables

A property of characters as a list of ranges of code points, in ascending order.
-/

namespace Wiring.Text

/-- Inclusive ranges of code points, in ascending order. -/
abbrev RangeTable := List (Nat × Nat)

namespace RangeTable

/-- Some range holds the code point; the search ends at the first range that lies beyond it. -/
def contains : RangeTable → Nat → Bool
  | [], _ => false
  | (low, high) :: rest, c => decide (low ≤ c) && (decide (c ≤ high) || contains rest c)

/-- Ranges are nonempty and each ends below the start of the next. -/
def Ascending (t : RangeTable) : Prop :=
  (∀ r ∈ t, r.1 ≤ r.2) ∧ t.Pairwise (fun r s ↦ r.2 < s.1)

/-- In an ascending table the early end of the search loses nothing. -/
theorem contains_iff {t : RangeTable} (h : t.Ascending) (c : Nat) :
    t.contains c = true ↔ ∃ r ∈ t, r.1 ≤ c ∧ c ≤ r.2 := by
  induction t with
  | nil => simp [contains]
  | cons r rest ih =>
    obtain ⟨hr, hp⟩ := h
    rw [List.pairwise_cons] at hp
    have ih := ih ⟨fun s hs ↦ hr s (List.mem_cons_of_mem _ hs), hp.2⟩
    simp only [contains, Bool.and_eq_true, Bool.or_eq_true, decide_eq_true_eq, List.mem_cons,
      exists_eq_or_imp, ih]
    constructor
    · rintro ⟨hl, hh | hrest⟩
      · exact Or.inl ⟨hl, hh⟩
      · exact Or.inr hrest
    · rintro (h | ⟨s, hs, hl, hh⟩)
      · exact ⟨h.1, Or.inl h.2⟩
      · have h1 := hp.1 s hs
        have h2 := hr r List.mem_cons_self
        exact ⟨by omega, Or.inr ⟨s, hs, hl, hh⟩⟩

end RangeTable
end Wiring.Text
