/-!
# Fidelity

How accurately a configuration fact known before the program runs reflects the configuration at
run time. A fidelity is a set of two marks; union is its only operation and the empty set its
unit, so fidelity only ever grows along the tree of components.
-/

namespace Wiring

/-- The set of doubts that attach to a configuration fact. -/
structure Fidelity where
  /-- Some part of the fact is not known. -/
  incomplete : Bool := false
  /-- The fact holds on some runs only. -/
  speculative : Bool := false
  deriving DecidableEq, Repr, Inhabited

namespace Fidelity

/-- The fact is certain and fully known. -/
def immaculate : Fidelity := {}

/-- Some part of the fact is not known, and nothing else is in doubt. -/
def onlyIncomplete : Fidelity := { incomplete := true }

/-- The fact is fully known but holds on some runs only. -/
def onlySpeculative : Fidelity := { speculative := true }

/-- The doubts of either fact. -/
def union (a b : Fidelity) : Fidelity :=
  ⟨a.incomplete || b.incomplete, a.speculative || b.speculative⟩

/-- Fidelities combine by union. -/
instance : Max Fidelity where max := union

/-- Union of a list of fidelities. -/
def unions (xs : List Fidelity) : Fidelity := xs.foldr union immaculate

/-- Every mark of `b` is a mark of `a`. -/
def has (a b : Fidelity) : Bool :=
  (!b.incomplete || a.incomplete) && (!b.speculative || a.speculative)

/-- No mark is set. -/
def isImmaculate (a : Fidelity) : Bool := !a.incomplete && !a.speculative

/-- The marks by name, joined by a bar; `immaculate` for none. -/
def text (a : Fidelity) : String :=
  match a.incomplete, a.speculative with
  | false, false => "immaculate"
  | true, false => "incomplete"
  | false, true => "speculative"
  | true, true => "incomplete|speculative"

/-- The text inside the name of the type, as diagnostics show it. -/
def inspect (a : Fidelity) : String := "Fidelity(" ++ a.text ++ ")"

/-- The bit set: one for incomplete, two for speculative. -/
def bits (a : Fidelity) : Nat :=
  (if a.incomplete then 1 else 0) + (if a.speculative then 2 else 0)

/-- The marks among the two low bits of a number. -/
def ofBits (n : Nat) : Fidelity := ⟨n.testBit 0, n.testBit 1⟩

/-- The binary maximum is union. -/
theorem max_def (a b : Fidelity) : max a b = a.union b := rfl

@[simp] theorem incomplete_max (a b : Fidelity) :
    (max a b).incomplete = (a.incomplete || b.incomplete) := rfl

@[simp] theorem speculative_max (a b : Fidelity) :
    (max a b).speculative = (a.speculative || b.speculative) := rfl

/-- Two fidelities with the same marks are equal. -/
@[ext] theorem ext {a b : Fidelity} (hi : a.incomplete = b.incomplete)
    (hs : a.speculative = b.speculative) : a = b := by
  cases a
  cases b
  simp_all

/-- Union is associative. -/
theorem max_assoc (a b c : Fidelity) : max (max a b) c = max a (max b c) := by
  ext <;> simp [Bool.or_assoc]

/-- Union is commutative. -/
theorem max_comm (a b : Fidelity) : max a b = max b a := by
  ext <;> simp [Bool.or_comm]

/-- Union is idempotent. -/
theorem max_self (a : Fidelity) : max a a = a := by
  ext <;> simp

/-- The empty set is a left unit. -/
theorem immaculate_max (a : Fidelity) : max immaculate a = a := by
  ext <;> simp [immaculate]

/-- The empty set is a right unit. -/
theorem max_immaculate (a : Fidelity) : max a immaculate = a := by
  rw [max_comm, immaculate_max]

/-- One fidelity has another's marks exactly when union with it changes nothing. -/
theorem has_iff_max_eq (a b : Fidelity) : a.has b = true ↔ max a b = a := by
  rcases a with ⟨_ | _, _ | _⟩ <;> rcases b with ⟨_ | _, _ | _⟩ <;> decide

/-- A fidelity has its own marks. -/
theorem has_refl (a : Fidelity) : a.has a := by
  rw [has_iff_max_eq]
  exact max_self a

/-- Whoever has the marks of a fidelity has those that it has. -/
theorem has_trans {a b c : Fidelity} (hab : a.has b) (hbc : b.has c) : a.has c := by
  rw [has_iff_max_eq] at hab hbc ⊢
  rw [← hab, max_assoc, hbc]

/-- A union has the marks of its first part. -/
theorem max_has_left (a b : Fidelity) : (max a b).has a := by
  rw [has_iff_max_eq, max_comm (max a b), ← max_assoc, max_self]

/-- A union has the marks of its second part. -/
theorem max_has_right (a b : Fidelity) : (max a b).has b := by
  rw [max_comm]
  exact max_has_left b a

/-- What has the marks of an incomplete fidelity is incomplete. -/
theorem incomplete_of_has {a b : Fidelity} (h : a.has b) (hb : b.incomplete) : a.incomplete := by
  rw [has_iff_max_eq] at h
  rw [← h, incomplete_max, hb, Bool.or_true]

/-- Nothing has no marks. -/
@[simp] theorem unions_nil : unions [] = immaculate := rfl

/-- The union of a list is taken from its end. -/
@[simp] theorem unions_cons (a : Fidelity) (l : List Fidelity) :
    unions (a :: l) = max a (unions l) := rfl

/-- The union of two lists is that of their unions. -/
theorem unions_append (l l' : List Fidelity) : unions (l ++ l') = max (unions l) (unions l') := by
  induction l with
  | nil => rw [List.nil_append, unions_nil, immaculate_max]
  | cons a l ih => rw [List.cons_append, unions_cons, unions_cons, ih, max_assoc]

/-- The union of a list has the marks of each member. -/
theorem unions_has {a : Fidelity} {l : List Fidelity} (h : a ∈ l) : (unions l).has a := by
  obtain ⟨l₁, l₂, rfl⟩ := List.append_of_mem h
  rw [unions_append, unions_cons]
  exact has_trans (max_has_right _ _) (max_has_left _ _)

/-- The union of a list is incomplete if a member is. -/
@[simp] theorem incomplete_unions (l : List Fidelity) :
    (unions l).incomplete = l.any incomplete := by
  induction l with
  | nil => rfl
  | cons a l ih => rw [unions_cons, incomplete_max, ih, List.any_cons]

/-- Reading back the bit set gives the fidelity. -/
theorem ofBits_bits (a : Fidelity) : ofBits a.bits = a := by
  rcases a with ⟨_ | _, _ | _⟩ <;> decide

end Fidelity
end Wiring
