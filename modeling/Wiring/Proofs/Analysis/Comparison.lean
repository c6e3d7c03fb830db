import Wiring.Proofs.Analysis.Locals

/-!
# Comparing what interfaces hold

Two values with constants inside all their interfaces are compared by these constants. So a
comparison does not tell an interface value from what it holds, nor from an interface value of
another concrete type; where it says that values are equal, they are so exactly if there are the
same interfaces around the constants.
-/

namespace Wiring.Analysis

open Wiring.Program (Operand ValueId Constant BinaryOp Function)

namespace StaticValue

/-- The concrete types of the interfaces that a value is in, the outermost first. -/
def interfaces : StaticValue → List String
  | boxed typeName held => typeName :: held.interfaces
  | boxedUnknown typeName => [typeName]
  | const _ | constructed _ _ => []

variable {a b : StaticValue} {c : Constant}

/-- A value with a constant inside is that constant, put into the interfaces one after another. -/
theorem constant?_eq_some_iff : a.constant? = some c ↔ a = a.interfaces.foldr boxed (.const c) := by
  induction a with
  | const d => simp [constant?, unboxed, interfaces]
  | boxed typeName held ih =>
    have hheld : (boxed typeName held).constant? = held.constant? := rfl
    rw [hheld, ih, interfaces, List.foldr_cons, boxed.injEq, and_iff_right rfl]
  | boxedUnknown typeName => simp [constant?, unboxed, interfaces]
  | constructed function typeArgs => simp [constant?, unboxed, interfaces]

/-- Values with one constant inside are equal exactly if they are in the same interfaces. -/
theorem eq_iff_interfaces_eq (ha : a.constant? = some c) (hb : b.constant? = some c) :
    a = b ↔ a.interfaces = b.interfaces := by
  constructor
  · intro heq
    rw [heq]
  · intro hsame
    rw [constant?_eq_some_iff.mp ha, constant?_eq_some_iff.mp hb, hsame]

/-- An interface value with a constant inside is one of which it is known what it holds. -/
theorem exists_boxed_of_concreteType? (ha : a.constant? = some c) (h : a.concreteType?.isSome) :
    ∃ typeName held, a = .boxed typeName held := by
  cases a with
  | boxed typeName held => exact ⟨typeName, held, rfl⟩
  | boxedUnknown => cases ha
  | const | constructed => cases h

/-- A comparison for equality or for the opposite goes by the constants inside. -/
theorem fold_eq_some_iff {op : BinaryOp} (hop : op = .eq ∨ op = .ne) {v : StaticValue} :
    fold op a b = some v ↔ ∃ c d, a.constant? = some c ∧ b.constant? = some d ∧
      v = .const (.bool (op = .eq ↔ c = d)) := by
  have hfold (c d : Constant) : op.fold c d = some (.bool (op = .eq ↔ c = d)) := by
    rcases hop with rfl | rfl <;> simp [BinaryOp.fold]
  unfold fold
  cases a.constant? with
  | none => simp
  | some c =>
    cases b.constant? with
    | none => simp
    | some d => simp [hfold, eq_comm]

end StaticValue

section Comparison

variable {env : Environment} {stack : List String} {frame : Frame} {id dest : ValueId}
  {op : BinaryOp} {lhs rhs : Operand} {m : Memo}

/-- An operator is applied to what its operands resolve to, one after the other. -/
theorem resolve_binOp (h : frame.function.definition id = some (.binOp dest op lhs rhs)) :
    (Query.resolve env stack frame (.value id) m).1 =
      (resolveFor env stack frame id lhs m).1.bind fun a ↦
        (resolveFor env stack frame id rhs (resolveFor env stack frame id lhs m).2).1.bind fun b ↦
          a.fold op b := by
  unfold Query.resolve resolveIn resolveFor
  rw [resolveOperand_value, if_neg List.not_mem_nil, h]
  dsimp only
  rw [resolveInstruction]
  simp only [bind, StateT.bind]
  cases (resolveOperand (m := Memoized) env _ frame [id] lhs m) with
  | mk x m' =>
    cases x <;> rfl

/-- A comparison for equality or for the opposite resolves exactly if there is a constant inside each
operand, and goes by these. Where an operand is an interface value and the comparison says that the
operands are equal, both are interface values of one concrete type and hold the same, exactly if the
same interfaces are around the constants. -/
theorem resolve_comparison (h : frame.function.definition id = some (.binOp dest op lhs rhs))
    (hop : op = .eq ∨ op = .ne) :
    let x := resolveFor env stack frame id lhs m
    let y := resolveFor env stack frame id rhs x.2
    let answer := (Query.resolve env stack frame (.value id) m).1
    (∀ v, answer = some v ↔ ∃ a b c d, x.1 = some a ∧ y.1 = some b ∧ a.constant? = some c ∧
      b.constant? = some d ∧ v = .const (.bool (op = .eq ↔ c = d))) ∧
    ∀ a b, x.1 = some a → y.1 = some b → a.concreteType?.isSome ∨ b.concreteType?.isSome →
      answer = some (.const (.bool (op = .eq))) →
        ((∃ typeName held, a = .boxed typeName held ∧ b = .boxed typeName held) ↔
          a.interfaces = b.interfaces) := by
  intro x y answer
  have hanswer (v : StaticValue) : answer = some v ↔ ∃ a b c d, x.1 = some a ∧ y.1 = some b ∧
      a.constant? = some c ∧ b.constant? = some d ∧ v = .const (.bool (op = .eq ↔ c = d)) := by
    have hbind : answer = x.1.bind fun a ↦ y.1.bind fun b ↦ a.fold op b := resolve_binOp h
    rw [hbind, Option.bind_eq_some_iff]
    simp only [Option.bind_eq_some_iff, StaticValue.fold_eq_some_iff hop]
    grind
  refine ⟨hanswer, fun a b hx hy hinterface hequal ↦ ?_⟩
  obtain ⟨a', b', c, d, hx', hy', ha, hb, hv⟩ := (hanswer _).mp hequal
  obtain rfl : a = a' := Option.some.inj (hx.symm.trans hx')
  obtain rfl : b = b' := Option.some.inj (hy.symm.trans hy')
  obtain rfl : c = d := by
    by_contra hne
    simp [hne] at hv
  rw [← StaticValue.eq_iff_interfaces_eq ha hb]
  constructor
  · rintro ⟨typeName, held, rfl, rfl⟩
    rfl
  · rintro rfl
    obtain ⟨typeName, held, hheld⟩ :=
      StaticValue.exists_boxed_of_concreteType? ha (or_self_iff.mp hinterface)
    exact ⟨typeName, held, hheld, hheld⟩

end Comparison

namespace Comparing

/-- A function that compares a nil pointer in an interface with nil, a number in an interface with
the same number of another type, and the former with itself. -/
def compare : Function := ⟨"compare", [],
  [⟨[.makeInterface ⟨0⟩ (.const .nil) "*T", .binOp ⟨1⟩ .eq (.value ⟨0⟩) (.const .nil),
     .makeInterface ⟨2⟩ (.const (.int 1)) "T", .makeInterface ⟨3⟩ (.const (.int 1)) "U",
     .binOp ⟨4⟩ .eq (.value ⟨2⟩) (.value ⟨3⟩), .binOp ⟨5⟩ .ne (.value ⟨2⟩) (.value ⟨2⟩)],
    .ret []⟩]⟩

/-- The program of the function. -/
def program : Environment where
  program := .ofLists [] [compare] []

/-- The frame of the function. -/
def frame : Frame := ⟨compare, []⟩

end Comparing

open Comparing in
/-- What is compared with itself is of one type and holds the same. -/
theorem resolve_comparison_self :
    (Query.resolve program [] frame (.value ⟨5⟩) {}).1 = some (.const (.bool false)) ∧
    ∃ typeName held,
      (resolveFor program [] frame ⟨5⟩ (.value ⟨2⟩) {}).1 = some (.boxed typeName held) := by
  have h : frame.function.definition ⟨5⟩ = some (.binOp ⟨5⟩ .ne (.value ⟨2⟩) (.value ⟨2⟩)) := by
    decide
  have hx : (resolveFor program [] frame ⟨5⟩ (.value ⟨2⟩) {}).1 =
      some (.boxed "T" (.const (.int 1))) := by decide +kernel
  have hy : (resolveFor program [] frame ⟨5⟩ (.value ⟨2⟩)
      (resolveFor program [] frame ⟨5⟩ (.value ⟨2⟩) {}).2).1 =
      some (.boxed "T" (.const (.int 1))) := by decide +kernel
  have hequal : (Query.resolve program [] frame (.value ⟨5⟩) {}).1 = some (.const (.bool false)) :=
    ((resolve_comparison h (.inr rfl)).1 _).mpr ⟨_, _, _, _, hx, hy, rfl, rfl, rfl⟩
  obtain ⟨typeName, held, heq, -⟩ :=
    ((resolve_comparison h (.inr rfl)).2 _ _ hx hy (.inl rfl) hequal).mpr rfl
  exact ⟨hequal, typeName, held, heq ▸ hx⟩

open Comparing in
/-- The nil pointer in an interface and nil are found equal, and so are numbers of different types. -/
theorem resolve_compare_ne :
    (Query.resolve program [] frame (.value ⟨0⟩) {}).1 = some (.boxed "*T" (.const .nil)) ∧
    (Query.resolve program [] frame (.value ⟨1⟩) {}).1 = some (.const (.bool true)) ∧
    (Query.resolve program [] frame (.value ⟨2⟩) {}).1 = some (.boxed "T" (.const (.int 1))) ∧
    (Query.resolve program [] frame (.value ⟨3⟩) {}).1 = some (.boxed "U" (.const (.int 1))) ∧
    (Query.resolve program [] frame (.value ⟨4⟩) {}).1 = some (.const (.bool true)) := by
  decide +kernel

end Wiring.Analysis
