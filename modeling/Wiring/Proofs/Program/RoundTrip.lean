import Wiring.Program.Decoding
import Wiring.Proofs.Catalogue
import Wiring.Proofs.Json.Reading

/-!
# Loading saved programs

Loading undoes saving, part by part: of whatever node stands for the saved form of a constant, an
instruction, a function or a whole program, the decoder gives back what was saved.
-/

namespace Wiring.Program

open Wiring.Json (Decodes Stands NumberToken Node Decoded)

/-- A constant. -/
theorem decodes_constant (depth : Nat) (c : Constant) :
    Decodes (decodeConstant depth) c.toJson c := by
  intro n hn
  cases c with
  | nil =>
    cases hn
    rfl
  | bool b =>
    cases hn
    rfl
  | string s =>
    cases hn with
    | string hvalue =>
      unfold decodeConstant Node.read Node.asString
      dsimp only
      rw [hvalue]
      rfl
  | int i =>
    cases hn
    have hlow : Int64.minValue.toInt ≤ i.toInt := Int64.minValue_le_toInt i
    have hhigh : i.toInt ≤ Int64.maxValue.toInt := Int64.toInt_le i
    have hrange : (NumberToken.ofInt i.toInt).isOutOfRange = false := by
      have hmin : Int64.minValue.toInt = -9223372036854775808 := by decide
      have hmax : Int64.maxValue.toInt = 9223372036854775807 := by decide
      have hsize : UInt64.size = 18446744073709551616 := rfl
      exact NumberToken.isOutOfRange_ofInt (by omega)
    have hconstant : Constant.ofInt? i.toInt = some (.int i) := by
      rw [Constant.ofInt?, if_pos ⟨hlow, hhigh⟩, Int64.ofInt_toInt]
    unfold decodeConstant Node.read
    dsimp only
    rw [hrange, NumberToken.integer?_ofInt, Option.bind_some, hconstant]
    rfl

/-- A position. -/
theorem decodes_position (n : UInt64) : Decodes decodePosition (position n) n := by
  have h := (Decodes.asNat n.toNat_lt_size).map UInt64.ofNat
  rwa [UInt64.ofNat_toNat] at h

/-- The number of a value. -/
theorem decodes_valueId (id : ValueId) : Decodes decodeValueId id.toJson id := by
  have h := (Decodes.asNat id.number.toNat_lt_size).map fun n ↦ (⟨UInt32.ofNat n⟩ : ValueId)
  rwa [UInt32.ofNat_toNat] at h

/-- A destination. -/
theorem decodes_dest (dest : Option ValueId) :
    Decodes decodeDest ((dest.map ValueId.toJson).getD .null) dest := by
  intro n hn
  cases dest with
  | none =>
    cases hn
    rfl
  | some id =>
    have h := decodes_valueId id n hn
    cases hn
    change some <$> decodeValueId _ = _
    rw [h]
    rfl

/-- An operand. -/
theorem decodes_operand (depth : Nat) (o : Operand) :
    Decodes (decodeOperand depth) o.toJson o := by
  cases o with
  | param index => exact .tagged rfl ((decodes_position index).map _)
  | value id => exact .tagged rfl ((decodes_valueId id).map _)
  | const c => exact .tagged rfl ((decodes_constant _ c).map _)
  | global name => exact .tagged rfl ((Decodes.asString name).map _)
  | function name => exact .tagged rfl ((Decodes.asString name).map _)

/-- A list of operands. -/
theorem decodes_operands (depth : Nat) (l : List Operand) :
    Decodes (decodeOperands depth) (operands l) l :=
  .asList fun o _ ↦ decodes_operand _ o

/-- A list of strings. -/
theorem decodes_strings (l : List String) : Decodes decodeStrings (.strings l) l :=
  .asList fun s _ ↦ .asString s

/-- The target of a call. -/
theorem decodes_callee (depth : Nat) (callee : Callee) :
    Decodes (decodeCallee depth) callee.toJson callee := by
  cases callee with
  | static function typeArgs =>
    exact .tagged rfl
      (.bind (.record₂ (by decide) (.asString function) (decodes_strings typeArgs)) rfl)
  | invoke receiver method =>
    exact .tagged rfl
      (.bind (.record₂ (by decide) (decodes_operand _ receiver) (.asString method)) rfl)
  | dynamic value => exact .tagged rfl (.bind (.record₁ (decodes_operand _ value)) rfl)

/-- An operator. -/
theorem decodes_op (op : BinaryOp) : Decodes decodeOp (.string op.tag) op := by
  cases op <;> exact .tag rfl

/-- An instruction. -/
theorem decodes_instruction (depth : Nat) (i : Instruction) :
    Decodes (decodeInstruction depth) i.toJson i := by
  cases i with
  | call dest callee args =>
    exact .tagged rfl (.bind (.record₃ (by decide) (decodes_dest dest) (decodes_callee _ callee)
      (decodes_operands _ args)) rfl)
  | makeInterface dest value typeName =>
    exact .tagged rfl (.bind (.record₃ (by decide) (decodes_valueId dest) (decodes_operand _ value)
      (.asString typeName)) rfl)
  | changeInterface dest value =>
    exact .tagged rfl
      (.bind (.record₂ (by decide) (decodes_valueId dest) (decodes_operand _ value)) rfl)
  | extract dest tuple index =>
    exact .tagged rfl (.bind (.record₃ (by decide) (decodes_valueId dest) (decodes_operand _ tuple)
      (decodes_position index)) rfl)
  | alloc dest typeName =>
    exact .tagged rfl (.bind (.record₂ (by decide) (decodes_valueId dest) (.asString typeName)) rfl)
  | store addr value =>
    exact .tagged rfl
      (.bind (.record₂ (by decide) (decodes_operand _ addr) (decodes_operand _ value)) rfl)
  | load dest addr =>
    exact .tagged rfl
      (.bind (.record₂ (by decide) (decodes_valueId dest) (decodes_operand _ addr)) rfl)
  | binOp dest op lhs rhs =>
    exact .tagged rfl (.bind (.record₄ (by decide) (decodes_valueId dest) (decodes_op op)
      (decodes_operand _ lhs) (decodes_operand _ rhs)) rfl)
  | not dest value =>
    exact .tagged rfl
      (.bind (.record₂ (by decide) (decodes_valueId dest) (decodes_operand _ value)) rfl)
  | phi dest edges =>
    exact .tagged rfl
      (.bind (.record₂ (by decide) (decodes_valueId dest) (decodes_operands _ edges)) rfl)
  | slice dest elements =>
    exact .tagged rfl
      (.bind (.record₂ (by decide) (decodes_valueId dest) (decodes_operands _ elements)) rfl)
  | opaqueValue dest description =>
    exact .tagged rfl
      (.bind (.record₂ (by decide) (decodes_valueId dest) (.asString description)) rfl)

/-- How a block ends. -/
theorem decodes_terminator (depth : Nat) (t : Terminator) :
    Decodes (decodeTerminator depth) t.toJson t := by
  cases t with
  | jump target => exact .tagged rfl ((decodes_position target).map _)
  | branch cond thenBlock elseBlock =>
    exact .tagged rfl (.bind (.record₃ (by decide) (decodes_operand _ cond)
      (decodes_position thenBlock) (decodes_position elseBlock)) rfl)
  | ret results => exact .tagged rfl ((decodes_operands _ results).map _)
  | panic => exact .tag rfl

/-- A parameter. -/
theorem decodes_param (p : Param) : Decodes decodeParam p.toJson p :=
  .bind (.record₂ (by decide) (.asString p.name) (.asString p.typeName)) rfl

/-- A block. -/
theorem decodes_block (depth : Nat) (b : Block) : Decodes (decodeBlock depth) b.toJson b :=
  .bind (.record₂ (by decide) (.asList fun i _ ↦ decodes_instruction _ i)
    (decodes_terminator _ b.terminator)) rfl

/-- A function. -/
theorem decodes_function (depth : Nat) (f : Function) :
    Decodes (decodeFunction depth) f.toJson f :=
  .bind (.record₃ (by decide) (.asString f.name) (.asList fun p _ ↦ decodes_param p)
    (.asList fun b _ ↦ decodes_block _ b)) rfl

/-- Methods by name, in any order. -/
theorem decodes_methods (c : Catalogue Method) : Decodes decodeMethods
    (.object (c.toList.map fun m ↦ (m.name, .string m.function))) c := by
  intro n hn
  have hlist : c.toList.map (fun m ↦ (m.name, Json.string m.function)) =
      (c.toList.map fun m ↦ (m.name, m.function)).map fun m ↦ (m.1, Json.string m.2) := by
    rw [List.map_map]
    rfl
  rw [hlist] at hn
  obtain ⟨l, hperm, hl⟩ := Decodes.asMap (fun m _ ↦ .asString m.2) hn
  have hmethods : (l.map fun m ↦ (⟨m.1, m.2⟩ : Method)).Perm c.toList := by
    have hmap := hperm.map fun m ↦ (⟨m.1, m.2⟩ : Method)
    rwa [List.map_map, show (fun m : String × String ↦ (⟨m.1, m.2⟩ : Method)) ∘
      (fun m : Method ↦ (m.name, m.function)) = id from rfl, List.map_id] at hmap
  unfold decodeMethods
  rw [hl]
  exact congrArg Except.ok (Catalogue.ofList_eq_of_perm String.lt_irrefl hmethods)

/-- A named type. -/
theorem decodes_namedType (t : NamedType) : Decodes decodeNamedType t.toJson t :=
  .bind (.record₃ (by decide) (.asString t.name) (decodes_strings t.interfaces)
    (decodes_methods t.methods)) rfl

/-- A global variable. -/
theorem decodes_global (depth : Nat) (g : Global) : Decodes (decodeGlobal depth) g.toJson g :=
  .bind (.record₂ (by decide) (.asString g.name) (decodes_constant _ g.value)) rfl

/-- A program is put together of its own parts. -/
theorem ofLists_toList (p : Program) :
    ofLists p.types.toList p.functions.toList p.globals.toList = p := by
  rw [ofLists, Catalogue.ofList_eq_of_perm String.lt_irrefl (.refl _),
    Catalogue.ofList_eq_of_perm String.lt_irrefl (.refl _),
    Catalogue.ofList_eq_of_perm String.lt_irrefl (.refl _)]

/-- A whole program. -/
theorem decodes_program (p : Program) : Decodes decode p.toJson p :=
  .bind (.record₃ (by decide) (.asList fun t _ ↦ decodes_namedType t)
    (.asList fun f _ ↦ decodes_function _ f) (.asList fun g _ ↦ decodes_global _ g))
    (congrArg Except.ok (ofLists_toList p))

/-- The text in which a program is saved is parsed as the program. -/
theorem parse_save (p : Program) : parse p.save = .ok p := by
  obtain ⟨hstands, htrailing⟩ := Json.readText_text p.toJson
  unfold parse save
  dsimp only
  rw [decodes_program p _ hstands, htrailing]
  rfl

/-- Loading undoes saving: of a node for the saved form, with the members of its objects in any
order, of the saved form itself, and, if the program passes its check, of the saved text. -/
theorem load_save (p : Program) :
    (∀ n, Stands n p.toJson → decode n = .ok p) ∧ decode p.toJson.toNode = .ok p ∧
      (p.check = .ok () → load p.save = .ok p) := by
  refine ⟨decodes_program p, decodes_program p _ (Json.stands_toNode _), fun hcheck ↦ ?_⟩
  unfold load
  rw [parse_save]
  change (do
    p.check.mapError LoadError.dangling
    pure p) = _
  rw [hcheck]
  rfl

/-- A nil constant in an operand and in a global variable, an absent destination, empty lists and a
tag alone. -/
def sparse : Program :=
  .ofLists [⟨"T", [], .empty⟩]
    [⟨"f", [], [⟨[.call none (.dynamic (.const .nil)) []], .jump 1⟩, ⟨[], .panic⟩]⟩]
    [⟨"g", .nil⟩]

/-- The saved form of the sparse program, its members in another order. -/
def sparseReordered : Json :=
  .object [("globals", .array (sparse.globals.toList.map Global.toJson)),
    ("types", .array (sparse.types.toList.map NamedType.toJson)),
    ("functions", .array (sparse.functions.toList.map Function.toJson))]

theorem load_save_sparse :
    Stands sparseReordered.toNode sparse.toJson ∧ decode sparseReordered.toNode = .ok sparse ∧
      sparse.check = .ok () ∧ load sparse.save = .ok sparse := by
  have hstands : Stands sparseReordered.toNode sparse.toJson :=
    .object ((List.Perm.swap ..).trans (.cons _ (.swap ..))) (Json.stands_membersNode _)
  have hcheck : sparse.check = .ok () := rfl
  exact ⟨hstands, (load_save sparse).1 _ hstands, hcheck, (load_save sparse).2.2 hcheck⟩

end Wiring.Program
