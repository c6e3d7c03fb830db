import Wiring.Proofs.Analysis.Coverage
import Wiring.Proofs.Analysis.Walk
import Wiring.Proofs.Program.Mentions

/-!
# Types of values

The types that a value names, be it as the type of what is in an interface or as the message type of
a route, are all named in the program. So whatever is looked up for a value is looked up by a name
that the program mentions.
-/

namespace Wiring.Analysis

open Wiring.Program (Callee Instruction Function Operand ValueId Mention mentionedType)

/-- The types that a value mentions. -/
def StaticValue.mentions : StaticValue → List Mention
  | const _ => []
  | boxed typeName held => mentionedType typeName :: held.mentions
  | boxedUnknown typeName => [mentionedType typeName]
  | constructed _ typeArgs => typeArgs.map mentionedType

/-- The value mentions no types but those that the program mentions. -/
def Environment.Names (env : Environment) (v : StaticValue) : Prop :=
  v.mentions ⊆ env.program.mentions

/-- The frame is one of a function of the program, and so are the types of its arguments. -/
structure Environment.Knows (env : Environment) (frame : Frame) : Prop where
  has : env.Has frame
  args : ∀ v, some v ∈ frame.args → env.Names v

/-- In the frames that are known, what is concluded names types of the program. -/
def Judgement.Known (env : Environment) : Judgement → Prop
  | value frame _ v => env.Knows frame → env.Names v
  | result frame _ v => env.Knows frame → env.Names v
  | graph _ _ => True

variable {env : Environment} {frame : Frame}

theorem Environment.names_const (c : Program.Constant) : env.Names (.const c) :=
  List.nil_subset _

/-- An operator gives a constant. -/
theorem Environment.names_of_fold {op : Program.BinaryOp} {a b v : StaticValue}
    (h : StaticValue.fold op a b = some v) : env.Names v := by
  simp only [StaticValue.fold, Option.bind_eq_bind, Option.bind_eq_some_iff] at h
  obtain ⟨_, -, _, -, c, -, h⟩ := h
  obtain rfl := Option.some.inj h
  exact names_const c

/-- A negation gives a constant. -/
theorem Environment.names_of_negation {a v : StaticValue} (h : a.negation = some v) :
    env.Names v := by
  obtain ⟨b, -, rfl⟩ := Option.map_eq_some_iff.mp h
  exact names_const _

/-- What an instruction of a known frame mentions, the program does. -/
theorem Environment.Knows.mem_mentions (hframe : env.Knows frame) {id : ValueId} {i : Instruction}
    (hd : frame.function.definition id = some i) {m : Mention} (hm : m ∈ i.mentions) :
    m ∈ env.program.mentions :=
  Program.mem_mentions hframe.has (List.mem_of_find?_eq_some hd) hm

/-- The frame of a call in a known frame is known, if the values of its arguments are. -/
theorem Environment.Knows.callee {callee : Callee} {f : Function} {args : List Operand}
    {bound : List (Option StaticValue)} (hf : env.followed callee = some f)
    (hlen : bound.length = args.length)
    (hbound : ∀ (i : Nat) (o : Operand) (w : StaticValue), args[i]? = some o →
      bound[i]? = some (some w) → env.Names w) : env.Knows ⟨f, bound⟩ where
  has := Environment.has_of_followed hf bound
  args v hv := by
    obtain ⟨i, hi⟩ := List.mem_iff_getElem?.mp hv
    have hlt : i < args.length := hlen ▸ (List.getElem?_eq_some_iff.mp hi).1
    exact hbound i args[i] v (List.getElem?_eq_getElem hlt) hi

/-- A result of a call is one of an instruction that makes the call. -/
theorem IsResult.exists_definition {f : Function} {id : ValueId} {callee : Callee}
    {args : List Operand} {index : Nat} (h : IsResult f id callee args index) :
    ∃ id dest, f.definition id = some (.call dest callee args) := by
  cases h with
  | call hd => exact ⟨_, _, hd⟩
  | extract _ ht => exact ⟨_, _, ht⟩

/-- Whatever has a derivation names types of the program. -/
theorem Derivable.known {J : Judgement} (h : Derivable env J) : J.Known env := by
  induction h with
  | const frame c => exact fun _ ↦ Environment.names_const c
  | param h =>
    exact fun hframe ↦ hframe.args _ (List.mem_of_getElem? (Option.join_eq_some_iff.mp h))
  | boxed hd _ ih =>
    intro hframe
    refine List.cons_subset.mpr ⟨hframe.mem_mentions hd ?_, ih hframe⟩
    simp [Instruction.mentions]
  | boxedUnknown hd =>
    intro hframe
    refine List.cons_subset.mpr ⟨hframe.mem_mentions hd ?_, List.nil_subset _⟩
    simp [Instruction.mentions]
  | changed _ _ ih => exact ih
  | route hd _ =>
    intro hframe m hm
    obtain ⟨id, dest, hcall⟩ := hd.exists_definition
    exact hframe.mem_mentions hcall
      (List.mem_append_right _ (List.mem_cons_of_mem _ hm))
  | call hd hc hf hlen _ _ ihbound ih =>
    intro hframe
    exact ih (.callee hf hlen fun i o w ho hw ↦ ihbound i o w ho hw hframe)
  | global _ _ => exact fun _ ↦ Environment.names_const _
  | load _ _ _ hne _ _ ih =>
    obtain ⟨o, ho⟩ := List.exists_mem_of_ne_nil _ hne
    exact ih o ho
  | binOp _ _ _ hv => exact fun _ ↦ Environment.names_of_fold hv
  | not _ _ hv => exact fun _ ↦ Environment.names_of_negation hv
  | phi _ hne _ ih =>
    obtain ⟨o, ho⟩ := List.exists_mem_of_ne_nil _ hne
    exact ih o ho
  | result _ hne hsome _ _ ih =>
    obtain ⟨o, ho⟩ := List.exists_mem_of_ne_nil _ hne
    cases o with
    | none => exact absurd ho hsome
    | some o => exact ih o ho
  | graph => trivial

/-- Within a known frame, an operand is resolved to a value that names types of the program. -/
theorem resolve_names (stack : List String) (hframe : env.Knows frame) (o : Operand) :
    Concludes env (fun r ↦ ∀ v, r = some v → env.Names v) (Query.resolve env stack frame o) :=
  (resolve_concludes stack hframe.has o).mono fun _ hr v hv ↦ (hr v hv).known hframe

/-- The calls on a configurer that a known frame receives are made in known frames. -/
theorem findConfigurerCalls_knows (stack : List String) (hframe : env.Knows frame)
    (configurer : Nat) : Concludes env (fun r ↦ ∀ call ∈ r.calls, env.Knows call.frame)
      (findConfigurerCalls env stack frame configurer) := by
  refine findConfigurerCalls_yields (I := Memo.Justified env) (P := env.Knows) (fun m hm ↦ ?_)
    (fun stack frame hframe ↦ ?_) (fun stack frame h f hframe hf ↦ ?_) hframe configurer
  · exact ((Concludes.cutOff trivial (a := ()) : Concludes env (fun _ ↦ True) _) m hm).2
  · exact (flow_concludes stack hframe.has).mono fun _ _ ↦ trivial
  · have hresolve (o : Operand) := resolve_concludes stack hframe.has o
    exact (boundArgs_concludes hresolve hf).mono fun bound hbound ↦
      .callee hf hbound.length fun i o w ho hw ↦ (hbound.derivable i o w ho hw).known hframe

end Wiring.Analysis
