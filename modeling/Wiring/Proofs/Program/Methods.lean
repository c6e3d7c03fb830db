import Wiring.Program.ProgramDraft
import Wiring.Proofs.Catalogue

/-!
# Declared methods

What becomes of the methods that a draft of a program declares. A method is attached to the first
type of its name, and of several types of one name the last is kept. So the methods of a type are
all there if the type is declared once, and they are lost if it is declared again.
-/

namespace Wiring.Program

/-- The type with a method added, in place of one of the same name. -/
def NamedType.withMethod (t : NamedType) (m : MethodDeclaration) : NamedType :=
  { t with methods := t.methods.file ⟨m.method, m.function⟩ }

/-- The types that have the name. -/
def named (typeName : String) (types : List NamedType) : List NamedType :=
  types.filter fun t ↦ t.name = typeName

namespace ProgramStep

/-- The type that a step declares. -/
def type? : ProgramStep → Option NamedType
  | namedType name interfaces => some { name, interfaces }
  | method _ | function _ | external _ | global _ => none

/-- The method that a step declares. -/
def method? : ProgramStep → Option MethodDeclaration
  | method m => some m
  | namedType _ _ | function _ | external _ | global _ => none

/-- The step declares the type of the name. -/
def declares (typeName : String) (s : ProgramStep) : Bool :=
  s.type?.any fun t ↦ t.name = typeName

end ProgramStep

namespace ProgramDraft

/-- A draft has the types and methods that its steps declare. Functions and global variables are
added at once, types only in the end. -/
theorem foldl_apply (steps : List ProgramStep) (d : ProgramDraft) :
    (steps.foldl apply d).types = d.types ++ steps.filterMap ProgramStep.type? ∧
      (steps.foldl apply d).methods = d.methods ++ steps.filterMap ProgramStep.method? ∧
      (steps.foldl apply d).program.types = d.program.types := by
  induction steps generalizing d with
  | nil => simp
  | cons s steps ih =>
    obtain ⟨htypes, hmethods, hprogram⟩ := ih (d.apply s)
    rw [List.foldl_cons, htypes, hmethods, hprogram]
    cases s <;> simp [apply, ProgramStep.type?, ProgramStep.method?, addFunction, addGlobal,
      List.filterMap_cons]

/-- A method is attached to the first type of its name. -/
theorem exists_of_attach {types types' : List NamedType} {m : MethodDeclaration}
    (h : attach types m = .ok types') : ∃ before t after,
      types = before ++ t :: after ∧ (∀ u ∈ before, u.name ≠ m.typeName) ∧ t.name = m.typeName ∧
        types' = before ++ t.withMethod m :: after := by
  induction types generalizing types' with
  | nil => cases h
  | cons t rest ih =>
    unfold attach at h
    split at h
    · next ht =>
      obtain rfl := Except.ok.inj h
      exact ⟨[], t, rest, rfl, by simp, ht, rfl⟩
    · next ht =>
      cases hrest : attach rest m with
      | error e => simp [hrest, Except.map] at h
      | ok rest' =>
        obtain rfl : t :: rest' = types' := by simpa [hrest, Except.map] using h
        obtain ⟨before, u, after, rfl, hbefore, hu, rfl⟩ := ih hrest
        exact ⟨t :: before, u, after, rfl, by simpa using ⟨ht, hbefore⟩, hu, rfl⟩

/-- Attaching a method changes the first type of its name, and no type of another name. -/
theorem named_of_attach {types types' : List NamedType} {m : MethodDeclaration}
    (h : attach types m = .ok types') (typeName : String) : named typeName types' =
      if m.typeName = typeName then (named typeName types).modifyHead (·.withMethod m)
      else named typeName types := by
  obtain ⟨before, t, after, rfl, hbefore, ht, rfl⟩ := exists_of_attach h
  unfold named
  have hname : (t.withMethod m).name = t.name := rfl
  rw [List.filter_append, List.filter_append, List.filter_cons, List.filter_cons, hname, ht]
  by_cases heq : m.typeName = typeName
  · have hnone : before.filter (fun u ↦ u.name = typeName) = [] := by
      rw [List.filter_eq_nil_iff]
      exact fun u hu ↦ by simpa [heq] using hbefore u hu
    simp [heq, hnone]
  · simp [heq]

/-- Attaching methods adds those of a type to the first type of its name. -/
theorem named_of_foldlM_attach {types types' : List NamedType} {methods : List MethodDeclaration}
    (h : methods.foldlM attach types = .ok types') (typeName : String) : named typeName types' =
      (named typeName types).modifyHead fun t ↦
        (methods.filter fun m ↦ m.typeName = typeName).foldl NamedType.withMethod t := by
  induction methods generalizing types with
  | nil =>
    obtain rfl := Except.ok.inj h
    exact (congrFun List.modifyHead_id _).symm
  | cons m methods ih =>
    rw [List.foldlM_cons] at h
    cases hm : attach types m with
    | error e => simp [hm, bind, Except.bind] at h
    | ok attached =>
      rw [hm] at h
      rw [ih h, named_of_attach hm typeName]
      by_cases heq : m.typeName = typeName
      · simp [heq, Function.comp_def]
      · simp [heq]

/-- A method is attached only to a type that is there. -/
theorem named_ne_nil_of_foldlM_attach {types types' : List NamedType}
    {methods : List MethodDeclaration} (h : methods.foldlM attach types = .ok types')
    {m : MethodDeclaration} (hm : m ∈ methods) : named m.typeName types ≠ [] := by
  induction methods generalizing types with
  | nil => cases hm
  | cons m' methods ih =>
    rw [List.foldlM_cons] at h
    cases hm' : attach types m' with
    | error e => simp [hm', bind, Except.bind] at h
    | ok attached =>
      rw [hm'] at h
      rcases List.mem_cons.mp hm with rfl | hm
      · obtain ⟨before, t, after, rfl, -, ht, -⟩ := exists_of_attach hm'
        have ht : t ∈ named m.typeName (before ++ t :: after) :=
          List.mem_filter.mpr ⟨by simp, by simpa using ht⟩
        exact List.ne_nil_of_mem ht
      · have hne := ih h hm
        rw [named_of_attach hm'] at hne
        split at hne
        · exact fun hnil ↦ hne (by rw [hnil]; rfl)
        · exact hne

end ProgramDraft

/-- Of several types of one name, the program keeps the last. -/
theorem find?_types_foldl_addType (types : List NamedType) (p : Program) (typeName : String) :
    (types.foldl addType p).types.find? typeName =
      (named typeName types).getLast?.or (p.types.find? typeName) := by
  have htypes : (types.foldl addType p).types = types.foldl .file p.types :=
    (List.foldl_hom Program.types fun _ _ ↦ rfl).symm
  rw [htypes, Catalogue.find?_foldl_file_eq]
  rfl

/-- Of several methods of one name, a type keeps the last. -/
theorem NamedType.method?_foldl_withMethod (methods : List MethodDeclaration) (t : NamedType)
    (method : String) : (methods.foldl withMethod t).method? method =
      ((methods.filter fun m ↦ m.method = method).getLast?.map MethodDeclaration.function).or
        (t.method? method) := by
  have hmethods : (methods.foldl withMethod t).methods =
      (methods.map fun m ↦ ⟨m.method, m.function⟩).foldl .file t.methods := by
    rw [List.foldl_map]
    exact (List.foldl_hom NamedType.methods fun _ _ ↦ rfl).symm
  unfold method?
  rw [hmethods, Catalogue.find?_foldl_file_eq, List.filter_map, List.getLast?_map, Option.map_or,
    Option.map_map]
  rfl

/-- A program is completed from the declared types with the declared methods attached to them. -/
theorem exists_of_ofSteps {steps : List ProgramStep} {p : Program} (h : ofSteps steps = .ok p) :
    ∃ types, (steps.filterMap ProgramStep.method?).foldlM ProgramDraft.attach
        (steps.filterMap ProgramStep.type?) = .ok types ∧
      ∀ typeName, p.types.find? typeName = (named typeName types).getLast? := by
  obtain ⟨htypes, hmethods, hprogram⟩ := ProgramDraft.foldl_apply steps {}
  unfold ofSteps ProgramDraft.complete at h
  rw [htypes, hmethods, List.nil_append, List.nil_append] at h
  cases hattach : (steps.filterMap ProgramStep.method?).foldlM ProgramDraft.attach
      (steps.filterMap ProgramStep.type?) with
  | error e => simp [hattach, bind, Except.bind] at h
  | ok types =>
    rw [hattach] at h
    obtain rfl := Except.ok.inj h
    refine ⟨types, rfl, fun typeName ↦ ?_⟩
    rw [find?_types_foldl_addType, hprogram]
    exact Option.or_none

/-- How often a type is declared. -/
theorem length_named (steps : List ProgramStep) (typeName : String) :
    (named typeName (steps.filterMap ProgramStep.type?)).length =
      steps.countP (ProgramStep.declares typeName) := by
  unfold named
  rw [← List.countP_eq_length_filter, List.countP_filterMap]
  refine List.countP_congr fun s _ ↦ ?_
  unfold ProgramStep.declares
  cases s.type? <;> simp

/-- A type is declared without methods. -/
theorem method?_of_mem_named {steps : List ProgramStep} {typeName : String} {t : NamedType}
    (h : t ∈ named typeName (steps.filterMap ProgramStep.type?)) (method : String) :
    t.method? method = none := by
  obtain ⟨s, -, hs⟩ := List.mem_filterMap.mp (List.mem_filter.mp h).1
  cases s with
  | namedType name interfaces =>
    obtain rfl := Option.some.inj hs
    rfl
  | _ => cases hs

/-- A method that is not declared again is the last one of its type and name. -/
theorem getLast?_declared {steps before after : List ProgramStep}
    {typeName method function : String}
    (hsteps : steps = before ++ .method ⟨typeName, method, function⟩ :: after)
    (hlast : ∀ f, .method ⟨typeName, method, f⟩ ∉ after) :
    (((steps.filterMap ProgramStep.method?).filter fun m ↦ m.typeName = typeName).filter fun m ↦
      m.method = method).getLast? = some ⟨typeName, method, function⟩ := by
  have hnone : ((after.filterMap ProgramStep.method?).filter fun m ↦ m.typeName = typeName).filter
      (fun m ↦ m.method = method) = [] := by
    rw [List.filter_filter, List.filter_eq_nil_iff]
    intro m hm hsame
    obtain ⟨s, hs, hsm⟩ := List.mem_filterMap.mp hm
    obtain ⟨rfl, rfl⟩ : m.method = method ∧ m.typeName = typeName := by simpa using hsame
    cases s with
    | method m' =>
      obtain rfl := Option.some.inj hsm
      exact hlast m'.function hs
    | _ => cases hsm
  have hthis : ProgramStep.method? (.method ⟨typeName, method, function⟩) =
      some ⟨typeName, method, function⟩ := rfl
  rw [hsteps, List.filterMap_append, List.filterMap_cons_some hthis, List.filter_append,
    List.filter_cons_of_pos (by simp), List.filter_append, List.filter_cons_of_pos (by simp), hnone,
    List.getLast?_append]
  rfl

/-- In a program that is drafted, the type of a declared method is there. It has the method, by the
function that was given last, exactly if the type is declared once: if it is declared more often,
it has none of the methods that were declared. -/
theorem method?_ofSteps {steps before after : List ProgramStep}
    {typeName method function : String} {p : Program}
    (hsteps : steps = before ++ .method ⟨typeName, method, function⟩ :: after)
    (hlast : ∀ f, .method ⟨typeName, method, f⟩ ∉ after) (h : ofSteps steps = .ok p) :
    ∃ t, p.types.find? typeName = some t ∧ t.method? method =
      if steps.countP (ProgramStep.declares typeName) = 1 then some function else none := by
  obtain ⟨types, hattach, hfind⟩ := exists_of_ofSteps h
  have hgiven := getLast?_declared hsteps hlast
  have hne : named typeName (steps.filterMap ProgramStep.type?) ≠ [] :=
    ProgramDraft.named_ne_nil_of_foldlM_attach hattach (m := ⟨typeName, method, function⟩)
      (List.mem_of_mem_filter (List.mem_of_mem_filter (List.mem_of_getLast? hgiven)))
  rw [hfind, ProgramDraft.named_of_foldlM_attach hattach, ← length_named]
  cases hnamed : named typeName (steps.filterMap ProgramStep.type?) with
  | nil => exact absurd hnamed hne
  | cons t rest =>
    rw [List.modifyHead_cons]
    cases rest with
    | nil =>
      -- the only declaration is the first one of the name and the last one
      refine ⟨_, List.getLast?_singleton, ?_⟩
      rw [NamedType.method?_foldl_withMethod, hgiven]
      rfl
    | cons u rest =>
      obtain ⟨v, hv⟩ : ∃ v, (u :: rest).getLast? = some v := ⟨_, rfl⟩
      have hmem : v ∈ t :: u :: rest := List.mem_cons_of_mem _ (List.mem_of_getLast? hv)
      refine ⟨v, by rw [List.getLast?_cons_cons, hv], ?_⟩
      rw [method?_of_mem_named (hnamed ▸ hmem), if_neg (by simp)]

/-- A method that is given twice, both times before its type is declared. -/
theorem method?_ofSteps_shop : ∃ steps p t,
    steps = [.method ⟨"shop.App", "Configure", "shop.old"⟩] ++
        .method ⟨"shop.App", "Configure", "shop.new"⟩ ::
          [.namedType "shop.App" [], .method ⟨"shop.App", "Close", "shop.close"⟩] ∧
      ofSteps steps = .ok p ∧ steps.countP (ProgramStep.declares "shop.App") = 1 ∧
      p.types.find? "shop.App" = some t ∧ t.method? "Configure" = some "shop.new" := by
  obtain ⟨p, hp⟩ : ∃ p, ofSteps ([.method ⟨"shop.App", "Configure", "shop.old"⟩] ++
      .method ⟨"shop.App", "Configure", "shop.new"⟩ :: [.namedType "shop.App" [],
        .method ⟨"shop.App", "Close", "shop.close"⟩]) = .ok p := ⟨_, rfl⟩
  obtain ⟨t, ht, hmethod⟩ := method?_ofSteps rfl (by simp) hp
  exact ⟨_, p, t, rfl, hp, by decide, ht, hmethod⟩

/-- A type that is declared twice loses its method. -/
theorem method?_redeclared : ∃ p t,
    ofSteps [.namedType "T" [], .namedType "T" [], .method ⟨"T", "m", "f"⟩] = .ok p ∧
      p.types.find? "T" = some t ∧ t.method? "m" = none :=
  ⟨_, _, rfl, rfl, rfl⟩

end Wiring.Program
