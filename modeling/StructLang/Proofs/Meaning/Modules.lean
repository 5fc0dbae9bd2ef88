import StructLang.Proofs.Document.Lowered
import StructLang.Proofs.Meaning.Functions

namespace StructLang

open Ir

theorem Document.functions_sublist (d : Document) : (d.functions.map (·.signature)).Sublist (Document.signatures d) := by
  induction d with
  | nil => exact .slnil
  | cons decl rest ih =>
    rw [Document.signatures]
    cases decl with
    | function g => exact ih.cons_cons g.signature
    | _ => exact ih.trans (List.sublist_append_right ..)

theorem Document.functions_nodup {d : Document} (distinct : d.DistinctFunctions) :
    (d.functions.map (·.signature.name)).Nodup := by
  have names := d.functions_sublist.map (·.name)
  rw [List.map_map] at names
  exact names.nodup distinct

def Signature.declaration (f : Signature) : Ir.Function := .declaration f.name f.irParams (.ofSource f.returns)

theorem Ir.ModuleBuilder.functions_declareAll {fs : List Signature} {m : ModuleBuilder}
    (distinct : (m.module.functions.map (·.name) ++ fs.map (·.name)).Nodup) :
    (fs.foldl ModuleLower.declare m).module.functions = m.module.functions ++ fs.map (·.declaration) := by
  induction fs generalizing m with
  | nil => simp
  | cons f rest ih =>
    have new : m.module.function? f.name = none := by
      rw [Module.function?, List.find?_eq_none]
      intro g member same
      have := (List.nodup_append.mp distinct).2.2 g.name (List.mem_map_of_mem member) f.name (by simp)
      exact this (eq_of_beq same)
    have step : (ModuleLower.declare m f).module.functions = m.module.functions ++ [f.declaration] := by
      simp only [ModuleLower.declare, declare, new]
      rfl
    rw [List.foldl_cons, ih, step, List.append_assoc]
    · rfl
    · rw [step]
      simpa [Signature.declaration, Function.declaration] using distinct

theorem Ir.ModuleBuilder.globals_declareAll (fs : List Signature) (m : ModuleBuilder) :
    (fs.foldl ModuleLower.declare m).module.globals = m.module.globals := by
  induction fs generalizing m with
  | nil => rfl
  | cons f rest ih =>
    rw [List.foldl_cons, ih]
    simp only [ModuleLower.declare, declare]
    split <;> rfl

theorem Ir.ModuleBuilder.globals_addStructs (ds : List StructDecl) (m : ModuleBuilder) :
    (ds.foldl (fun m d => m.addStruct d.layout) m).module.globals = m.module.globals := by
  induction ds generalizing m with
  | nil => rfl
  | cons d rest ih => rw [List.foldl_cons, ih]; rfl

structure Document.Assembled (d : Document) (scope : Scope) (done : List FunctionDecl) (m : Module) : Prop where
  globals : m.globals = []
  names : m.functions.map (·.name) = (Document.signatures d).map (·.name)
  each : ∀ g ∈ m.functions, (∃ f ∈ Document.signatures d, g = f.declaration) ∨ ∃ f ∈ done, f.Compiled scope g
  defined : ∀ f ∈ done, ∃ g, m.function? f.signature.name = some g ∧ f.Compiled scope g

namespace Document

variable {d : Document}

theorem assembled_declared (distinct : d.DistinctFunctions) (scope : Scope) (name : String) :
    d.Assembled scope [] (d.declared name).module := by
  have start : (ModuleLower.addStructs (.start name) d).module.functions = [] := by
    rw [ModuleLower.addStructs_eq, ModuleBuilder.functions_foldl_addStruct]
    rfl
  have functions : (d.declared name).module.functions = (Document.signatures d).map (·.declaration) := by
    rw [declared, ModuleLower.declareAll_eq, ModuleBuilder.functions_declareAll]
    · rw [start, List.nil_append]
    · rw [start]
      exact distinct
  refine ⟨?_, ?_, ?_, fun f member => absurd member List.not_mem_nil⟩
  · rw [declared, ModuleLower.declareAll_eq, ModuleBuilder.globals_declareAll, ModuleLower.addStructs_eq,
      ModuleBuilder.globals_addStructs]
    rfl
  · rw [functions, List.map_map]
    rfl
  · intro g member
    rw [functions] at member
    obtain ⟨f, known, rfl⟩ := List.mem_map.mp member
    exact .inl ⟨f, known, rfl⟩

/-- A function that is lowered takes the place of its declaration. -/
theorem Assembled.add {scope : Scope} {done : List FunctionDecl} {m m' : ModuleBuilder} {f : FunctionDecl} {g : Ir.Function}
    (assembled : d.Assembled scope done m.module) (functions : scope.IsInteger) (member : f ∈ d.functions)
    (fresh : f.signature.name ∉ done.map (·.signature.name)) (signature : f.signature.isInteger = true)
    (int : f.body.isInteger = true) (lowered : ModuleLower.function scope true f m = .ok g m') :
    d.Assembled scope (f :: done) (m'.addFunction g).module := by
  obtain ⟨s, result, rfl, rfl⟩ := ModuleLower.function_ok lowered
  obtain ⟨-, same⟩ := (Lower.plain_body functions m signature int).ok result
  obtain ⟨written, -⟩ := (Lower.written_body scope true m f).ok result
  have compiled : f.Compiled scope s.function.build := ⟨m, s, result, rfl⟩
  have name : s.function.build.name = f.signature.name := written.name
  rw [same]
  refine ⟨assembled.globals, ?_, ?_, ?_⟩
  · refine (ModuleBuilder.map_put Function.name ?_).trans assembled.names
    rw [assembled.names, name]
    exact List.mem_map_of_mem (Document.signature_mem member)
  · intro h placed
    rcases ModuleBuilder.mem_put placed with rfl | before
    · exact .inr ⟨f, List.mem_cons_self .., compiled⟩
    · refine (assembled.each h before).imp id ?_
      rintro ⟨f', earlier, compiled'⟩
      exact ⟨f', List.mem_cons_of_mem _ earlier, compiled'⟩
  · intro f' placed
    rw [ModuleBuilder.function?_addFunction, name]
    rcases List.mem_cons.mp placed with rfl | earlier
    · exact ⟨_, if_pos rfl, compiled⟩
    · have other : f'.signature.name ≠ f.signature.name := fun same => fresh (same ▸ List.mem_map_of_mem earlier)
      rw [if_neg other]
      exact assembled.defined f' earlier

theorem Assembled.addAll {scope : Scope} (functions : scope.IsInteger) {fs done : List FunctionDecl} {m m' : ModuleBuilder}
    (assembled : d.Assembled scope done m.module) (subset : fs ⊆ d.functions)
    (distinct : ((done ++ fs).map (·.signature.name)).Nodup)
    (int : ∀ f ∈ fs, f.signature.isInteger = true ∧ f.body.isInteger = true)
    (lowered : ModuleLower.functions scope true fs m = .ok () m') : d.Assembled scope (fs.reverse ++ done) m'.module := by
  induction fs generalizing done m with
  | nil =>
    cases lowered
    exact assembled
  | cons f rest ih =>
    rw [ModuleLower.functions_cons] at lowered
    cases result : ModuleLower.function scope true f m with
    | error e m₁ => rw [result] at lowered; cases lowered
    | ok g m₁ =>
      rw [result] at lowered
      have fresh : f.signature.name ∉ done.map (·.signature.name) := by
        intro member
        rw [List.map_append, List.nodup_append] at distinct
        exact distinct.2.2 _ member _ (by simp) rfl
      obtain ⟨signature, body⟩ := int f (List.mem_cons_self ..)
      have added := assembled.add functions (subset (List.mem_cons_self ..)) fresh signature body result
      have perm : (done ++ f :: rest).Perm (f :: done ++ rest) := List.perm_middle
      have all := ih added (fun f member => subset (List.mem_cons_of_mem _ member))
        ((perm.map _).nodup_iff.mp distinct) (fun f member => int f (List.mem_cons_of_mem _ member)) lowered
      simpa using all

theorem signature_isInteger (int : d.isInteger = true) {f : Signature} (member : f ∈ Document.signatures d) :
    f.isInteger = true := by
  rw [isInteger, Bool.and_eq_true, List.all_eq_true] at int
  exact int.1 f member

theorem body_isInteger (int : d.isInteger = true) {f : FunctionDecl} (member : f ∈ d.functions) :
    f.body.isInteger = true := by
  rw [isInteger, Bool.and_eq_true, List.all_eq_true, List.all_eq_true] at int
  exact int.2 f member

variable (distinct : d.DistinctFunctions)
include distinct

theorem functions_scope (name : String) :
    (d.check .strict).scope.functions.get? name = (Document.signatures d).find? (·.name == name) := by
  rw [scope_check, (checkedUpTo_tables distinct (List.Subset.refl _)).2.1, functions_context distinct]

theorem isInteger_scope (int : d.isInteger = true) : (d.check .strict).scope.IsInteger := by
  intro name f known
  rw [functions_scope distinct] at known
  exact signature_isInteger int (List.mem_of_find?_eq_some known)

theorem assembled (int : d.isInteger = true) {name : String} {m : Module}
    (lowered : d.lower (d.check .strict).scope true name = .ok m) :
    d.Assembled (d.check .strict).scope d.functions.reverse m := by
  simp only [lower, ModuleLower.document_eq] at lowered
  cases result : ModuleLower.functions (d.check .strict).scope true d.functions (d.declared name) with
  | error e m' => rw [result] at lowered; cases lowered
  | ok _ m' =>
    rw [result] at lowered
    dsimp only at lowered
    split at lowered
    · cases lowered
    cases lowered
    have all := (assembled_declared distinct _ name).addAll (isInteger_scope distinct int) (List.Subset.refl _)
      (functions_nodup distinct)
      (fun f member => ⟨signature_isInteger int (signature_mem member), body_isInteger int member⟩) result
    simpa using all

section Calls

variable (int : d.isInteger = true) {m : Module} (assembled : d.Assembled (d.check .strict).scope d.functions.reverse m)
include int assembled

/-- A call whose own calls are answered alike. -/
theorem returns_of_answers {bound depth : Nat}
    (answers : ∀ {name ns v}, d.call bound depth name ns = some v → ∃ depth' f answer, depth = depth' + 1 ∧
      (d.check .strict).scope.functions.get? name = some f ∧ v.IsResult f.returns answer ∧ m.Returns depth' name ns answer)
    {name : String} {args : List Int64} {v : Meaning} (answered : d.call bound (depth + 1) name args = some v) :
    ∃ f answer, (d.check .strict).scope.functions.get? name = some f ∧ v.IsResult f.returns answer ∧
      m.Returns depth name args answer := by
  obtain ⟨f, found, answered⟩ := Option.bind_eq_some_iff.mp answered
  obtain ⟨same, answered⟩ := Option.ite_none_right_eq_some.mp answered
  obtain ⟨⟨flow, l⟩, ran, answered⟩ := Option.bind_eq_some_iff.mp answered
  obtain ⟨answer, isResult, ends⟩ := Flow.followed_of_answer answered
  have member := List.mem_of_find?_eq_some found
  obtain rfl : f.signature.name = name :=
    eq_of_beq (List.find?_some (p := fun f : FunctionDecl => f.signature.name == name) found)
  have known : (d.check .strict).scope.functions.get? f.signature.name = some f.signature := by
    rw [functions_scope distinct]
    exact find?_of_mem_nodup Signature.name distinct (signature_mem member)
  obtain ⟨g, placed, compiled⟩ := assembled.defined f (List.mem_reverse.mpr member)
  exact ⟨f.signature, answer, known, isResult, compiled.returns (isInteger_scope distinct int)
    (signature_isInteger int (signature_mem member)) (body_isInteger int member) placed answers same ran ends⟩

/-- The calls that the document answers are answered alike by its module. -/
theorem returns_of_call {bound : Nat} (depth : Nat) {name : String} {args : List Int64} {v : Meaning}
    (answered : d.call bound (depth + 1) name args = some v) :
    ∃ f answer, (d.check .strict).scope.functions.get? name = some f ∧ v.IsResult f.returns answer ∧
      m.Returns depth name args answer := by
  induction depth generalizing name args v with
  | zero => exact returns_of_answers distinct int assembled (fun never => absurd never (by simp [call])) answered
  | succ depth ih =>
    refine returns_of_answers distinct int assembled (fun answered => ?_) answered
    obtain ⟨f, answer, known⟩ := ih answered
    exact ⟨depth, f, answer, rfl, known⟩

end Calls

end Document

end StructLang
