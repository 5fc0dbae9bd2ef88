import Mathlib
import StructLang.Compiler
import StructLang.Proofs.Document.TypeAgreement
import StructLang.Proofs.Lowering.Outcome
import StructLang.Proofs.Lowering.Structure

namespace StructLang

open Ir

theorem Ir.Module.Links.build {m : Module} {b : FunctionBuilder} (links : m.Links b.Writes) :
    m.Links (· ∈ b.build.blocks.flatMap (·.instructions)) := by
  have written : ∀ {i}, i ∈ b.build.blocks.flatMap (·.instructions) → b.Writes i ∨ i.isSlot = true := by
    intro i member
    obtain ⟨block, placed, there⟩ := List.mem_flatMap.mp member
    obtain ⟨id, -, found⟩ := List.mem_filterMap.mp placed
    have there : i ∈ b.instructions id := by simpa [FunctionBuilder.instructions, found] using there
    cases slot : i.isSlot with
    | true => exact .inr rfl
    | false => exact .inl ⟨id, List.mem_filter.mpr ⟨there, by simp [slot]⟩⟩
  constructor
  · intro dest struct base index member
    exact links.fields ((written member).resolve_right Bool.false_ne_true)
  · intro value r dest struct base index store field
    exact links.stores ((written store).resolve_right Bool.false_ne_true)
      ((written field).resolve_right Bool.false_ne_true)
  · intro i member v read
    rcases written member with code | slot
    · exact links.constants code v read
    · cases i with
      | alloca => cases read
      | _ => cases slot

theorem Ir.Function.Typed.calls {m : Module} {f : Function} (typed : f.Typed m) :
    m.Calls (· ∈ f.blocks.flatMap (·.instructions)) := by
  intro dest callee args member
  obtain ⟨block, placed, there⟩ := List.mem_flatMap.mp member
  obtain ⟨g, found, types⟩ := typed.computes placed there
  exact ⟨g, found, by simpa using (congrArg List.length types).symm⟩

structure Sealed (m : ModuleBuilder) : Prop where
  interned : m.Interned
  names : (m.module.functions.map (·.name)).Nodup
  checked : ∀ f ∈ m.module.functions, f.checkBody = .ok ()
  links : ∀ f ∈ m.module.functions, m.module.Links (· ∈ f.blocks.flatMap (·.instructions))

namespace Sealed

variable {m m' : ModuleBuilder}

theorem validate {Γ : Context} (whole : Sealed m) (lowered : Lowered Γ m.module) : m.module.validate = .ok () :=
  Module.validate_of_functions whole.names fun f member =>
    Module.checkFunction_of_links (whole.checked f member) (whole.links f member) (lowered.typed f member).calls

theorem start (name : String) : Sealed (.start name) := ⟨nofun, List.nodup_nil, nofun, nofun⟩

/-- A struct changes nothing as long as there is no code. -/
theorem addStruct (whole : Sealed m) (empty : m.module.functions = []) (l : Layout) :
    Sealed (m.addStruct l) := by
  have empty' : (m.addStruct l).module.functions = [] := empty
  refine ⟨whole.interned, whole.names, whole.checked, ?_⟩
  rw [empty']
  nofun

theorem addStructs (ds : List StructDecl) {m : ModuleBuilder} (whole : Sealed m) (empty : m.module.functions = []) :
    Sealed (ds.foldl (fun m d => m.addStruct d.layout) m) := by
  induction ds generalizing m with
  | nil => exact whole
  | cons d rest ih => exact ih (whole.addStruct empty d.layout) empty

theorem declare (whole : Sealed m) (f : Signature) : Sealed (ModuleLower.declare m f) := by
  simp only [ModuleLower.declare, ModuleBuilder.declare]
  split
  · exact whole
  · rename_i unknown
    have new : ∀ g ∈ m.module.functions, g.name ≠ f.name := by
      intro g member same
      refine unknown ?_
      rw [Module.function?, List.find?_isSome]
      exact ⟨g, member, beq_iff_eq.mpr same⟩
    refine ⟨whole.interned, ?_, ?_, ?_⟩
    · rw [List.map_append, List.nodup_append]
      refine ⟨whole.names, by simp, ?_⟩
      intro a before b here
      obtain ⟨g, member, rfl⟩ := List.mem_map.mp before
      have named : b = f.name := by simpa [Function.declaration] using here
      rw [named]
      exact new g member
    · intro g member
      rcases List.mem_append.mp member with before | here
      · exact whole.checked g before
      · cases List.mem_singleton.mp here
        rfl
    · intro g member
      rcases List.mem_append.mp member with before | here
      · exact (whole.links g before).mono (fun _ => id) rfl (List.Subset.refl _)
      · cases List.mem_singleton.mp here
        constructor <;> simp [Function.declaration]

theorem declareAll (fs : List Signature) {m : ModuleBuilder} (whole : Sealed m) :
    Sealed (fs.foldl ModuleLower.declare m) := by
  induction fs generalizing m with
  | nil => exact whole
  | cons f rest ih => exact ih (whole.declare f)

theorem declared (d : Document) (name : String) : Sealed (d.declared name) := by
  rw [Document.declared, ModuleLower.declareAll_eq, ModuleLower.addStructs_eq]
  exact declareAll _ (addStructs _ (start name) rfl)

theorem gain (whole : Sealed m) (gains : m.Gains m') (interned : m'.Interned) : Sealed m' where
  interned := interned
  names := gains.functions ▸ whole.names
  checked := gains.functions ▸ whole.checked
  links f member := (whole.links f (gains.functions ▸ member)).mono (fun _ => id) gains.structs gains.globals

theorem addFunction (whole : Sealed m) {f : Function} (checked : f.checkBody = .ok ())
    (links : m.module.Links (· ∈ f.blocks.flatMap (·.instructions))) : Sealed (m.addFunction f) := by
  refine ⟨whole.interned, ModuleBuilder.names_put Function.name f whole.names, ?_, ?_⟩
  · intro g member
    rcases ModuleBuilder.mem_put member with rfl | before
    · exact checked
    · exact whole.checked g before
  · intro g member
    have there : m.module.Links (· ∈ g.blocks.flatMap (·.instructions)) := by
      rcases ModuleBuilder.mem_put member with rfl | before
      · exact links
      · exact whole.links g before
    exact there.mono (fun _ => id) rfl (List.Subset.refl _)

end Sealed

namespace ModuleLower

variable {scope : Scope} {Γ : Context} {m : ModuleBuilder}

/-- A function is lowered and passes the check exactly if its body is supported. -/
theorem function_outcome {f : FunctionDecl} {Γ' : Context} (lowered : Lowered Γ m.module) (whole : Sealed m)
    (tables : Tables scope (Γ.enter f.signature)) (typed : BlockTyped .strict (Γ.enter f.signature) f.body Γ') :
    match function scope true f m with
    | .ok written m' => f.body.Supported (Γ.enter f.signature) ∧ Sealed (m'.addFunction written)
    | .error _ _ => ¬f.body.Supported (Γ.enter f.signature) := by
  have run := (Lower.wp_self.and (Lower.written_body scope true m f)).and
    (Lower.decides_body whole.interned tables typed lowered.declares)
  unfold Lower.Wp at run
  rw [function_eq]
  cases result : Lower.body scope true f (Lower.startOf m f) with
  | error e s =>
    rw [result] at run
    exact run.2
  | ok _ s =>
    rw [result] at run
    obtain ⟨⟨-, written, gains⟩, returns, linked⟩ := run
    have checked := (Lower.finished_body result).checkBody_iff.trans returns
    dsimp only
    cases valid : s.function.build.validate with
    | error e =>
      intro supported
      have passed : s.function.build.validate = .ok () := mapError_ok_iff.mpr (checked.mpr supported)
      cases valid.symm.trans passed
    | ok _ =>
      have passed := mapError_ok_iff.mp valid
      exact ⟨checked.mp passed, (whole.gain gains linked.interned).addFunction passed linked.links.build⟩

theorem functions_outcome (fs : List FunctionDecl) (known : ∀ f ∈ fs, Γ.functions f.signature.name = some f.signature)
    (tables : ∀ f, Tables scope (Γ.enter f)) (typed : ∀ f ∈ fs, ∃ Γ', BlockTyped .strict (Γ.enter f.signature) f.body Γ')
    {m : ModuleBuilder} (lowered : Lowered Γ m.module) (whole : Sealed m) :
    match functions scope true fs m with
    | .ok _ m' => (∀ f ∈ fs, f.body.Supported (Γ.enter f.signature)) ∧ m'.module.validate = .ok ()
    | .error _ _ => ¬∀ f ∈ fs, f.body.Supported (Γ.enter f.signature) := by
  induction fs generalizing m with
  | nil => exact ⟨nofun, whole.validate lowered⟩
  | cons f rest ih =>
    obtain ⟨Γ', typed'⟩ := typed f List.mem_cons_self
    have first := function_run lowered (known f List.mem_cons_self) (tables f.signature) typed'
      (c := .start .strict .empty)
    have outcome := function_outcome lowered whole (tables f.signature) typed'
    rw [functions_cons]
    cases result : function scope true f m with
    | error e m' =>
      rw [result] at outcome
      exact fun all => outcome (all f List.mem_cons_self)
    | ok written m' =>
      rw [result] at first outcome
      have others := ih (fun f member => known f (List.mem_cons_of_mem _ member))
        (fun f member => typed f (List.mem_cons_of_mem _ member)) first outcome.2
      dsimp only
      cases result' : functions scope true rest (m'.addFunction written) with
      | ok _ m'' =>
        rw [result'] at others
        exact ⟨List.forall_mem_cons.mpr ⟨outcome.1, others.1⟩, others.2⟩
      | error e m'' =>
        rw [result'] at others
        exact fun all => others (List.forall_mem_cons.mp all).2

end ModuleLower

def Document.Supported (d : Document) : Prop :=
  ∀ f ∈ d.functions, f.body.Supported (d.context.enter f.signature)

namespace Document

variable {d : Document}

theorem lower_ok_iff (distinct : d.DistinctFunctions) (fields : d.DistinctFields)
    (typed : FunctionsTyped .strict d.context d.functions) (name : String) :
    (∃ m, d.lower (d.check .strict).scope true name = .ok m) ↔ d.Supported := by
  have run := ModuleLower.functions_outcome d.functions (fun f member => function_known distinct member)
    (tables_enter distinct) (fun f member => typed_body distinct typed member)
    (lowered_declared distinct fields name) (.declared d name)
  rw [← ModuleLower.document_eq] at run
  unfold Document.lower
  cases result : ModuleLower.document (d.check .strict).scope true d (.start name) with
  | error e m =>
    rw [result] at run
    exact ⟨nofun, fun supported => absurd supported run⟩
  | ok _ m =>
    rw [result] at run
    dsimp only
    rw [run.2]
    exact ⟨fun _ => run.1, fun _ => ⟨m.module, rfl⟩⟩

end Document

/-- A parsed document that is accepted and declares no function twice compiles exactly if it is supported. -/
theorem accepted_document_compiles_iff {d : Document} (parsed : Parsed d) (distinct : d.DistinctFunctions)
    (accepted : (d.check .strict).diagnostics.hasErrors = false) (color : Bool) (source : Source) :
    (∃ m, Compiler.document ⟨.strict, color⟩ d source = .ok m) ↔ d.Supported := by
  have typed := (d.accepted_iff_functionsTyped .strict).mp accepted
  rw [← Document.lower_ok_iff distinct parsed.distinctFields typed (fileStem source.name)]
  simp only [Compiler.document, accepted, Bool.false_eq_true, ↓reduceIte, mapError_ok_iff]
  exact Iff.rfl

theorem accepted_document_compiles_iff_comparison :
    ∃ d m, parse "function same(p: i64*): i64 { if (p == p) { return -*p; } return 0; }" = .ok d ∧
      d.DistinctFunctions ∧ (d.check .strict).diagnostics.hasErrors = false ∧
      Compiler.document ⟨.strict, false⟩ d ⟨"same.ll", ""⟩ = .ok m ∧ d.Supported := by
  have checked name : (match parse "function same(p: i64*): i64 { if (p == p) { return -*p; } return 0; }" with
      | .ok d => decide d.DistinctFunctions && !(d.check .strict).diagnostics.hasErrors &&
        (d.lower (d.check .strict).scope true name).isOk
      | .error _ => false) = true := by cbv
  have checked := checked (fileStem "same.ll")
  revert checked
  generalize read : parse _ = result
  intro checked
  cases result with
  | error e => cases checked
  | ok d =>
    simp only [Bool.and_eq_true, decide_eq_true_eq, Bool.not_eq_true'] at checked
    obtain ⟨⟨distinct, accepted⟩, written⟩ := checked
    cases lowered : d.lower (d.check .strict).scope true (fileStem "same.ll") with
    | error e =>
      rw [lowered] at written
      cases written
    | ok m =>
      have compiled : Compiler.document ⟨.strict, false⟩ d ⟨"same.ll", ""⟩ = .ok m := by
        simp only [Compiler.document, accepted, Bool.false_eq_true, ↓reduceIte]
        exact mapError_ok_iff.mpr lowered
      have supported := (accepted_document_compiles_iff (.text read (.refl d)) distinct accepted _ _).mp ⟨m, compiled⟩
      exact ⟨d, m, rfl, distinct, accepted, compiled, supported⟩

/-- The rules give the negation of a pointer a type, but there is no operation for it. -/
theorem accepted_document_fails_negatedPointer :
    ∃ d, parse "function f(p: i64*): i64* { return -p; }" = .ok d ∧ (d.check .strict).diagnostics.hasErrors = false ∧
      Compiler.document ⟨.strict, false⟩ d ⟨"main.ll", "function f(p: i64*): i64* { return -p; }"⟩ =
        .error (.lowering (.unsupported "-" (.ptr (.int 64)))) := by
  have checked name : (match parse "function f(p: i64*): i64* { return -p; }" with
      | .ok d => !(d.check .strict).diagnostics.hasErrors &&
        match d.lower (d.check .strict).scope true name with
        | .error e => decide (e = .unsupported "-" (.ptr (.int 64)))
        | .ok _ => false
      | .error _ => false) = true := by cbv
  have checked := checked (fileStem "main.ll")
  revert checked
  generalize parse _ = result
  cases result with
  | error e => exact fun checked => absurd checked Bool.false_ne_true
  | ok d =>
    intro checked
    simp only [Bool.and_eq_true, Bool.not_eq_true'] at checked
    obtain ⟨accepted, failed⟩ := checked
    refine ⟨d, rfl, accepted, ?_⟩
    simp only [Compiler.document, accepted, Bool.false_eq_true, ↓reduceIte]
    cases lowered : d.lower (d.check .strict).scope true (fileStem "main.ll") with
    | error e =>
      rw [lowered] at failed
      have same : e = .unsupported "-" (.ptr (.int 64)) := of_decide_eq_true failed
      rw [same] at lowered
      exact congrArg (Except.mapError CompileError.lowering) lowered
    | ok m =>
      rw [lowered] at failed
      cases failed

end StructLang
