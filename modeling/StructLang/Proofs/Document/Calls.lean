import Mathlib
import StructLang.Compiler
import StructLang.Proofs.Document.Signatures
import StructLang.Proofs.Ir.References
import StructLang.Proofs.Builder.Each
import StructLang.Proofs.Lowering.Invariants

namespace StructLang

open Ir

namespace Ir

def Instruction.Reaches (m : Module) : Instruction → Prop
  | .call dest callee args =>
    ∃ f ∈ m.function? callee, args.map (·.ty) = f.params.map (·.ty) ∧ dest.map (·.ty) = f.returns.result?
  | _ => True

def Terminator.Returns (ty : Ty) : Terminator → Prop
  | .ret (some value) => value.ty = ty
  | _ => True

def Module.Coherent (m : Module) : Prop :=
  ∀ f ∈ m.functions, ∀ block ∈ f.blocks,
    (∀ i ∈ block.instructions, i.Reaches m) ∧ ∀ t ∈ block.terminator, t.Returns f.returns

instance (m : Module) : DecidablePred (Instruction.Reaches m)
  | .call dest callee args => inferInstanceAs (Decidable (∃ f ∈ m.function? callee,
      args.map (·.ty) = f.params.map (·.ty) ∧ dest.map (·.ty) = f.returns.result?))
  | .alloca .. | .load .. | .store .. | .fieldAddr .. | .elementAddr .. | .binary .. | .neg .. | .fneg .. | .icmp ..
  | .fcmp .. => .isTrue trivial

instance (ty : Ty) : DecidablePred (Terminator.Returns ty)
  | .ret (some value) => inferInstanceAs (Decidable (value.ty = ty))
  | .ret none | .br _ | .condBr .. | .unreachable => .isTrue trivial

instance (m : Module) : Decidable m.Coherent := inferInstanceAs (Decidable (∀ f ∈ m.functions, ∀ block ∈ f.blocks,
  (∀ i ∈ block.instructions, i.Reaches m) ∧ ∀ t ∈ block.terminator, t.Returns f.returns))

end Ir

namespace Checker

theorem functions_after (fs : List FunctionDecl) (c : Checker) :
    (fs.foldl (fun c f => (c.function f).2) c).scope.functions =
      fs.foldl (fun table f => table.insert f.signature.name f.signature) c.scope.functions := by
  induction fs generalizing c with
  | nil => rfl
  | cons f rest ih =>
    rw [List.foldl_cons, ih, (c.advance_entered f).functions]
    rfl

theorem structs_after (fs : List FunctionDecl) (c : Checker) :
    (fs.foldl (fun c f => (c.function f).2) c).scope.structs = c.scope.structs := by
  induction fs generalizing c with
  | nil => rfl
  | cons f rest ih =>
    rw [List.foldl_cons, ih, (c.advance_entered f).structs]
    rfl

end Checker

namespace Lower

theorem throughout_receives (scope : Scope) : Throughout scope fun s => s.function.All (·.Receives scope) where
  emit {s} n {_} fits all := FunctionBuilder.All.emit (b := { s.function with nextReg := n }) all fits
  alloca ty all := all.alloca ty fun _ => trivial
  intern _ all := all
  terminate t all := all.terminate t
  create label all := all.create label
  append id all := all.append id
  switchTo _ all := all
  locals _ all := all

end Lower

namespace Document

variable {d : Document} {before : List FunctionDecl} {m m' : ModuleBuilder}

def Consistent (d : Document) : Prop :=
  ∀ f ∈ Document.signatures d, ∀ g ∈ Document.signatures d, f.name = g.name → f.Agrees g

instance (d : Document) : Decidable d.Consistent := inferInstanceAs (Decidable (∀ f ∈ Document.signatures d,
  ∀ g ∈ Document.signatures d, f.name = g.name → f.Agrees g))

theorem functions_checkedUpTo (d : Document) (before : List FunctionDecl) (name : String) :
    (d.checkedUpTo .strict before).scope.functions.get? name =
      ((before.reverse.find? (·.signature.name == name)).map (·.signature)).or
        ((Document.signatures d).reverse.find? (·.name == name)) := by
  have later := NameMap.get?_foldl_insert (·.signature.name) FunctionDecl.signature before
    (Scope.register .empty d).functions name
  rw [checkedUpTo, Checker.functions_after, later, Scope.functions_register]

/-- Whatever a body knows of a function is one of its declarations. -/
theorem declared_of_known (subset : before ⊆ d.functions) {name : String} {f : Signature}
    (known : (d.checkedUpTo .strict before).scope.functions.get? name = some f) :
    f ∈ Document.signatures d ∧ f.name = name := by
  rw [functions_checkedUpTo] at known
  cases found : before.reverse.find? (·.signature.name == name) with
  | none =>
    rw [found] at known
    exact ⟨List.mem_reverse.mp (List.mem_of_find?_eq_some known), by simpa using List.find?_some known⟩
  | some g =>
    rw [found] at known
    cases known
    exact ⟨signature_mem (subset (List.mem_reverse.mp (List.mem_of_find?_eq_some found))),
      by simpa using List.find?_some found⟩

/-- Every declared function is known to every body. -/
theorem known_of_declared (before : List FunctionDecl) {f : Signature} (declared : f ∈ Document.signatures d) :
    ∃ g, (d.checkedUpTo .strict before).scope.functions.get? f.name = some g := by
  rw [functions_checkedUpTo]
  cases before.reverse.find? (·.signature.name == f.name) with
  | some g => exact ⟨g.signature, rfl⟩
  | none =>
    refine Option.isSome_iff_exists.mp ?_
    rw [Option.map_none, Option.none_or, List.find?_isSome]
    exact ⟨f, List.mem_reverse.mpr declared, by simp⟩

def finalContext (d : Document) : Context := (d.check .strict).scope.context

theorem structs_finalContext (d : Document) : d.finalContext.structs = d.context.structs :=
  congrArg NameMap.get? (Checker.structs_after d.functions _)

theorem declared_of_final {name : String} {f : Signature} (known : d.finalContext.functions name = some f) :
    f ∈ Document.signatures d ∧ f.name = name :=
  declared_of_known (List.Subset.refl d.functions) known

/-- Lowering knows a declaration that agrees with any other. -/
theorem Consistent.final (consistent : d.Consistent) {f : Signature} (declared : f ∈ Document.signatures d) :
    ∃ g, d.finalContext.functions f.name = some g ∧ f.Agrees g := by
  obtain ⟨g, known⟩ := known_of_declared d.functions declared
  obtain ⟨declared', name⟩ := declared_of_final known
  exact ⟨g, known, consistent f declared g declared' name.symm⟩

/-- If the declarations agree, every body is well typed for the tables that lowering has. -/
theorem Consistent.typed (consistent : d.Consistent) (accepted : (d.check .strict).diagnostics.hasErrors = false)
    {f : FunctionDecl} (member : f ∈ d.functions) :
    ∃ Γ, BlockTyped .strict (d.finalContext.enter f.signature) f.body Γ := by
  obtain ⟨before, after, here⟩ := List.append_of_mem member
  have subset : before ⊆ d.functions := here ▸ List.subset_append_left ..
  let Γ := (d.checkedUpTo .strict before).scope.context.declare f.signature
  have covered : Γ.Covered d.finalContext.functions := by
    intro name g known
    have declared : g ∈ Document.signatures d ∧ g.name = name := by
      simp only [Γ, Context.declare] at known
      split at known
      · rename_i own
        cases known
        exact ⟨signature_mem member, own.symm⟩
      · exact declared_of_known subset known
    obtain ⟨declared, rfl⟩ := declared
    exact consistent.final declared
  have structs : Γ.structs = d.finalContext.structs :=
    (congrArg NameMap.get? (Checker.structs_after before _)).trans d.structs_finalContext.symm
  obtain ⟨Γ', typed⟩ := functionTyped accepted here
  have inside := BlockTyped.knowing f.body (covered.enter f.signature) typed
  have known : (Γ.knowing d.finalContext.functions).functions = d.finalContext.functions := rfl
  rw [Context.knowing_enter, Context.enter_congr known structs] at inside
  exact ⟨_, inside⟩

theorem tables_final (d : Document) (f : Signature) : Tables (d.check .strict).scope (d.finalContext.enter f) := by
  obtain ⟨names, same⟩ := d.finalContext.sameTables_enter f
  rw [same]
  exact ⟨rfl, rfl⟩

/-- A module as far as it has been written: its code is well typed, its functions are those that the document declares,
and its calls receive what lowering knows of their callees. -/
structure Writes (d : Document) (m : Module) : Prop where
  lowered : Lowered d.finalContext m
  declared : ∀ g ∈ m.functions, ∃ f ∈ Document.signatures d,
    g.name = f.name ∧ g.params = f.irParams ∧ g.returns = .ofSource f.returns
  receives : ∀ g ∈ m.functions, ∀ block ∈ g.blocks, ∀ i ∈ block.instructions, i.Receives (d.check .strict).scope

theorem writes_declared (consistent : d.Consistent) (fields : d.DistinctFields) (name : String) :
    d.Writes (d.declared name).module where
  lowered := {
    declares := {
      functions := fun {name' f} known => by
        obtain ⟨declared, rfl⟩ := declared_of_final known
        have some : ((Document.signatures d).find? (·.name == f.name)).isSome := by
          rw [List.find?_isSome]
          exact ⟨f, declared, by simp⟩
        obtain ⟨g, found⟩ := Option.isSome_iff_exists.mp some
        have agrees := consistent g (List.mem_of_find?_eq_some found) f declared (by simpa using List.find?_some found)
        rw [function?_declared, found]
        exact ⟨_, rfl, g.types_irParams.trans agrees.irTypes⟩
      structs := fun known => struct?_declared fields name (d.structs_finalContext ▸ known) }
    typed := fun g member => Function.typed_of_empty (d.blocks_declared name g member) }
  declared g member := by
    rw [Document.declared, ModuleLower.declareAll_eq] at member
    rcases ModuleBuilder.mem_foldl_declare member with before | ⟨f, declared, rfl⟩
    · rw [ModuleLower.addStructs_eq, ModuleBuilder.functions_foldl_addStruct] at before
      cases before
    · exact ⟨f, declared, rfl, rfl, rfl⟩
  receives g member block placed := by
    rw [d.blocks_declared name g member] at placed
    cases placed

/-- One more function is written. -/
theorem Writes.function (writes : d.Writes m.module) (consistent : d.Consistent) {f : FunctionDecl}
    (member : f ∈ d.functions) {Γ : Context} (typed : BlockTyped .strict (d.finalContext.enter f.signature) f.body Γ)
    {written : Function} (ran : ModuleLower.function (d.check .strict).scope true f m = .ok written m') :
    d.Writes (m'.addFunction written).module := by
  have declared := signature_mem member
  obtain ⟨g, known, agrees⟩ := consistent.final declared
  obtain ⟨s, stored, ready, agrees'⟩ := Lower.gives_entered writes.lowered.declares f
  have all : (Lower.startOf m f).function.All (·.Receives (d.check .strict).scope) := by
    intro block placed
    cases placed
  obtain ⟨s', result, rfl, rfl⟩ := ModuleLower.function_ok ran
  obtain ⟨whole, gains⟩ := (Lower.written_body _ true m f).ok result
  have code := ((Lower.gives_body (d.tables_final _) typed stored ready agrees' (c := d.check .strict)).ok result).code
  have calls := ((Lower.throughout_receives _).body _ all).ok result
  refine ⟨(writes.lowered.gain gains).addFunction (f := g) ?_ ?_ code.build, ?_, ?_⟩
  · exact (congrArg _ whole.name).trans known
  · exact (congrArg _ whole.params).trans (f.signature.types_irParams.trans agrees.irTypes)
  · intro h placed
    rcases ModuleBuilder.mem_put placed with rfl | before
    · exact ⟨f.signature, declared, whole.name, whole.params, whole.returns⟩
    · exact writes.declared h (gains.functions ▸ before)
  · intro h placed block inside i here
    rcases ModuleBuilder.mem_put placed with rfl | before
    · exact calls.build inside here
    · exact writes.receives h (gains.functions ▸ before) block inside i here

/-- The functions of a document are written one after the other. -/
theorem Writes.functions (consistent : d.Consistent) (accepted : (d.check .strict).diagnostics.hasErrors = false)
    (fs : List FunctionDecl) (subset : fs ⊆ d.functions) (writes : d.Writes m.module)
    (ran : ModuleLower.functions (d.check .strict).scope true fs m = .ok () m') : d.Writes m'.module := by
  induction fs generalizing m with
  | nil =>
    cases ran
    exact writes
  | cons f rest ih =>
    rw [ModuleLower.functions_cons] at ran
    cases result : ModuleLower.function (d.check .strict).scope true f m with
    | error e m₁ =>
      rw [result] at ran
      cases ran
    | ok written m₁ =>
      rw [result] at ran
      have member := subset (List.mem_cons_self ..)
      obtain ⟨Γ, typed⟩ := consistent.typed accepted member
      exact ih (fun _ later => subset (List.mem_cons_of_mem _ later)) (writes.function consistent member typed result) ran

/-- Whichever declaration the module has of a function, it agrees with what the calls were written for. -/
theorem Writes.coherent (consistent : d.Consistent) {m : Module} (writes : d.Writes m) : m.Coherent := by
  intro h member block placed
  have typed := writes.lowered.typed h member
  refine ⟨fun i written => ?_, fun t last => ?_⟩
  · cases i with
    | call dest callee args =>
      obtain ⟨g, found, passed⟩ : ∃ g, m.function? callee = some g ∧ args.map (·.ty) = g.params.map (·.ty) :=
        typed.computes placed written
      obtain ⟨f, known, received⟩ := writes.receives h member block placed _ written
      obtain ⟨declared, rfl⟩ := declared_of_final known
      obtain ⟨f', declared', name, -, returns⟩ := writes.declared g (List.mem_of_find?_eq_some found)
      have reached : g.name = f.name := by simpa using List.find?_some found
      have agrees := consistent f declared f' declared' (reached.symm.trans name)
      refine ⟨g, found, passed, ?_⟩
      rw [received, agrees.2, returns]
    | _ => trivial
  · cases t with
    | ret value =>
      cases value with
      | none => trivial
      | some value => exact typed.returns placed last
    | _ => trivial

end Document

theorem Document.lower_ok {d : Document} {scope : Scope} {name : String} {m : Module}
    (lowered : d.lower scope true name = .ok m) :
    ∃ b, ModuleLower.functions scope true d.functions (d.declared name) = .ok () b ∧ b.module = m := by
  unfold Document.lower at lowered
  rw [ModuleLower.document_eq] at lowered
  cases ran : ModuleLower.functions scope true d.functions (d.declared name) with
  | error e b =>
    rw [ran] at lowered
    cases lowered
  | ok _ b =>
    rw [ran] at lowered
    dsimp only at lowered
    cases checked : b.module.validate with
    | error e =>
      rw [checked] at lowered
      cases lowered
    | ok _ =>
      rw [checked] at lowered
      cases lowered
      exact ⟨b, rfl, rfl⟩

theorem Compiler.document_ok {c : Compiler} {d : Document} {source : Source} {m : Module}
    (compiled : c.document d source = .ok m) :
    (d.check c.options).diagnostics.hasErrors = false ∧
      d.lower (d.check c.options).scope c.options.blockScoping (fileStem source.name) = .ok m := by
  unfold Compiler.document at compiled
  cases accepted : (d.check c.options).diagnostics.hasErrors with
  | true =>
    simp only [accepted, if_true] at compiled
    cases compiled
  | false =>
    simp only [accepted, Bool.false_eq_true, if_false] at compiled
    exact ⟨rfl, Ir.mapError_ok_iff.mp compiled⟩

/-- A compiled module is coherent if all declarations of a function agree, however often it is declared. -/
theorem compiled_module_coherent {d : Document} (parsed : Parsed d) (consistent : d.Consistent) {color : Bool}
    {source : Source} {m : Module} (compiled : Compiler.document ⟨.strict, color⟩ d source = .ok m) : m.Coherent := by
  obtain ⟨accepted, lowered⟩ := Compiler.document_ok compiled
  obtain ⟨b, ran, rfl⟩ := Document.lower_ok lowered
  have start := Document.writes_declared consistent parsed.distinctFields (fileStem source.name)
  have written := Document.Writes.functions consistent accepted d.functions (List.Subset.refl _) start ran
  exact written.coherent consistent

/-- A function that is declared, defined and called. -/
theorem compiled_module_coherent_repeated :
    ∃ d m, parse "extern f(a: i64): i64 function f(b: i64): i64 { return b; } function g(): i64 { return f(1); }" = .ok d ∧
      ¬d.DistinctFunctions ∧ d.Consistent ∧ Compiler.document ⟨.strict, false⟩ d ⟨"main.ll", ""⟩ = .ok m ∧ m.Coherent := by
  have checked name : (match parse
        "extern f(a: i64): i64 function f(b: i64): i64 { return b; } function g(): i64 { return f(1); }" with
      | .ok d => !decide d.DistinctFunctions && decide d.Consistent && !(d.check .strict).diagnostics.hasErrors &&
        (d.lower (d.check .strict).scope true name).isOk
      | .error _ => false) = true := by cbv
  have checked := checked (fileStem "main.ll")
  revert checked
  generalize read : parse _ = result
  intro checked
  cases result with
  | error e => cases checked
  | ok d =>
    simp only [Bool.and_eq_true, decide_eq_true_eq, Bool.not_eq_true', decide_eq_false_iff_not] at checked
    obtain ⟨⟨⟨repeated, consistent⟩, accepted⟩, written⟩ := checked
    cases lowered : d.lower (d.check .strict).scope true (fileStem "main.ll") with
    | error e =>
      rw [lowered] at written
      cases written
    | ok m =>
      have compiled : Compiler.document ⟨.strict, false⟩ d ⟨"main.ll", ""⟩ = .ok m := by
        simp only [Compiler.document, accepted, Bool.false_eq_true, ↓reduceIte]
        exact mapError_ok_iff.mpr lowered
      have coherent := compiled_module_coherent (.text read (.refl d)) consistent compiled
      exact ⟨d, m, rfl, repeated, consistent, compiled, coherent⟩

/-- The call is checked against the first declaration of the function, and the module has the second. -/
theorem compiled_module_incoherent :
    ∃ d m, parse "function f(a: i64) { } function g() { f(1); } function f(a: f64) { }" = .ok d ∧
      Compiler.document ⟨.strict, false⟩ d ⟨"main.ll", ""⟩ = .ok m ∧ ¬m.Coherent := by
  have checked name : (match parse "function f(a: i64) { } function g() { f(1); } function f(a: f64) { }" with
      | .ok d => !(d.check .strict).diagnostics.hasErrors &&
        match d.lower (d.check .strict).scope true name with
        | .ok m => !decide m.Coherent
        | .error _ => false
      | .error _ => false) = true := by cbv
  have checked := checked (fileStem "main.ll")
  revert checked
  generalize parse _ = result
  intro checked
  cases result with
  | error e => cases checked
  | ok d =>
    simp only [Bool.and_eq_true, Bool.not_eq_true'] at checked
    obtain ⟨accepted, wrong⟩ := checked
    cases lowered : d.lower (d.check .strict).scope true (fileStem "main.ll") with
    | error e =>
      rw [lowered] at wrong
      cases wrong
    | ok m =>
      rw [lowered] at wrong
      refine ⟨d, m, rfl, ?_, by simpa using wrong⟩
      simp only [Compiler.document, accepted, Bool.false_eq_true, ↓reduceIte]
      exact mapError_ok_iff.mpr lowered

end StructLang
