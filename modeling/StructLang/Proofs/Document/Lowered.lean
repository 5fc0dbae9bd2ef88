import StructLang.Proofs.Checking.Lookups
import StructLang.Proofs.Document.Declarations
import StructLang.Proofs.Lowering.Meeting
import StructLang.Proofs.Parse.Documents

namespace StructLang

open Ir

namespace Document

/-- The checker when it gets to the functions after `before`. -/
def checkedUpTo (d : Document) (o : Strictness) (before : List FunctionDecl) : Checker :=
  before.foldl (fun c f => (c.function f).2) { Checker.start o .empty with scope := Scope.register .empty d }

def context (d : Document) : Context := (Scope.register .empty d).context

def declared (d : Document) (name : String) : ModuleBuilder :=
  ModuleLower.declareAll (ModuleLower.addStructs (.start name) d) d

end Document

def ModuleLower.functions (scope : Scope) (blockScoping : Bool) (fs : List FunctionDecl) : ModuleLower Unit :=
  fs.forM fun f => do
    let written ← function scope blockScoping f
    modify (·.addFunction written)

theorem ModuleLower.document_eq (scope : Scope) (blockScoping : Bool) (d : Document) (name : String) :
    ModuleLower.document scope blockScoping d (.start name) =
      ModuleLower.functions scope blockScoping d.functions (d.declared name) := rfl

theorem Document.accepted_iff_functionsTyped (d : Document) (o : Strictness) :
    (d.check o).diagnostics.hasErrors = false ↔ FunctionsTyped o d.context d.functions :=
  (d.accepted_iff o).trans (Checker.documentTyped_iff (s := .empty))

/-- Each function of an accepted document is well typed where the checker gets to it. -/
theorem Document.functionTyped {d : Document} {o : Strictness} (accepted : (d.check o).diagnostics.hasErrors = false)
    {before after : List FunctionDecl} {f : FunctionDecl} (here : d.functions = before ++ f :: after) :
    FunctionTyped o (d.checkedUpTo o before).scope.context f := by
  let start : Checker := { Checker.start o .empty with scope := Scope.register .empty d }
  have quiet : (d.functions.foldl (fun c f => (c.function f).2) start).diagnostics = start.diagnostics :=
    ((Checker.start o .empty).document_quiet_iff d).mpr ((d.accepted_iff o).mp accepted)
  have reached := Checker.extends_functions before start
  rw [here, List.foldl_append, reached.quiet_iff (Checker.extends_functions _ _), List.foldl_cons,
    (Checker.extends_function _ f).quiet_iff (Checker.extends_functions _ _), Checker.function_quiet_iff,
    reached.options] at quiet
  exact quiet.2.1

theorem Document.scope_check (d : Document) : (d.check .strict).scope = (d.checkedUpTo .strict d.functions).scope := rfl

def Document.DistinctFunctions (d : Document) : Prop := ((Document.signatures d).map (·.name)).Nodup

instance (d : Document) : Decidable d.DistinctFunctions := inferInstanceAs (Decidable (List.Nodup _))

variable {d : Document}

theorem Document.functions_context (distinct : d.DistinctFunctions) (name : String) :
    d.context.functions name = (Document.signatures d).find? (·.name == name) :=
  (Scope.functions_register d name).trans (find?_reverse_of_nodup Signature.name distinct name)

theorem Document.structs_context (d : Document) (name : String) :
    d.context.structs name = (Document.structs d).reverse.find? (·.name == name) :=
  Scope.structs_register d name

theorem find?_of_mem_nodup {α : Type} (key : α → String) {entries : List α} (distinct : (entries.map key).Nodup)
    {a : α} (member : a ∈ entries) : entries.find? (key · == key a) = some a := by
  induction entries with
  | nil => cases member
  | cons e rest ih =>
    simp only [List.map_cons, List.nodup_cons] at distinct
    rw [List.find?_cons]
    rcases List.mem_cons.mp member with rfl | member
    · simp
    · have different : key e ≠ key a := fun same => distinct.1 (List.mem_map.mpr ⟨a, member, same.symm⟩)
      rw [beq_eq_false_iff_ne.mpr different]
      exact ih distinct.2 member

/-- Once a document is registered, its functions are known by their own signatures. -/
theorem Scope.register_known (s : Scope) (distinct : d.DistinctFunctions) {f : FunctionDecl} (member : f ∈ d.functions) :
    (s.register d).functions.get? f.signature.name = some f.signature := by
  have found := NameMap.get?_foldl_insert Signature.name id (Document.signatures d) s.functions f.signature.name
  rw [find?_reverse_of_nodup Signature.name distinct,
    find?_of_mem_nodup Signature.name distinct (Document.signature_mem member)] at found
  rw [register_eq]
  exact found

/-- The context of a body has the function's own signature, so declaring it again changes nothing. -/
theorem Document.function_known (distinct : d.DistinctFunctions) {f : FunctionDecl} (member : f ∈ d.functions) :
    d.context.functions f.signature.name = some f.signature :=
  Scope.register_known .empty distinct member

theorem Context.declare_known {Γ : Context} {f : Signature} (known : Γ.functions f.name = some f) :
    Γ.declare f = Γ := by
  obtain ⟨names, functions, structs, returns⟩ := Γ
  simp only [Context.declare, Context.mk.injEq, true_and, and_true]
  funext other
  split
  · rename_i here
    rw [here]
    exact known.symm
  · rfl

theorem Document.checkedUpTo_tables (distinct : d.DistinctFunctions) {before : List FunctionDecl}
    (subset : before ⊆ d.functions) :
    (d.checkedUpTo .strict before).options = .strict ∧
      (d.checkedUpTo .strict before).scope.functions.get? = d.context.functions ∧
      (d.checkedUpTo .strict before).scope.structs.get? = d.context.structs := by
  have known : ∀ f ∈ before, (Scope.register .empty d).functions.get? f.signature.name = some f.signature :=
    fun f member => Document.function_known distinct (subset member)
  exact Checker.tables_functions before (c := { Checker.start .strict .empty with scope := Scope.register .empty d }) known

/-- Before the first function is lowered, the module has the first declaration of each function. -/
theorem Document.function?_declared (d : Document) (name function : String) :
    (d.declared name).module.function? function = ((Document.signatures d).find? (·.name == function)).map fun f =>
      .declaration f.name f.irParams (.ofSource f.returns) := by
  have none : (ModuleLower.addStructs (.start name) d).module.function? function = none := by
    rw [ModuleLower.addStructs_eq, Module.function?, ModuleBuilder.functions_foldl_addStruct]
    rfl
  rw [declared, ModuleLower.declareAll_eq, ModuleBuilder.function?_foldl_declare, none, Option.none_or]

theorem Document.struct?_declared (fields : d.DistinctFields) (name : String) {struct : String} {s : StructDecl}
    (known : d.context.structs struct = some s) :
    (d.declared name).module.struct? struct = some s.layout ∧ (s.fields.map (·.name)).Nodup := by
  rw [Document.structs_context] at known
  rw [Document.declared, ModuleLower.declareAll_eq, Module.struct?, ModuleBuilder.structs_foldl_declare,
    ModuleLower.addStructs_eq]
  have found := ModuleBuilder.struct?_foldl_addStruct (Document.structs d) (.start name) struct
  rw [known] at found
  exact ⟨found, fields s (List.mem_reverse.mp (List.mem_of_find?_eq_some known))⟩

/-- So far there are declarations only, which have no blocks. -/
theorem Document.blocks_declared (d : Document) (name : String) :
    ∀ f ∈ (d.declared name).module.functions, f.blocks = [] := by
  rw [Document.declared, ModuleLower.declareAll_eq]
  refine ModuleBuilder.blocks_foldl_declare _ ?_
  rw [ModuleLower.addStructs_eq, ModuleBuilder.functions_foldl_addStruct]
  intro f member
  cases member

theorem Signature.types_irParams (f : Signature) : f.irParams.map (·.ty) = f.params.map (Ir.Ty.ofSource ·.ty) := by
  simp [Signature.irParams, Function.comp_def]

theorem Document.declares_declared (distinct : d.DistinctFunctions) (fields : d.DistinctFields) (name : String) :
    Declares d.context (d.declared name).module where
  functions {name' f} known := by
    rw [Document.functions_context distinct] at known
    rw [Document.function?_declared, known]
    exact ⟨_, rfl, f.types_irParams⟩
  structs known := Document.struct?_declared fields name known

structure Lowered (Γ : Context) (m : Module) : Prop where
  declares : Declares Γ m
  typed : ∀ f ∈ m.functions, f.Typed m

theorem Document.lowered_declared (distinct : d.DistinctFunctions) (fields : d.DistinctFields) (name : String) :
    Lowered d.context (d.declared name).module where
  declares := Document.declares_declared distinct fields name
  typed f member := Function.typed_of_empty (Document.blocks_declared d name f member)

/-- A function takes the place of a declaration with the same types. -/
theorem Lowered.addFunction {Γ : Context} {m : ModuleBuilder} {f : Signature} {g : Function} (lowered : Lowered Γ m.module)
    (known : Γ.functions g.name = some f) (types : g.params.map (·.ty) = f.params.map (Ir.Ty.ofSource ·.ty))
    (typed : g.Typed m.module) : Lowered Γ (m.addFunction g).module := by
  have keeps : m.module.Keeps (m.addFunction g).module := by
    intro other h found
    rw [ModuleBuilder.function?_addFunction]
    split
    · rename_i here
      rw [here] at found
      obtain ⟨h', found', types'⟩ := lowered.declares.functions known
      cases found.symm.trans found'
      exact ⟨g, rfl, types.trans types'.symm⟩
    · exact ⟨h, found, rfl⟩
  refine ⟨⟨fun {other s} known' => ?_, lowered.declares.structs⟩, fun h member => ?_⟩
  · obtain ⟨h, found, types'⟩ := lowered.declares.functions known'
    obtain ⟨h', found', same⟩ := keeps _ _ found
    exact ⟨h', found', same.trans types'⟩
  · rcases ModuleBuilder.mem_put member with rfl | member
    · exact typed.mono keeps
    · exact (lowered.typed h member).mono keeps

/-- Interned texts do not matter to functions and structs. -/
theorem Lowered.gain {Γ : Context} {m m' : ModuleBuilder} (lowered : Lowered Γ m.module) (gains : m.Gains m') :
    Lowered Γ m'.module where
  declares := {
    functions := fun known => by
      rw [Module.function?, gains.functions]
      exact lowered.declares.functions known
    structs := fun known => by
      rw [Module.struct?, gains.structs]
      exact lowered.declares.structs known }
  typed g member := (lowered.typed g (gains.functions ▸ member)).mono (Module.Keeps.of_functions gains.functions)

theorem Context.sameTables_enter (Γ : Context) (f : Signature) :
    ({ Γ with returns := f.returns } : Context).SameTables (Γ.enter f) := by
  have bound (params : List Param) (Γ : Context) : Γ.SameTables (params.foldl (fun Γ p => Γ.bind p.name p.ty) Γ) := by
    induction params generalizing Γ with
    | nil => exact ⟨_, rfl⟩
    | cons p rest ih =>
      obtain ⟨names, same⟩ := ih (Γ.bind p.name p.ty)
      exact ⟨names, same⟩
  obtain ⟨names, same⟩ := bound f.params { Γ with names := fun _ => none, returns := f.returns }
  exact ⟨names, same⟩

/-- Well-typed functions have well-typed bodies in the context of the document. -/
theorem FunctionsTyped.body {Γ : Context} {fs : List FunctionDecl} (typed : FunctionsTyped .strict Γ fs)
    (known : ∀ f ∈ fs, Γ.functions f.signature.name = some f.signature) {f : FunctionDecl} (member : f ∈ fs) :
    ∃ Γ', BlockTyped .strict (Γ.enter f.signature) f.body Γ' := by
  induction typed with
  | nil => cases member
  | @cons Γ g rest first _ ih =>
    have same := Context.declare_known (known g (List.mem_cons_self ..))
    rcases List.mem_cons.mp member with rfl | member
    · rw [FunctionTyped, same] at first
      exact first
    · rw [same] at ih
      exact ih (fun f member => known f (List.mem_cons_of_mem _ member)) member

namespace ModuleLower

theorem function_eq (scope : Scope) (blockScoping : Bool) (f : FunctionDecl) (m : ModuleBuilder) :
    function scope blockScoping f m = match Lower.body scope blockScoping f (Lower.startOf m f) with
      | .error e s => .error e s.module
      | .ok _ s => match s.function.build.validate with
        | .error e => .error (.invalid e) s.module
        | .ok _ => .ok s.function.build s.module := rfl

/-- A function that is lowered has been written from its body. -/
theorem function_ok {scope : Scope} {blockScoping : Bool} {f : FunctionDecl} {m m' : ModuleBuilder} {written : Ir.Function}
    (ran : function scope blockScoping f m = .ok written m') :
    ∃ s, Lower.body scope blockScoping f (Lower.startOf m f) = .ok () s ∧ written = s.function.build ∧ m' = s.module := by
  rw [function_eq] at ran
  cases result : Lower.body scope blockScoping f (Lower.startOf m f) with
  | error e s =>
    rw [result] at ran
    cases ran
  | ok _ s =>
    rw [result] at ran
    dsimp only at ran
    cases checked : s.function.build.validate with
    | error e =>
      rw [checked] at ran
      cases ran
    | ok _ =>
      rw [checked] at ran
      cases ran
      exact ⟨s, rfl, rfl, rfl⟩

/-- A function is lowered to well-typed code, or its body fails, or it returns where its type does not allow it. -/
theorem function_run {scope : Scope} {Γ : Context} {m : ModuleBuilder} {f : FunctionDecl} {Γ' : Context} {c : Checker}
    (lowered : Lowered Γ m.module) (known : Γ.functions f.signature.name = some f.signature)
    (tables : Tables scope (Γ.enter f.signature)) (typed : BlockTyped .strict (Γ.enter f.signature) f.body Γ') :
    match function scope true f m with
    | .ok written m' => Lowered Γ (m'.addFunction written).module
    | .error e _ => (∃ fault, e = .invalid fault) ∨
      ∃ s, Lower.params 0 f.signature.params (Lower.entered m f) = .ok () s ∧
        Visit.Fails scope ⟨.block f.body, c, s⟩ e := by
  obtain ⟨s, stored, ready, agrees⟩ := Lower.gives_entered lowered.declares f
  have run := (Lower.written_body scope true m f).and (Lower.gives_body tables typed stored ready agrees (c := c))
  unfold Lower.Wp at run
  rw [function_eq]
  cases result : Lower.body scope true f (Lower.startOf m f) with
  | error e s' =>
    rw [result] at run
    exact .inr ⟨s, stored, run.2.2⟩
  | ok _ s' =>
    rw [result] at run
    obtain ⟨⟨written, gains⟩, agrees'⟩ := run
    dsimp only
    cases s'.function.build.validate with
    | error e => exact .inl ⟨e, rfl⟩
    | ok _ =>
      refine (lowered.gain gains).addFunction (f := f.signature) ?_ ?_ agrees'.code.build
      · exact (congrArg Γ.functions written.name).trans known
      · exact (congrArg (List.map (·.ty)) written.params).trans f.signature.types_irParams

theorem functions_cons (scope : Scope) (blockScoping : Bool) (f : FunctionDecl) (fs : List FunctionDecl)
    (m : ModuleBuilder) : functions scope blockScoping (f :: fs) m = match function scope blockScoping f m with
      | .error e m' => .error e m'
      | .ok written m' => functions scope blockScoping fs (m'.addFunction written) := by
  change EStateM.bind (EStateM.bind (function scope blockScoping f) fun written => modify (·.addFunction written))
    (fun _ => functions scope blockScoping fs) m = _
  simp only [EStateM.bind]
  cases function scope blockScoping f m <;> rfl

/-- The functions of a document are lowered one after the other. -/
theorem functions_run {scope : Scope} {Γ : Context} {c : FunctionDecl → Checker} (fs : List FunctionDecl)
    (known : ∀ f ∈ fs, Γ.functions f.signature.name = some f.signature)
    (tables : ∀ f, Tables scope (Γ.enter f)) (typed : ∀ f ∈ fs, ∃ Γ', BlockTyped .strict (Γ.enter f.signature) f.body Γ')
    {m : ModuleBuilder} (lowered : Lowered Γ m.module) :
    match functions scope true fs m with
    | .ok _ m' => Lowered Γ m'.module
    | .error e _ => (∃ fault, e = .invalid fault) ∨
      ∃ before f after m' s, fs = before ++ f :: after ∧ functions scope true before m = .ok () m' ∧
        Lower.params 0 f.signature.params (Lower.entered m' f) = .ok () s ∧ Visit.Fails scope ⟨.block f.body, c f, s⟩ e := by
  induction fs generalizing m with
  | nil => exact lowered
  | cons f rest ih =>
    obtain ⟨Γ', typed'⟩ := typed f (List.mem_cons_self ..)
    have first := function_run lowered (known f (List.mem_cons_self ..)) (tables f.signature) typed' (c := c f)
    rw [functions_cons]
    cases result : function scope true f m with
    | error e m' =>
      rw [result] at first
      refine first.imp id ?_
      rintro ⟨s, stored, fails⟩
      exact ⟨[], f, rest, m, s, rfl, rfl, stored, fails⟩
    | ok written m' =>
      rw [result] at first
      have others := ih (fun f member => known f (List.mem_cons_of_mem _ member))
        (fun f member => typed f (List.mem_cons_of_mem _ member)) first
      dsimp only
      cases result' : functions scope true rest (m'.addFunction written) with
      | ok _ m'' =>
        rw [result'] at others
        exact others
      | error e m'' =>
        rw [result'] at others
        refine others.imp id ?_
        rintro ⟨before, g, after, m₁, s, rfl, done, stored, fails⟩
        refine ⟨f :: before, g, after, m₁, s, rfl, ?_, stored, fails⟩
        rw [functions_cons, result]
        exact done

end ModuleLower

end StructLang
