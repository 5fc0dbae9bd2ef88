import StructLang.Proofs.Typing.Walk

namespace StructLang

open Check

namespace Checker

section Decision

variable (c : Checker)

theorem expr_quiet_iff (e : Expr) :
    (c.expr e).2.diagnostics = c.diagnostics ↔ ∃ ty, HasType c.options c.scope.context e ty := by
  rw [expr, run_quiet_iff, check_reports_nil_iff]

theorem condition_quiet_iff (e : Expr) :
    (c.condition e).diagnostics = c.diagnostics ↔
      ∃ width, HasType c.options c.scope.context e (.int width) := by
  rw [condition, run_quiet_iff, (c.explained_condition e).reports_nil_iff]
  simp only [bind_eq_clean_iff, check_clean_iff]
  constructor
  · rintro ⟨u, ty, typed, clean⟩
    cases ty <;> simp_all [Ty.isInt, report]
    exact ⟨_, typed⟩
  · rintro ⟨width, typed⟩
    exact ⟨(), _, typed, rfl⟩

theorem valueOf_quiet_iff (ty : Ty) (e : Expr) :
    (c.valueOf ty e).2.diagnostics = c.diagnostics ↔ HasType c.options c.scope.context e ty := by
  rw [valueOf, run_quiet_iff, (c.explained_valueOf ty e).reports_nil_iff]
  simp only [bind_eq_clean_iff, check_clean_iff, same_eq_clean_iff]
  constructor
  · rintro ⟨_, _, typed, same⟩
    exact same ▸ typed
  · intro typed
    exact ⟨(), ty, typed, rfl⟩

mutual

/-- A statement is well typed exactly if the checker walks over it without a report, and the context
it leaves is the one of the rules. -/
theorem stmt_quiet_iff (c : Checker) : (s : Stmt) → (Γ : Context) →
    ((c.stmt s).2.diagnostics = c.diagnostics ∧ (c.stmt s).2.scope.context = Γ ↔
      StmtTyped c.options c.scope.context s Γ)
  | .letIn _ name ty none, Γ => by
    simp only [stmt, bind, Scope.context_bind, true_and]
    exact ⟨fun same => same ▸ .declare, fun typed => by cases typed; rfl⟩
  | .letIn _ name ty (some init), Γ => by
    have quiet := c.valueOf_quiet_iff ty init
    simp only [stmt, bind, Scope.context_bind, quiet]
    exact ⟨fun ⟨typed, same⟩ => same ▸ .initialise typed, fun typed => by cases typed; exact ⟨‹_›, rfl⟩⟩
  | .ret _ none, Γ => by
    simp only [stmt, true_and]
    exact ⟨fun same => same ▸ .ret, fun typed => by cases typed; rfl⟩
  | .ret _ (some value), Γ => by
    have quiet := c.valueOf_quiet_iff c.scope.returns value
    simp only [stmt, quiet]
    exact ⟨fun ⟨typed, same⟩ => same ▸ .retValue typed, fun typed => by cases typed; exact ⟨‹_›, rfl⟩⟩
  | .cond _ chain, Γ => by
    simp only [stmt, ifChain_quiet_iff c chain]
    exact ⟨.cond, fun typed => by cases typed; assumption⟩
  | .while _ test body, Γ => by
    simp only [stmt, (c.advance_condition test).quiet_iff (advance_block _ body).toExtends, condition_quiet_iff,
      and_assoc, block_quiet_iff (c.condition test) body]
    constructor
    · rintro ⟨⟨width, tested⟩, typed⟩
      exact .while tested typed
    · intro typed
      cases typed with
      | «while» tested typed => exact ⟨⟨_, tested⟩, typed⟩
  | .for _ init test step body, Γ => by
    have started := advance_stmt c.openBlock init
    have tested := advance_condition (c.openBlock.stmt init).2 test
    have stepped := advance_expr ((c.openBlock.stmt init).2.condition test) step
    have walked := advance_block (((c.openBlock.stmt init).2.condition test).expr step).2 body
    have left := (started.trans (tested.trans (stepped.trans walked))).closeBlock.2
    have first := stmt_quiet_iff c.openBlock init
    have inner := block_quiet_iff (((c.openBlock.stmt init).2.condition test).expr step).2 body
    rw [options_openBlock, context_openBlock, diagnostics_openBlock] at first
    rw [stepped.options, tested.options, started.options, options_openBlock] at inner
    simp only [stmt, diagnostics_closeBlock, left]
    rw [← diagnostics_openBlock c, started.quiet_iff (tested.trans (stepped.trans walked)).toExtends,
      tested.quiet_iff (stepped.trans walked).toExtends, stepped.quiet_iff walked.toExtends, condition_quiet_iff,
      expr_quiet_iff, tested.options, started.options, options_openBlock, diagnostics_openBlock]
    constructor
    · rintro ⟨⟨quiet, ⟨width, typed⟩, ⟨ty, typed'⟩, quiet'⟩, rfl⟩
      exact .for ((first _).mp ⟨quiet, rfl⟩) typed typed' ((inner _).mp ⟨quiet', rfl⟩)
    · intro typed
      cases typed with
      | «for» start typed typed' body =>
        obtain ⟨quiet, rfl⟩ := (first _).mpr start
        obtain ⟨quiet', rfl⟩ := (inner _).mpr body
        exact ⟨⟨quiet, ⟨_, typed⟩, ⟨_, typed'⟩, quiet'⟩, rfl⟩
  | .expr e, Γ => by
    simp only [stmt, expr_quiet_iff]
    constructor
    · rintro ⟨⟨ty, typed⟩, rfl⟩
      exact .expr typed
    · intro typed
      cases typed with
      | expr typed => exact ⟨⟨_, typed⟩, rfl⟩
termination_by structural s => s

theorem ifChain_quiet_iff (c : Checker) : (chain : IfChain) → (Γ : Context) →
    ((c.ifChain chain).diagnostics = c.diagnostics ∧ (c.ifChain chain).scope.context = Γ ↔
      ChainTyped c.options c.scope.context chain Γ)
  | .branch test body rest, Γ => by
    have tested := c.advance_condition test
    have walked := advance_block (c.condition test) body
    have first := block_quiet_iff (c.condition test) body
    have others := ifChain_quiet_iff ((c.condition test).block body).2 rest Γ
    rw [walked.options, tested.options] at others
    simp only [ifChain, tested.quiet_iff (walked.trans (advance_ifChain _ rest)).toExtends,
      walked.quiet_iff (advance_ifChain _ rest).toExtends, condition_quiet_iff]
    constructor
    · rintro ⟨⟨⟨width, typed⟩, quiet, quiet'⟩, same⟩
      exact .branch typed ((first _).mp ⟨quiet, rfl⟩) (others.mp ⟨quiet', same⟩)
    · intro typed
      cases typed with
      | branch typed body rest =>
        obtain ⟨quiet, rfl⟩ := (first _).mpr body
        obtain ⟨quiet', same⟩ := others.mpr rest
        exact ⟨⟨⟨_, typed⟩, quiet, quiet'⟩, same⟩
  | .otherwise body, Γ => by
    simp only [ifChain, block_quiet_iff c body]
    exact ⟨.otherwise, fun typed => by cases typed; assumption⟩
  | .done, Γ => by
    simp only [ifChain, true_and]
    exact ⟨fun same => same ▸ .done, fun typed => by cases typed; rfl⟩
termination_by structural chain => chain

theorem block_quiet_iff (c : Checker) : (b : Block) → (Γ : Context) →
    ((c.block b).2.diagnostics = c.diagnostics ∧ (c.block b).2.scope.context = Γ ↔
      BlockTyped c.options c.scope.context b Γ)
  | ⟨body, span⟩, Γ => by
    have inner := stmts_quiet_iff c.openBlock (some .void) body
    have left := (advance_stmts c.openBlock (some .void) body).closeBlock.2
    rw [options_openBlock, context_openBlock, diagnostics_openBlock] at inner
    simp only [block, diagnostics_closeBlock, left]
    constructor
    · rintro ⟨quiet, rfl⟩
      exact .block ((inner _).mp ⟨quiet, rfl⟩)
    · intro typed
      cases typed with
      | block typed =>
        obtain ⟨quiet, rfl⟩ := (inner _).mpr typed
        exact ⟨quiet, rfl⟩
termination_by structural b => b

theorem stmts_quiet_iff (c : Checker) (last : Option Ty) : (body : List Stmt) → (Γ : Context) →
    ((c.stmts last body).2.diagnostics = c.diagnostics ∧ (c.stmts last body).2.scope.context = Γ ↔
      StmtsTyped c.options c.scope.context body Γ)
  | [], Γ => by
    simp only [stmts, true_and]
    exact ⟨fun same => same ▸ .nil, fun typed => by cases typed; rfl⟩
  | s :: rest, Γ => by
    have walked := advance_stmt c s
    have first := stmt_quiet_iff c s
    have others := stmts_quiet_iff (c.stmt s).2 (c.stmt s).1 rest Γ
    rw [walked.options] at others
    simp only [stmts, walked.quiet_iff (advance_stmts _ _ rest).toExtends]
    constructor
    · rintro ⟨⟨quiet, quiet'⟩, same⟩
      exact .cons ((first _).mp ⟨quiet, rfl⟩) (others.mp ⟨quiet', same⟩)
    · intro typed
      cases typed with
      | cons typed typed' =>
        obtain ⟨quiet, rfl⟩ := (first _).mpr typed
        obtain ⟨quiet', same⟩ := others.mpr typed'
        exact ⟨⟨quiet, quiet'⟩, same⟩
termination_by structural body => body

end

def entered (f : Signature) : Checker :=
  { c with scope := (c.scope.registerFunction f).enterFunction f }

theorem advance_entered (f : FunctionDecl) : Advance (c.entered f.signature) (c.function f).2 :=
  advance_block _ f.body

theorem extends_function (f : FunctionDecl) : Extends c (c.function f).2 :=
  ⟨(c.advance_entered f).options, (c.advance_entered f).reports⟩

theorem context_entered (f : Signature) :
    (c.entered f).scope.context = (c.scope.context.declare f).enter f := by
  simp only [entered, Scope.context_enterFunction, Scope.context_registerFunction]

theorem function_quiet_iff (f : FunctionDecl) :
    (c.function f).2.diagnostics = c.diagnostics ↔ FunctionTyped c.options c.scope.context f := by
  have body := block_quiet_iff (c.entered f.signature) f.body
  rw [context_entered] at body
  exact ⟨fun quiet => ⟨_, (body _).mp ⟨quiet, rfl⟩⟩, fun ⟨_, typed⟩ => ((body _).mpr typed).1⟩

end Decision

/-- Whether functions are well typed depends on the declared functions and structs alone. -/
theorem functionsTyped_congr {o : Strictness} {Γ Γ' : Context} (functions : Γ.functions = Γ'.functions)
    (structs : Γ.structs = Γ'.structs) (fs : List FunctionDecl) :
    FunctionsTyped o Γ fs ↔ FunctionsTyped o Γ' fs := by
  have forth {Γ Γ' : Context} (functions : Γ.functions = Γ'.functions) (structs : Γ.structs = Γ'.structs)
      (typed : FunctionsTyped o Γ fs) : FunctionsTyped o Γ' fs := by
    induction typed generalizing Γ' with
    | nil => exact .nil
    | @cons Γ f _ first rest ih =>
      have declared : (Γ.declare f.signature).functions = (Γ'.declare f.signature).functions := by
        simp only [Context.declare, functions]
      refine .cons ?_ (ih declared structs)
      unfold FunctionTyped at first ⊢
      rwa [Context.enter_congr declared structs] at first
  exact ⟨forth functions structs, forth functions.symm structs.symm⟩

theorem extends_functions (fs : List FunctionDecl) (c : Checker) :
    Extends c (fs.foldl (fun c f => (c.function f).2) c) := by
  induction fs generalizing c with
  | nil => exact .refl c
  | cons f fs ih => exact (c.extends_function f).trans (ih _)

theorem functions_quiet_iff (fs : List FunctionDecl) (c : Checker) :
    (fs.foldl (fun c f => (c.function f).2) c).diagnostics = c.diagnostics ↔
      FunctionsTyped c.options c.scope.context fs := by
  induction fs generalizing c with
  | nil => exact ⟨fun _ => .nil, fun _ => rfl⟩
  | cons f fs ih =>
    have functions : (c.function f).2.scope.context.functions =
        (c.scope.context.declare f.signature).functions :=
      (congrArg NameMap.get? (c.advance_entered f).functions).trans
        (congrArg Context.functions (c.scope.context_registerFunction f.signature))
    have structs : (c.function f).2.scope.context.structs = c.scope.context.structs :=
      congrArg NameMap.get? (c.advance_entered f).structs
    rw [List.foldl_cons, (c.extends_function f).quiet_iff (extends_functions fs _), function_quiet_iff,
      ih, (c.extends_function f).options, functionsTyped_congr functions structs]
    constructor
    · rintro ⟨first, rest⟩
      exact .cons first rest
    · intro typed
      cases typed with
      | cons first rest => exact ⟨first, rest⟩

theorem bodiesTyped_iff {o : Strictness} {Γ : Context} {d : Document} :
    BodiesTyped o Γ d ↔ FunctionsTyped o Γ d.functions := by
  constructor
  · intro typed
    induction typed with
    | nil => exact .nil
    | function first _ ih => exact .cons first ih
    | external _ ih | struct _ ih | importOf _ ih | imported _ ih => exact ih
  · intro typed
    induction d generalizing Γ with
    | nil => exact .nil
    | cons decl rest ih =>
      cases decl with
      | function f =>
        cases typed with
        | cons first others => exact .function first (ih others)
      | external => exact .external (ih typed)
      | struct => exact .struct (ih typed)
      | importOf => exact .importOf (ih typed)
      | imported => exact .imported (ih typed)

/-- What the checker registers is what the document declares, and the functions it walks over are those with a
body of the document's own. -/
theorem documentTyped_iff {o : Strictness} {s : Scope} {d : Document} :
    DocumentTyped o s.context d ↔ FunctionsTyped o (s.register d).context d.functions := by
  constructor
  · rintro ⟨Γ, declares, typed⟩
    obtain ⟨functions, structs⟩ := declares.unique (s.context_declares d)
    exact (functionsTyped_congr functions structs d.functions).mp (bodiesTyped_iff.mp typed)
  · intro typed
    exact ⟨_, s.context_declares d, bodiesTyped_iff.mpr typed⟩

theorem document_quiet_iff (c : Checker) (d : Document) :
    (c.document d).diagnostics = c.diagnostics ↔ DocumentTyped c.options c.scope.context d :=
  (functions_quiet_iff d.functions { c with scope := c.scope.register d }).trans documentTyped_iff.symm

end Checker

/-- A document is accepted exactly if it is well typed. -/
theorem Document.accepted_iff (d : Document) (o : Strictness) :
    (d.check o).diagnostics.hasErrors = false ↔ DocumentTyped o .empty d := by
  refine Iff.trans ?_ ((Checker.start o .empty).document_quiet_iff d)
  obtain ⟨new, added, faulty⟩ :=
    (Checker.extends_functions d.functions { Checker.start o .empty with scope := .register .empty d }).reports
  have reported : (d.check o).diagnostics = ⟨new⟩ := added
  change (d.check o).diagnostics.hasErrors = false ↔ (d.check o).diagnostics = ⟨[]⟩
  rw [reported]
  rcases faulty with rfl | ⟨error, member, severe⟩
  · simp [Diagnostics.hasErrors]
  · have some : new ≠ [] := List.ne_nil_of_mem member
    simp only [Diagnostics.hasErrors, Diagnostics.mk.injEq, some, iff_false, Bool.not_eq_false]
    exact List.any_eq_true.mpr ⟨error, member, severe⟩

/-- The checker reports nothing exactly where the typing rules apply, for expressions, statements,
blocks, functions and documents, in every state that it can be in. Where they apply it finds the type
of the expression, and leaves the context, that the rules give. -/
theorem checker_decides_typing (c : Checker) :
    (∀ e, ((c.expr e).2.diagnostics = c.diagnostics ↔ ∃ ty, HasType c.options c.scope.context e ty) ∧
      ∀ ty, HasType c.options c.scope.context e ty → (c.expr e).1 = some ty) ∧
    (∀ s, ((c.stmt s).2.diagnostics = c.diagnostics ↔
        ∃ Γ, StmtTyped c.options c.scope.context s Γ) ∧
      ∀ Γ, StmtTyped c.options c.scope.context s Γ → (c.stmt s).2.scope.context = Γ) ∧
    (∀ b, ((c.block b).2.diagnostics = c.diagnostics ↔
        ∃ Γ, BlockTyped c.options c.scope.context b Γ) ∧
      ∀ Γ, BlockTyped c.options c.scope.context b Γ → (c.block b).2.scope.context = Γ) ∧
    (∀ f, (c.function f).2.diagnostics = c.diagnostics ↔ FunctionTyped c.options c.scope.context f) ∧
    (∀ d, (c.document d).diagnostics = c.diagnostics ↔ DocumentTyped c.options c.scope.context d) ∧
    ∀ d o, (Document.check d o).diagnostics.hasErrors = false ↔ DocumentTyped o .empty d := by
  refine ⟨fun e => ⟨c.expr_quiet_iff e, fun ty typed => ?_⟩, fun s => ⟨?_, fun Γ typed => ?_⟩,
    fun b => ⟨?_, fun Γ typed => ?_⟩, c.function_quiet_iff, c.document_quiet_iff, Document.accepted_iff⟩
  · exact congrArg Check.result ((check_clean_iff c.options c.scope e ty).mpr typed)
  · exact ⟨fun quiet => ⟨_, (c.stmt_quiet_iff s _).mp ⟨quiet, rfl⟩⟩,
      fun ⟨Γ, typed⟩ => ((c.stmt_quiet_iff s Γ).mpr typed).1⟩
  · exact ((c.stmt_quiet_iff s Γ).mpr typed).2
  · exact ⟨fun quiet => ⟨_, (c.block_quiet_iff b _).mp ⟨quiet, rfl⟩⟩,
      fun ⟨Γ, typed⟩ => ((c.block_quiet_iff b Γ).mpr typed).1⟩
  · exact ((c.block_quiet_iff b Γ).mpr typed).2

end StructLang
