import Mathlib
import StructLang.Proofs.Document.Calls
import StructLang.Proofs.Document.Variables
import StructLang.Proofs.Scoping.Lowering

namespace StructLang

variable {scope scope' : Scope}

namespace ModuleLower

theorem function_wide (same : scope.SameDeclarations scope') {f : FunctionDecl}
    (distinct : (f.declared.map (·.1)).Nodup) {m m' : Ir.ModuleBuilder} {written : Ir.Function}
    (lowered : function scope true f m = .ok written m') : function scope' false f m = .ok written m' := by
  let start : FunctionState :=
    ⟨m, .start f.signature.name f.signature.irParams (.ofSource f.signature.returns), .empty⟩
  have empty : Lower.Tracks (fun _ => none) f.declared start.locals start.locals := .nothing distinct
  have mirrored := Lower.mirrors_body same f start start.locals empty
  simp only [function] at lowered ⊢
  cases ran : Lower.body scope true f start with
  | error e s =>
    rw [ran] at lowered
    cases lowered
  | ok _ s =>
    obtain ⟨wide, ran', -⟩ := mirrored.ok ran
    rw [ran] at lowered
    rw [ran']
    exact lowered

theorem functions_wide (same : scope.SameDeclarations scope') {fs : List FunctionDecl}
    (distinct : ∀ f ∈ fs, (f.declared.map (·.1)).Nodup) {m m' : Ir.ModuleBuilder}
    (lowered : functions scope true fs m = .ok () m') : functions scope' false fs m = .ok () m' := by
  induction fs generalizing m with
  | nil => exact lowered
  | cons f rest ih =>
    rw [List.forall_mem_cons] at distinct
    rw [functions_cons] at lowered ⊢
    cases ran : function scope true f m with
    | error e m₁ =>
      rw [ran] at lowered
      cases lowered
    | ok written m₁ =>
      rw [ran] at lowered
      rw [function_wide same distinct.1 ran]
      exact ih distinct.2 lowered

end ModuleLower

namespace Document

theorem sameDeclarations (d : Document) (o o' : Strictness) : (d.check o).scope.SameDeclarations (d.check o').scope := by
  have functions (o : Strictness) : (d.check o).scope.functions =
      d.functions.foldl (fun table f => table.insert f.signature.name f.signature) (Scope.register .empty d).functions :=
    Checker.functions_after d.functions _
  have structs (o : Strictness) : (d.check o).scope.structs = (Scope.register .empty d).structs :=
    Checker.structs_after d.functions _
  exact ⟨(functions o').trans (functions o).symm, (structs o').trans (structs o).symm⟩

theorem lower_wide (same : scope.SameDeclarations scope') {d : Document} (distinct : d.DistinctNames) {name : String}
    {m : Ir.Module} (lowered : d.lower scope true name = .ok m) : d.lower scope' false name = .ok m := by
  unfold lower at lowered ⊢
  rw [ModuleLower.document_eq] at lowered ⊢
  cases ran : ModuleLower.functions scope true d.functions (d.declared name) with
  | error e m' =>
    rw [ran] at lowered
    cases lowered
  | ok _ m' =>
    rw [ran] at lowered
    rw [ModuleLower.functions_wide same distinct ran]
    exact lowered

end Document

/-- If no function declares a name twice, then what is accepted and lowered with scopes of blocks is accepted with
function-wide names too, and is lowered to the same module. -/
theorem scoping_modes_agree {d : Document} (distinct : d.DistinctNames) (o : Strictness) {name : String} {m : Ir.Module}
    (accepted : (d.check { o with blockScoping := true }).diagnostics.hasErrors = false)
    (lowered : d.lower (d.check { o with blockScoping := true }).scope true name = .ok m) :
    (d.check { o with blockScoping := false }).diagnostics.hasErrors = false ∧
      d.lower (d.check { o with blockScoping := false }).scope false name = .ok m := by
  constructor
  · rw [Document.accepted_iff_functionsTyped] at accepted ⊢
    exact FunctionsTyped.widen (o := { o with blockScoping := true }) rfl distinct accepted
  · exact Document.lower_wide (d.sameDeclarations _ _) distinct lowered

/-- The loop `for (let i: i64 = 0; i < a; i = i + 1) { if (i) { let x: i64 = i; } else { let y: i64; } }` in a
function. -/
def loopWithBranches : Document :=
  let i : Expr := .variable default "i"
  let branches : IfChain := .branch i ⟨[.letIn default "x" (.int 64) (some i)], default⟩
    (.otherwise ⟨[.letIn default "y" (.int 64) none], default⟩)
  let loop : Stmt := .for default (.letIn default "i" (.int 64) (some (.int default 0)))
    (.binary default .lt i (.variable default "a")) (.assign default i (.binary default .add i (.int default 1)))
    ⟨[.cond default branches], default⟩
  [.function ⟨⟨"f", default, .void, [⟨"a", .int 64, default⟩], default⟩, ⟨[loop], default⟩, default⟩]

/-- Names at the start of a loop and in the branches of a conditional within it. -/
theorem scoping_modes_agree_nested :
    ∃ m, loopWithBranches.DistinctNames ∧ (loopWithBranches.check .strict).diagnostics.hasErrors = false ∧
      loopWithBranches.lower (loopWithBranches.check .strict).scope true "main" = .ok m ∧
      (loopWithBranches.check Strictness.strict.wide).diagnostics.hasErrors = false ∧
      loopWithBranches.lower (loopWithBranches.check Strictness.strict.wide).scope false "main" = .ok m := by
  have distinct : loopWithBranches.DistinctNames := by decide
  have accepted : (loopWithBranches.check .strict).diagnostics.hasErrors = false := by decide
  have written : (loopWithBranches.lower (loopWithBranches.check .strict).scope true "main").isOk = true := by
    decide +kernel
  cases lowered : loopWithBranches.lower (loopWithBranches.check .strict).scope true "main" with
  | error e =>
    rw [lowered] at written
    cases written
  | ok m => exact ⟨m, distinct, accepted, rfl, scoping_modes_agree distinct .strict accepted lowered⟩

end StructLang
