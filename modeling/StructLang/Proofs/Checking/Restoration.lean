import StructLang.Proofs.Checking.Lookups
import StructLang.Proofs.Lowering.FunctionWide

namespace StructLang

def Stmt.hasBlocks : Stmt → Bool
  | .cond .. | .while .. | .for .. => true
  | .letIn .. | .ret .. | .expr _ => false

def Stmt.binds : Stmt → List (String × Ty)
  | .letIn _ name ty _ => [(name, ty)]
  | .ret .. | .cond .. | .while .. | .for .. | .expr _ => []

namespace Checker

structure Restored (c after : Checker) : Prop where
  options : after.options = c.options
  names : after.scope.names.get? = c.scope.names.get?
  frames : after.scope.frames = c.scope.frames
  functions : after.scope.functions = c.scope.functions
  structs : after.scope.structs = c.scope.structs
  returns : after.scope.returns = c.scope.returns
  reports : ∃ new, after.diagnostics = c.diagnostics.append new

section Order

variable {c middle after : Checker}

theorem Restored.refl (c : Checker) : Restored c c :=
  ⟨rfl, rfl, rfl, rfl, rfl, rfl, [], by simp [Diagnostics.append]⟩

theorem Restored.trans (first : Restored c middle) (second : Restored middle after) : Restored c after := by
  obtain ⟨new, added⟩ := first.reports
  obtain ⟨more, added'⟩ := second.reports
  refine ⟨second.options.trans first.options, second.names.trans first.names, second.frames.trans first.frames,
    second.functions.trans first.functions, second.structs.trans first.structs, second.returns.trans first.returns,
    new ++ more, ?_⟩
  simp [added', added, Diagnostics.append]

theorem Restored.lookup (restored : Restored c after) : after.scope.lookup = c.scope.lookup := restored.names

end Order

/-- An expression leaves a checker as it was but for the diagnostics, and it neither sees those nor the open blocks: the
result and the reports are the same for every checker that knows the same. -/
theorem expr_congr {c c' : Checker} (options : c'.options = c.options) (context : c'.scope.context = c.scope.context)
    (e : Expr) : c'.expr e =
      ((c.expr e).1, { c' with diagnostics := c'.diagnostics.append (e.check c.options c.scope).reports }) := by
  have checked : e.check c'.options c'.scope = e.check c.options c.scope := by
    rw [options, e.check_congr c.options context]
  simp only [expr, run, checked]

theorem restored_run (c : Checker) {α : Type} (check : Check α) : Restored c (c.run check).2 :=
  ⟨rfl, rfl, rfl, rfl, rfl, rfl, check.reports, rfl⟩

/-- Closing a block undoes what was bound since it was opened, wherever the walk through it has been. -/
theorem Advance.restored {c after : Checker} (on : c.options.blockScoping = true) (inner : Advance c.openBlock after) :
    Restored c after.closeBlock := by
  have opened : c.openBlock = { c with scope := c.scope.openBlock } := by simp [openBlock, on]
  have options : after.options = c.options := inner.options.trans c.options_openBlock
  have same : after.closeBlock.scope.Same c.scope := by
    have reached := inner.scope (by simp [opened, on])
    simp only [opened] at reached
    simpa [Checker.closeBlock, options, on] using reached.closeBlock
  obtain ⟨walked, -⟩ := inner.closeBlock
  obtain ⟨new, added, -⟩ := walked.reports
  exact ⟨walked.options, congrArg Context.names same.context, same.frames, walked.functions, walked.structs,
    congrArg Context.returns same.context, new, added⟩

section Blocks

variable {c : Checker} (on : c.options.blockScoping = true)
include on

theorem restored_block (b : Block) : Restored c (c.block b).2 := by
  obtain ⟨body, span⟩ := b
  rw [block]
  exact (advance_stmts c.openBlock (some .void) body).restored on

theorem restored_for (span : Span) (init : Stmt) (test step : Expr) (body : Block) :
    Restored c (c.stmt (.for span init test step body)).2 := by
  rw [stmt]
  have started := advance_stmt c.openBlock init
  have tested := advance_condition (c.openBlock.stmt init).2 test
  have stepped := advance_expr ((c.openBlock.stmt init).2.condition test) step
  have walked := advance_block (((c.openBlock.stmt init).2.condition test).expr step).2 body
  exact (started.trans (tested.trans (stepped.trans walked))).restored on

theorem restored_while (span : Span) (test : Expr) (body : Block) : Restored c (c.stmt (.while span test body)).2 := by
  rw [stmt]
  exact (c.restored_run _).trans (restored_block (c := c.condition test) on body)

omit on in
theorem restored_ifChain : (chain : IfChain) → {c : Checker} → c.options.blockScoping = true →
    Restored c (c.ifChain chain)
  | .branch test body rest, c, on => by
    have tested : Restored c (c.condition test) := c.restored_run _
    have walked := restored_block (c := c.condition test) on body
    rw [ifChain]
    exact (tested.trans walked).trans (restored_ifChain rest (walked.options ▸ on))
  | .otherwise body, c, on => by
    rw [ifChain]
    exact restored_block on body
  | .done, c, _ => by
    rw [ifChain]
    exact .refl c

theorem restored_stmt (st : Stmt) (blocks : st.hasBlocks = true) : Restored c (c.stmt st).2 := by
  cases st with
  | cond span chain =>
    rw [stmt]
    exact restored_ifChain chain on
  | «while» span test body => exact restored_while on span test body
  | «for» span init test step body => exact restored_for on span init test step body
  | letIn | ret | expr => cases blocks

/-- After a statement the names that it declares itself are known besides those before it. -/
theorem lookup_stmt_scoped (st : Stmt) : (c.stmt st).2.scope.lookup = known st.binds c.scope.lookup := by
  cases st with
  | letIn span name ty init =>
    cases init with
    | none => exact c.lookup_bind name ty
    | some e => exact (c.valueOf ty e).2.lookup_bind name ty
  | ret span value => cases value <;> rfl
  | expr e => rfl
  | cond span chain => exact (restored_stmt on (.cond span chain) rfl).lookup
  | «while» span test body => exact (restored_while on span test body).lookup
  | «for» span init test step body => exact (restored_for on span init test step body).lookup

theorem lookup_stmts_scoped (last : Option Ty) (body : List Stmt) :
    (c.stmts last body).2.scope.lookup = known (body.flatMap Stmt.binds) c.scope.lookup := by
  induction body generalizing c last with
  | nil => rfl
  | cons st rest ih =>
    have walked := c.advance_stmt st
    rw [stmts, ih (walked.options ▸ on), lookup_stmt_scoped on st, List.flatMap_cons, known_append]

end Blocks

end Checker

/-- Whatever is wrong in them and however they are nested, expressions change nothing but the diagnostics, to which they
add the same reports in every checker that knows the same, whichever blocks are open. With block scoping, blocks, loops
and conditionals change nothing else either: the bindings, the open blocks, the tables and the return type are as before.
Between the two ends of a block, its own declarations are known in addition. -/
theorem checker_restores_scopes (c : Checker) :
    (∀ e (c' : Checker), c'.options = c.options → c'.scope.context = c.scope.context → c'.expr e =
      ((c.expr e).1, { c' with diagnostics := c'.diagnostics.append (e.check c.options c.scope).reports })) ∧
    (c.options.blockScoping = true →
      (∀ b, c.Restored (c.block b).2) ∧
      (∀ st : Stmt, st.hasBlocks = true → c.Restored (c.stmt st).2) ∧
      ∀ last body, (c.stmts last body).2.scope.lookup = known (body.flatMap Stmt.binds) c.scope.lookup) := by
  refine ⟨fun e c' options context => Checker.expr_congr options context e, fun on => ?_⟩
  exact ⟨Checker.restored_block on, Checker.restored_stmt on, Checker.lookup_stmts_scoped on⟩

/-- Inside of an open block that has bound `x` already, a block binds it twice, and a loop in it once more. The value of
the first declaration and the test of the loop are not accepted. An unknown name is reported in the block as it is where
no block is open. -/
theorem checker_restores_scopes_faulty :
    ∃ (c c' : Checker) (b : Block), c.options.blockScoping = true ∧ c.scope.frames = [[("x", some (.int 64))]] ∧
      (c.block b).2.diagnostics.size = 2 ∧ c.Restored (c.block b).2 ∧
      (c.block b).2.scope.lookup "x" = some (.float 64) ∧
      (c'.expr (.variable default "y")).2 = { c' with diagnostics := (c.expr (.variable default "y")).2.diagnostics } ∧
      c'.scope.frames = [] ∧ (c'.expr (.variable default "y")).2.diagnostics.size = 1 := by
  let s : Scope := Scope.bind (Scope.openBlock (Scope.bind .empty "x" (.int 64))) "x" (.float 64)
  let loop : Stmt := .for default (.letIn default "x" (.int 16) none) (.string default "x") (.variable default "x")
    ⟨[.letIn default "x" .void none], default⟩
  let b : Block := ⟨[.letIn default "x" (.int 8) (some (.variable default "y")), loop,
    .letIn default "x" (.ptr (.int 8)) none], default⟩
  let c : Checker := ⟨.strict, s, .empty⟩
  let c' : Checker := ⟨.strict, { s with frames := [] }, .empty⟩
  obtain ⟨expressions, restores⟩ := checker_restores_scopes c
  have restored : c.Restored (c.block b).2 := (restores rfl).1 b
  have reported := congrArg Prod.snd (expressions (.variable default "y") c' rfl rfl)
  exact ⟨c, c', b, rfl, by decide, by decide, restored, by rw [restored.lookup]; decide, reported, rfl, by decide⟩

end StructLang
