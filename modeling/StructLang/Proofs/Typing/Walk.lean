import StructLang.Proofs.Typing.Expressions

namespace StructLang

open Check

theorem Diagnostics.append_eq_self_iff (ds : Diagnostics) (new : List Diagnostic) :
    ds.append new = ds ↔ new = [] := by
  obtain ⟨messages⟩ := ds
  simp [Diagnostics.append]

namespace Checker

structure Extends (c after : Checker) : Prop where
  options : after.options = c.options
  reports : ∃ new, after.diagnostics = c.diagnostics.append new ∧ Faulty new

structure Advance (c after : Checker) : Prop extends Extends c after where
  scope : c.options.blockScoping = true → c.scope.SameBlock after.scope
  functions : after.scope.functions = c.scope.functions
  structs : after.scope.structs = c.scope.structs

section Order

variable {c middle after : Checker}

theorem Extends.refl (c : Checker) : Extends c c := ⟨rfl, [], by simp [Diagnostics.append], .nil⟩

theorem Extends.trans (first : Extends c middle) (second : Extends middle after) : Extends c after := by
  obtain ⟨new, added, faulty⟩ := first.reports
  obtain ⟨more, added', faulty'⟩ := second.reports
  refine ⟨second.options.trans first.options, new ++ more, ?_, faulty.append faulty'⟩
  simp [added', added, Diagnostics.append]

/-- Nothing is reported on the whole way exactly if nothing is on either part of it. -/
theorem Extends.quiet_iff (first : Extends c middle) (second : Extends middle after) :
    after.diagnostics = c.diagnostics ↔
      middle.diagnostics = c.diagnostics ∧ after.diagnostics = middle.diagnostics := by
  obtain ⟨new, added, -⟩ := first.reports
  obtain ⟨more, added', -⟩ := second.reports
  have whole : (c.diagnostics.append new).append more = c.diagnostics.append (new ++ more) := by
    simp [Diagnostics.append]
  rw [added', Diagnostics.append_eq_self_iff, added, whole, Diagnostics.append_eq_self_iff,
    Diagnostics.append_eq_self_iff, List.append_eq_nil_iff]

theorem Advance.refl (c : Checker) : Advance c c := ⟨.refl c, fun _ => .refl _, rfl, rfl⟩

theorem Advance.trans (first : Advance c middle) (second : Advance middle after) : Advance c after :=
  ⟨first.toExtends.trans second.toExtends,
    fun on => (first.scope on).trans (second.scope (first.options ▸ on)),
    second.functions.trans first.functions, second.structs.trans first.structs⟩

end Order

section Steps

variable (c : Checker)

theorem advance_run {α : Type} {check : Check α} (explained : Explained check) :
    Advance c (c.run check).2 :=
  ⟨⟨rfl, check.reports, rfl, explained.faulty⟩, fun _ => .refl _, rfl, rfl⟩

theorem run_quiet_iff {α : Type} (check : Check α) :
    (c.run check).2.diagnostics = c.diagnostics ↔ check.reports = [] :=
  c.diagnostics.append_eq_self_iff check.reports

theorem advance_expr (e : Expr) : Advance c (c.expr e).2 := c.advance_run (explained_check _ _ e)

theorem explained_condition (e : Expr) :
    Explained (do
      let ty ← e.check c.options c.scope
      unless ty.isInt do Check.report ((TypeFault.notInt ty).at e.span)) := by
  refine .bind (explained_check _ _ e) fun ty => ?_
  split
  · exact .pure ()
  · exact .report _ e.span

theorem advance_condition (e : Expr) : Advance c (c.condition e) :=
  c.advance_run (c.explained_condition e)

theorem explained_valueOf (ty : Ty) (e : Expr) :
    Explained (do
      let got ← e.check c.options c.scope
      Check.same e.span ty got) :=
  .bind (explained_check _ _ e) fun _ => .same ..

theorem advance_valueOf (ty : Ty) (e : Expr) : Advance c (c.valueOf ty e).2 :=
  c.advance_run (c.explained_valueOf ty e)

theorem advance_bind (name : String) (ty : Ty) : Advance c (c.bind name ty) :=
  ⟨⟨rfl, (Extends.refl c).reports⟩, fun _ => c.scope.sameBlock_bind name ty, rfl, rfl⟩

theorem options_openBlock : c.openBlock.options = c.options := by
  unfold openBlock
  split <;> rfl

theorem context_openBlock : c.openBlock.scope.context = c.scope.context := by
  unfold openBlock
  split <;> rfl

theorem diagnostics_openBlock : c.openBlock.diagnostics = c.diagnostics := by
  unfold openBlock
  split <;> rfl

theorem options_closeBlock : c.closeBlock.options = c.options := by
  unfold closeBlock
  split <;> rfl

theorem diagnostics_closeBlock : c.closeBlock.diagnostics = c.diagnostics := by
  unfold closeBlock
  split <;> rfl

theorem functions_openBlock : c.openBlock.scope.functions = c.scope.functions := by
  unfold openBlock
  split <;> rfl

theorem structs_openBlock : c.openBlock.scope.structs = c.scope.structs := by
  unfold openBlock
  split <;> rfl

theorem functions_closeBlock : c.closeBlock.scope.functions = c.scope.functions := by
  unfold closeBlock Scope.closeBlock
  split
  · split <;> rfl
  · rfl

theorem structs_closeBlock : c.closeBlock.scope.structs = c.scope.structs := by
  unfold closeBlock Scope.closeBlock
  split
  · split <;> rfl
  · rfl

/-- A walk between the two ends of a block is a walk around it, after which the context is the one
that the rules leave. -/
theorem Advance.closeBlock {c after : Checker} (inner : Advance c.openBlock after) :
    Advance c after.closeBlock ∧
      after.closeBlock.scope.context = c.options.leave c.scope.context after.scope.context := by
  have options : after.options = c.options := inner.options.trans c.options_openBlock
  have extend : Extends c after.closeBlock := by
    refine ⟨(options_closeBlock after).trans options, ?_⟩
    rw [diagnostics_closeBlock, ← diagnostics_openBlock c]
    exact inner.reports
  have functions : after.closeBlock.scope.functions = c.scope.functions :=
    (functions_closeBlock after).trans (inner.functions.trans c.functions_openBlock)
  have structs : after.closeBlock.scope.structs = c.scope.structs :=
    (structs_closeBlock after).trans (inner.structs.trans c.structs_openBlock)
  cases on : c.options.blockScoping with
  | false =>
    have flat : after.closeBlock = after := by simp [Checker.closeBlock, options, on]
    refine ⟨⟨extend, fun on' => ?_, functions, structs⟩, ?_⟩
    · simp [on] at on'
    · simp [flat, Strictness.leave, on]
  | true =>
    have opened : c.openBlock = { c with scope := c.scope.openBlock } := by simp [openBlock, on]
    have same : after.closeBlock.scope.Same c.scope := by
      have reached := inner.scope (by simp [opened, on])
      simp only [opened] at reached
      simpa [Checker.closeBlock, options, on] using reached.closeBlock
    refine ⟨⟨extend, fun _ => same.sameBlock, functions, structs⟩, ?_⟩
    simp [same.context, Strictness.leave, on]

mutual

theorem advance_stmt (c : Checker) : (s : Stmt) → Advance c (c.stmt s).2
  | .letIn _ name ty none => by
    rw [stmt]
    exact c.advance_bind name ty
  | .letIn _ name ty (some init) => by
    rw [stmt]
    exact (c.advance_valueOf ty init).trans (advance_bind _ name ty)
  | .ret _ none => by
    rw [stmt]
    exact .refl c
  | .ret _ (some value) => by
    rw [stmt]
    exact c.advance_valueOf _ value
  | .cond _ chain => by
    rw [stmt]
    exact advance_ifChain c chain
  | .while _ test body => by
    rw [stmt]
    exact (c.advance_condition test).trans (advance_block _ body)
  | .for _ init test step body => by
    rw [stmt]
    exact ((advance_stmt _ init).trans ((advance_condition _ test).trans ((advance_expr _ step).trans
      (advance_block _ body)))).closeBlock.1
  | .expr e => by
    rw [stmt]
    exact c.advance_expr e
termination_by structural s => s

theorem advance_ifChain (c : Checker) : (chain : IfChain) → Advance c (c.ifChain chain)
  | .branch test body rest => by
    rw [ifChain]
    exact (c.advance_condition test).trans ((advance_block _ body).trans (advance_ifChain _ rest))
  | .otherwise body => by
    rw [ifChain]
    exact advance_block c body
  | .done => by
    rw [ifChain]
    exact .refl c
termination_by structural chain => chain

theorem advance_block (c : Checker) : (b : Block) → Advance c (c.block b).2
  | ⟨body, _⟩ => by
    rw [block]
    exact (advance_stmts c.openBlock (some .void) body).closeBlock.1
termination_by structural b => b

theorem advance_stmts (c : Checker) (last : Option Ty) : (body : List Stmt) →
    Advance c (c.stmts last body).2
  | [] => by
    rw [stmts]
    exact .refl c
  | s :: rest => by
    rw [stmts]
    exact (advance_stmt c s).trans (advance_stmts _ _ rest)
termination_by structural body => body

end

end Steps

end Checker

end StructLang
