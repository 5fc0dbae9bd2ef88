import StructLang.Proofs.Parts
import StructLang.Proofs.Typing.Decision

namespace StructLang

inductive Demand
  | any
  | int
  | of (ty : Ty)

def Demand.check (span : Span) (got : Ty) : Demand → Check Unit
  | .any => .pure ()
  | .int => if got.isInt then .pure () else .report ((TypeFault.notInt got).at span)
  | .of ty => .same span ty got

structure Stop where
  scope : Scope
  expr : Expr
  demand : Demand

def Stop.check (o : Strictness) (stop : Stop) : Check Unit := do
  let got ← stop.expr.check o stop.scope
  stop.demand.check stop.expr.span got

def Stop.reports (o : Strictness) (stop : Stop) : List Diagnostic := (stop.check o).reports

namespace Scope

def openIf (blocks : Bool) (s : Scope) : Scope := if blocks then s.openBlock else s

def closeIf (blocks : Bool) (s : Scope) : Scope := if blocks then s.closeBlock else s

end Scope

abbrev Walk := List Stop × Scope

mutual

def Stmt.walk (blocks : Bool) (s : Scope) : Stmt → Walk
  | .letIn _ name ty init => (init.toList.map (⟨s, ·, .of ty⟩), s.bind name ty)
  | .ret _ value => (value.toList.map (⟨s, ·, .of s.returns⟩), s)
  | .cond _ chain => chain.walk blocks s
  | .while _ test body =>
    let inner := body.walk blocks s
    (⟨s, test, .int⟩ :: inner.1, inner.2)
  | .for _ init test step body =>
    let first := init.walk blocks (s.openIf blocks)
    let inner := body.walk blocks first.2
    (first.1 ++ ⟨first.2, test, .int⟩ :: ⟨first.2, step, .any⟩ :: inner.1, inner.2.closeIf blocks)
  | .expr e => ([⟨s, e, .any⟩], s)
termination_by structural st => st

def IfChain.walk (blocks : Bool) (s : Scope) : IfChain → Walk
  | .branch test body rest =>
    let inner := body.walk blocks s
    let others := rest.walk blocks inner.2
    (⟨s, test, .int⟩ :: (inner.1 ++ others.1), others.2)
  | .otherwise body => body.walk blocks s
  | .done => ([], s)
termination_by structural chain => chain

def Block.walk (blocks : Bool) (s : Scope) : Block → Walk
  | ⟨body, _⟩ =>
    let inner := walkStmts blocks (s.openIf blocks) body
    (inner.1, inner.2.closeIf blocks)
termination_by structural b => b

def walkStmts (blocks : Bool) (s : Scope) : List Stmt → Walk
  | [] => ([], s)
  | st :: rest =>
    let first := st.walk blocks s
    let others := walkStmts blocks first.2 rest
    (first.1 ++ others.1, others.2)
termination_by structural body => body

end

def FunctionDecl.walk (blocks : Bool) (s : Scope) (f : FunctionDecl) : Walk :=
  f.body.walk blocks ((s.registerFunction f.signature).enterFunction f.signature)

def walkFunctions (blocks : Bool) (s : Scope) : List FunctionDecl → Walk
  | [] => ([], s)
  | f :: rest =>
    let first := f.walk blocks s
    let others := walkFunctions blocks first.2 rest
    (first.1 ++ others.1, others.2)

def Document.walk (blocks : Bool) (s : Scope) (d : Document) : Walk := walkFunctions blocks (s.register d) d.functions

section Visited

variable (blocks : Bool)

mutual

/-- Each expression is visited once, in the order of the text. -/
theorem Stmt.map_expr_walk (s : Scope) : (st : Stmt) → (st.walk blocks s).1.map (·.expr) = st.exprs
  | .letIn _ _ _ init => by cases init <;> rfl
  | .ret _ value => by cases value <;> rfl
  | .cond _ chain => by
    rw [Stmt.walk, Stmt.exprs]
    exact IfChain.map_expr_walk s chain
  | .while _ test body => by
    rw [Stmt.walk, Stmt.exprs]
    simp only [List.map_cons, Block.map_expr_walk _ body]
  | .for _ init test step body => by
    rw [Stmt.walk, Stmt.exprs]
    simp only [List.map_append, List.map_cons, Stmt.map_expr_walk _ init, Block.map_expr_walk _ body]
  | .expr e => by simp [Stmt.walk, Stmt.exprs]
termination_by structural st => st

theorem IfChain.map_expr_walk (s : Scope) : (chain : IfChain) → (chain.walk blocks s).1.map (·.expr) = chain.exprs
  | .branch test body rest => by
    rw [IfChain.walk, IfChain.exprs]
    simp only [List.map_append, List.map_cons, Block.map_expr_walk _ body, IfChain.map_expr_walk _ rest]
  | .otherwise body => by
    rw [IfChain.walk, IfChain.exprs]
    exact Block.map_expr_walk s body
  | .done => by simp [IfChain.walk, IfChain.exprs]
termination_by structural chain => chain

theorem Block.map_expr_walk (s : Scope) : (b : Block) → (b.walk blocks s).1.map (·.expr) = b.exprs
  | ⟨body, _⟩ => by
    rw [Block.walk, Block.exprs]
    exact map_expr_walkStmts _ body
termination_by structural b => b

theorem map_expr_walkStmts (s : Scope) : (body : List Stmt) → (walkStmts blocks s body).1.map (·.expr) = exprsOf body
  | [] => by simp [walkStmts, exprsOf]
  | st :: rest => by
    rw [walkStmts, exprsOf]
    simp only [List.map_append, Stmt.map_expr_walk _ st, map_expr_walkStmts _ rest]
termination_by structural body => body

end

theorem map_expr_walkFunctions (s : Scope) (fs : List FunctionDecl) :
    (walkFunctions blocks s fs).1.map (·.expr) = fs.flatMap (·.body.exprs) := by
  induction fs generalizing s with
  | nil => rfl
  | cons f rest ih =>
    rw [walkFunctions, List.flatMap_cons]
    simp only [List.map_append, FunctionDecl.walk, Block.map_expr_walk, ih]

theorem Document.map_expr_walk (s : Scope) (d : Document) :
    (d.walk blocks s).1.map (·.expr) = d.functions.flatMap (·.body.exprs) :=
  map_expr_walkFunctions blocks _ d.functions

end Visited

namespace Checker

def after (c : Checker) (w : Walk) : Checker :=
  { c with scope := w.2, diagnostics := c.diagnostics.append (w.1.flatMap (Stop.reports c.options)) }

theorem after_after (c : Checker) (w w' : Walk) : (c.after w).after w' = c.after (w.1 ++ w'.1, w'.2) := by
  simp [after, Diagnostics.append]

theorem after_nil (c : Checker) (s : Scope) : c.after ([], s) = { c with scope := s } := by
  simp [after, Diagnostics.append]

variable (c : Checker)

theorem openBlock_eq : c.openBlock = c.after ([], c.scope.openIf c.options.blockScoping) := by
  rw [after_nil, openBlock, Scope.openIf]
  split <;> rfl

theorem closeBlock_eq : c.closeBlock = c.after ([], c.scope.closeIf c.options.blockScoping) := by
  rw [after_nil, closeBlock, Scope.closeIf]
  split <;> rfl

theorem bind_eq (name : String) (ty : Ty) : c.bind name ty = c.after ([], c.scope.bind name ty) := by
  rw [after_nil, Checker.bind]

theorem run_stop (stop : Stop) (here : stop.scope = c.scope) :
    (c.run (stop.check c.options)).2 = c.after ([stop], stop.scope) := by
  simp [run, after, here, Stop.reports]

theorem expr_eq (e : Expr) : (c.expr e).2 = c.after ([⟨c.scope, e, .any⟩], c.scope) := by
  rw [← run_stop c ⟨c.scope, e, .any⟩ rfl]
  cases found : (e.check c.options c.scope).result <;>
    simp [Checker.expr, run, Stop.check, Demand.check, Bind.bind, Check.bind, Check.pure, found]

theorem condition_eq (e : Expr) : c.condition e = c.after ([⟨c.scope, e, .int⟩], c.scope) := by
  rw [← run_stop c ⟨c.scope, e, .int⟩ rfl]
  rfl

theorem valueOf_eq (ty : Ty) (e : Expr) : (c.valueOf ty e).2 = c.after ([⟨c.scope, e, .of ty⟩], c.scope) := by
  rw [← run_stop c ⟨c.scope, e, .of ty⟩ rfl]
  rfl

mutual

theorem stmt_eq (c : Checker) : (st : Stmt) → (c.stmt st).2 = c.after (st.walk c.options.blockScoping c.scope)
  | .letIn _ name ty none => by
    rw [stmt, Stmt.walk]
    exact c.bind_eq name ty
  | .letIn _ name ty (some init) => by
    rw [stmt, Stmt.walk, valueOf_eq, bind_eq, after_after]
    rfl
  | .ret _ none => by
    rw [stmt, Stmt.walk]
    exact (c.after_nil c.scope).symm
  | .ret _ (some value) => by
    rw [stmt, Stmt.walk]
    exact c.valueOf_eq c.scope.returns value
  | .cond _ chain => by
    rw [stmt, Stmt.walk]
    exact ifChain_eq c chain
  | .while _ test body => by
    rw [stmt, Stmt.walk, block_eq, condition_eq, after_after]
    rfl
  | .for _ init test step body => by
    rw [stmt, Stmt.walk]
    simp only [closeBlock_eq, block_eq, expr_eq, condition_eq, stmt_eq, openBlock_eq, after_after]
    simp [after]
  | .expr e => by
    rw [stmt, Stmt.walk]
    exact c.expr_eq e
termination_by structural st => st

theorem ifChain_eq (c : Checker) : (chain : IfChain) →
    c.ifChain chain = c.after (chain.walk c.options.blockScoping c.scope)
  | .branch test body rest => by
    rw [ifChain, IfChain.walk, ifChain_eq _ rest, block_eq, condition_eq, after_after, after_after]
    rfl
  | .otherwise body => by
    rw [ifChain, IfChain.walk]
    exact block_eq c body
  | .done => by
    rw [ifChain, IfChain.walk]
    exact (c.after_nil c.scope).symm
termination_by structural chain => chain

theorem block_eq (c : Checker) : (b : Block) → (c.block b).2 = c.after (b.walk c.options.blockScoping c.scope)
  | ⟨body, _⟩ => by
    rw [block, Block.walk]
    simp only [closeBlock_eq, stmts_eq, openBlock_eq, after_after]
    simp [after]
termination_by structural b => b

theorem stmts_eq (c : Checker) (last : Option Ty) : (body : List Stmt) →
    (c.stmts last body).2 = c.after (walkStmts c.options.blockScoping c.scope body)
  | [] => by
    rw [stmts, walkStmts]
    exact (c.after_nil c.scope).symm
  | st :: rest => by
    rw [stmts, walkStmts]
    simp only [stmts_eq _ _ rest, stmt_eq c st, after_after]
    rfl
termination_by structural body => body

end

theorem functions_eq (fs : List FunctionDecl) (c : Checker) :
    fs.foldl (fun c f => (c.function f).2) c = c.after (walkFunctions c.options.blockScoping c.scope fs) := by
  induction fs generalizing c with
  | nil => exact (c.after_nil c.scope).symm
  | cons f rest ih =>
    have first : (c.function f).2 = c.after (f.walk c.options.blockScoping c.scope) := block_eq (c.entered f.signature) f.body
    rw [List.foldl_cons, ih, first, after_after, walkFunctions]
    rfl

theorem document_eq (d : Document) : c.document d = c.after (d.walk c.options.blockScoping c.scope) :=
  functions_eq d.functions { c with scope := c.scope.register d }

end Checker

end StructLang
