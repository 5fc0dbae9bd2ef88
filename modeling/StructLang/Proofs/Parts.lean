import StructLang.Check.Checker

namespace StructLang

namespace Expr

def children : Expr → List Expr
  | .assign _ left right | .binary _ _ left right | .index _ left right => [left, right]
  | .unary _ _ operand | .field _ operand _ => [operand]
  | .call _ _ _ args => args
  | .struct _ _ inits => inits.map (·.value)
  | .variable .. | .int .. | .float .. | .string .. => []

inductive Part (e : Expr) : Expr → Prop
  | self : Part e e
  | child {child whole} (part : Part e child) (inside : child ∈ whole.children) : Part e whole

end Expr

section Induction

variable {P : Expr → Prop}

mutual

/-- What an expression has if all right below it do, every expression has. -/
theorem Expr.induction_children (step : ∀ e : Expr, (∀ child ∈ e.children, P child) → P e) : (e : Expr) → P e
  | .assign span left right | .binary span _ left right | .index span left right => step _ (by
      simpa [children] using ⟨Expr.induction_children step left, Expr.induction_children step right⟩)
  | .unary _ _ operand | .field _ operand _ => step _ (by
      simpa [children] using Expr.induction_children step operand)
  | .call _ _ _ args => step _ (Expr.induction_args step args)
  | .struct _ _ inits => step _ (by simpa [children] using Expr.induction_inits step inits)
  | .variable .. | .int .. | .float .. | .string .. => step _ (by simp [children])
termination_by structural e => e

theorem Expr.induction_args (step : ∀ e : Expr, (∀ child ∈ e.children, P child) → P e) : (args : List Expr) →
    ∀ arg ∈ args, P arg
  | [] => by simp
  | arg :: args => by simpa using ⟨Expr.induction_children step arg, Expr.induction_args step args⟩
termination_by structural args => args

theorem Expr.induction_inits (step : ∀ e : Expr, (∀ child ∈ e.children, P child) → P e) : (inits : List FieldInit) →
    ∀ init ∈ inits, P init.value
  | [] => by simp
  | init :: inits => by simpa using ⟨Expr.induction_init step init, Expr.induction_inits step inits⟩
termination_by structural inits => inits

theorem Expr.induction_init (step : ∀ e : Expr, (∀ child ∈ e.children, P child) → P e) : (init : FieldInit) →
    P init.value
  | ⟨_, value, _⟩ => Expr.induction_children step value
termination_by structural init => init

end

end Induction

mutual

def Stmt.exprs : Stmt → List Expr
  | .letIn _ _ _ init => init.toList
  | .ret _ value => value.toList
  | .cond _ chain => chain.exprs
  | .while _ test body => test :: body.exprs
  | .for _ init test step body => init.exprs ++ test :: step :: body.exprs
  | .expr e => [e]
termination_by structural s => s

def IfChain.exprs : IfChain → List Expr
  | .branch test body rest => test :: (body.exprs ++ rest.exprs)
  | .otherwise body => body.exprs
  | .done => []
termination_by structural chain => chain

def Block.exprs : Block → List Expr
  | ⟨stmts, _⟩ => exprsOf stmts
termination_by structural b => b

def exprsOf : List Stmt → List Expr
  | [] => []
  | s :: rest => s.exprs ++ exprsOf rest
termination_by structural stmts => stmts

end

def Document.Contains (d : Document) (e : Expr) : Prop := ∃ f ∈ d.functions, ∃ whole ∈ f.body.exprs, e.Part whole

end StructLang
