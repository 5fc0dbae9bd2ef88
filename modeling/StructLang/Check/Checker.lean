import StructLang.Check.Expr

namespace StructLang

structure Checker where
  options : Strictness
  scope : Scope
  diagnostics : Diagnostics

namespace Checker

def start (options : Strictness) (diagnostics : Diagnostics) : Checker :=
  ⟨options, .empty, diagnostics⟩

def bind (c : Checker) (name : String) (ty : Ty) : Checker := { c with scope := c.scope.bind name ty }

def openBlock (c : Checker) : Checker :=
  if c.options.blockScoping then { c with scope := c.scope.openBlock } else c

def closeBlock (c : Checker) : Checker :=
  if c.options.blockScoping then { c with scope := c.scope.closeBlock } else c

def run {α : Type} (c : Checker) (check : Check α) : Option α × Checker :=
  (check.result, { c with diagnostics := c.diagnostics.append check.reports })

def expr (c : Checker) (e : Expr) : Option Ty × Checker := c.run (e.check c.options c.scope)

def condition (c : Checker) (e : Expr) : Checker :=
  (c.run do
    let ty ← e.check c.options c.scope
    unless ty.isInt do Check.report ((TypeFault.notInt ty).at e.span)).2

def valueOf (c : Checker) (ty : Ty) (e : Expr) : Option Unit × Checker :=
  c.run do
    let got ← e.check c.options c.scope
    Check.same e.span ty got

mutual

def stmt (c : Checker) : Stmt → Option Ty × Checker
  | .letIn _ name ty none => (some ty, c.bind name ty)
  | .letIn _ name ty (some init) => (some ty, (c.valueOf ty init).2.bind name ty)
  | .ret _ none => (some c.scope.returns, c)
  | .ret _ (some value) =>
    let (checked, after) := c.valueOf c.scope.returns value
    (checked.map fun _ => c.scope.returns, after)
  | .cond _ chain => (some .void, ifChain c chain)
  | .while _ test body => (some .void, (block (c.condition test) body).2)
  | .for _ init test step body =>
    let c := (stmt c.openBlock init).2
    let c := ((c.condition test).expr step).2
    (some .void, (block c body).2.closeBlock)
  | .expr e => c.expr e
termination_by structural s => s

def ifChain (c : Checker) : IfChain → Checker
  | .branch test body rest => ifChain (block (c.condition test) body).2 rest
  | .otherwise body => (block c body).2
  | .done => c
termination_by structural chain => chain

def block (c : Checker) : Block → Option Ty × Checker
  | ⟨body, _⟩ =>
    let (last, after) := stmts c.openBlock (some .void) body
    (last, after.closeBlock)
termination_by structural b => b

def stmts (c : Checker) (last : Option Ty) : List Stmt → Option Ty × Checker
  | [] => (last, c)
  | s :: rest =>
    let (ty, after) := stmt c s
    stmts after ty rest
termination_by structural body => body

end

def function (c : Checker) (f : FunctionDecl) : Option Ty × Checker :=
  let scope := (c.scope.registerFunction f.signature).enterFunction f.signature
  (some .void, (block { c with scope := scope } f.body).2)

end Checker

mutual

def Scope.registerDecl (s : Scope) : Decl → Scope
  | .function f => s.registerFunction f.signature
  | .external f _ => s.registerFunction f
  | .struct d => s.registerStruct d
  | .importOf .. => s
  | .imported _ _ document => Scope.register s document
termination_by structural d => d

def Scope.register (s : Scope) : List Decl → Scope
  | [] => s
  | d :: rest => Scope.register (s.registerDecl d) rest
termination_by structural document => document

end

def Document.functions (d : Document) : List FunctionDecl :=
  d.filterMap fun
    | .function f => some f
    | _ => none

namespace Checker

/-- Registers every declaration first, so that bodies may use what is declared after them. -/
def document (c : Checker) (d : Document) : Checker :=
  d.functions.foldl (fun c f => (c.function f).2) { c with scope := c.scope.register d }

end Checker

def Document.check (d : Document) (options : Strictness) : Checker :=
  (Checker.start options .empty).document d

end StructLang
