import StructLang.Binary64
import StructLang.Span
import StructLang.Ty

namespace StructLang

inductive BinaryOp
  | add | sub | mul | div | eq | lt | gt | le | ge
  deriving DecidableEq, Repr, Inhabited

def BinaryOp.isComparison : BinaryOp → Bool
  | .eq | .lt | .gt | .le | .ge => true
  | .add | .sub | .mul | .div => false

inductive UnaryOp
  | neg | deref | ref
  deriving DecidableEq, Repr, Inhabited

mutual

inductive Expr
  | assign (span : Span) (target value : Expr)
  | binary (span : Span) (op : BinaryOp) (lhs rhs : Expr)
  | unary (span : Span) (op : UnaryOp) (operand : Expr)
  | call (span : Span) (callee : String) (calleeSpan : Span) (args : List Expr)
  | variable (span : Span) (name : String)
  | field (span : Span) (base : Expr) (name : String)
  | index (span : Span) (base offset : Expr)
  | int (span : Span) (value : Int64)
  | float (span : Span) (value : Binary64)
  | string (span : Span) (value : String)
  | struct (span : Span) (name : String) (inits : List FieldInit)

structure FieldInit where
  name : String
  value : Expr
  span : Span

end

instance : Inhabited Expr := ⟨.variable default ""⟩

namespace Expr

def span : Expr → Span
  | .assign s .. | .binary s .. | .unary s .. | .call s .. | .variable s .. | .field s .. | .index s ..
  | .int s .. | .float s .. | .string s .. | .struct s .. => s

def withSpan (span : Span) : Expr → Expr
  | .assign _ target value => .assign span target value
  | .binary _ op lhs rhs => .binary span op lhs rhs
  | .unary _ op operand => .unary span op operand
  | .call _ callee calleeSpan args => .call span callee calleeSpan args
  | .variable _ name => .variable span name
  | .field _ base name => .field span base name
  | .index _ base offset => .index span base offset
  | .int _ value => .int span value
  | .float _ value => .float span value
  | .string _ value => .string span value
  | .struct _ name inits => .struct span name inits

def isPlace : Expr → Bool
  | .variable .. | .field .. | .index .. | .unary _ .deref _ => true
  | _ => false

end Expr

mutual

inductive Stmt
  | letIn (span : Span) (name : String) (ty : Ty) (init : Option Expr)
  | ret (span : Span) (value : Option Expr)
  | cond (span : Span) (chain : IfChain)
  | while (span : Span) (test : Expr) (body : Block)
  | for (span : Span) (init : Stmt) (test step : Expr) (body : Block)
  | expr (e : Expr)

inductive IfChain
  | branch (test : Expr) (body : Block) (rest : IfChain)
  | otherwise (body : Block)
  | done

structure Block where
  stmts : List Stmt
  span : Span

end

instance : Inhabited Block := ⟨⟨[], default⟩⟩

def Stmt.span : Stmt → Span
  | .letIn s .. | .ret s .. | .cond s .. | .while s .. | .for s .. => s
  | .expr e => e.span

def IfChain.branches : IfChain → List (Expr × Block)
  | .branch test body rest => (test, body) :: rest.branches
  | .otherwise _ | .done => []

def IfChain.otherwise? : IfChain → Option Block
  | .branch _ _ rest => rest.otherwise?
  | .otherwise body => some body
  | .done => none

structure Param where
  name : String
  ty : Ty
  span : Span
  deriving DecidableEq, Repr, Inhabited

structure Signature where
  name : String
  nameSpan : Span
  returns : Ty
  params : List Param
  span : Span
  deriving DecidableEq, Repr, Inhabited

structure Field where
  name : String
  ty : Ty
  span : Span
  deriving DecidableEq, Repr, Inhabited

/-- The order of the fields is their order in memory. -/
structure StructDecl where
  name : String
  fields : List Field
  span : Span
  deriving DecidableEq, Repr, Inhabited

def StructDecl.field? (s : StructDecl) (name : String) : Option (Nat × Field) :=
  (s.fields.findIdx? (·.name == name)).bind fun i => s.fields[i]?.map (i, ·)

structure FunctionDecl where
  signature : Signature
  body : Block
  span : Span

/-- An import is read as `importOf`; once its document is attached it is `imported`. -/
inductive Decl
  | function (f : FunctionDecl)
  | external (signature : Signature) (span : Span)
  | struct (s : StructDecl)
  | importOf (path : String) (span : Span)
  | imported (path : String) (span : Span) (document : List Decl)

abbrev Document := List Decl

end StructLang
