import StructLang.Proofs.Parse.Regular

namespace StructLang

namespace Level

def tightness : Level → Nat
  | .expr => 0
  | .comparison => 1
  | .additive => 2
  | .term => 3
  | .unary => 4
  | .access => 5
  | .primary => 6

/-- The tokens of an expression of level `own` where level `needed` is asked for. -/
def enclose (needed own : Level) (ts : List TokenKind) : List TokenKind :=
  if own.tightness < needed.tightness then .symbol .leftParen :: ts ++ [.symbol .rightParen] else ts

end Level

def BinaryOp.rightLevel : BinaryOp → Level
  | .add | .sub => .term
  | .mul | .div => .unary
  | .eq | .lt | .gt | .le | .ge => .additive

def Expr.level : Expr → Level
  | .assign .. => .expr
  | .binary _ op .. => op.level
  | .unary .. => .unary
  | .field .. | .index .. => .access
  | .call .. | .variable .. | .int .. | .float .. | .string .. | .struct .. => .primary

def Ty.tokens : Ty → List TokenKind
  | .ptr target => target.tokens ++ [.symbol .star]
  | ty => [.identifier ty.render]

mutual

def Expr.tokens : Expr → List TokenKind
  | .assign _ target value => Level.unary.enclose target.level target.tokens ++ .symbol .equal :: value.tokens
  | .binary _ op lhs rhs =>
    op.level.enclose lhs.level lhs.tokens ++
      .symbol op.symbol :: op.rightLevel.enclose rhs.level rhs.tokens
  | .unary _ op operand => .symbol op.symbol :: Level.unary.enclose operand.level operand.tokens
  | .call _ callee _ args => .identifier callee :: .symbol .leftParen :: Expr.listTokens args ++ [.symbol .rightParen]
  | .variable _ name => [.identifier name]
  | .field _ base name => Level.access.enclose base.level base.tokens ++ [.symbol .dot, .identifier name]
  | .index _ base offset =>
    Level.access.enclose base.level base.tokens ++ .symbol .leftBracket :: offset.tokens ++ [.symbol .rightBracket]
  | .int _ value => [.int value]
  | .float _ value => [.float value]
  | .string _ value => [.string value]
  | .struct _ name inits =>
    .identifier name :: .symbol .leftBrace :: FieldInit.listTokens inits ++ [.symbol .rightBrace]
termination_by structural e => e

def Expr.listTokens : List Expr → List TokenKind
  | [] => []
  | [e] => e.tokens
  | e :: e' :: rest => e.tokens ++ .symbol .comma :: Expr.listTokens (e' :: rest)
termination_by structural es => es

def FieldInit.tokens : FieldInit → List TokenKind
  | ⟨name, value, _⟩ => .identifier name :: .symbol .colon :: value.tokens ++ [.symbol .comma]
termination_by structural init => init

def FieldInit.listTokens : List FieldInit → List TokenKind
  | [] => []
  | init :: rest => init.tokens ++ FieldInit.listTokens rest
termination_by structural inits => inits

end

def IfChain.opening : IfChain → List TokenKind
  | .branch .. => [.keyword .else, .keyword .if]
  | .otherwise _ => [.keyword .else]
  | .done => []

mutual

def Stmt.tokens : Stmt → List TokenKind
  | .letIn _ name ty none => .keyword .let :: .identifier name :: .symbol .colon :: ty.tokens
  | .letIn _ name ty (some e) =>
    .keyword .let :: .identifier name :: .symbol .colon :: ty.tokens ++ .symbol .equal :: e.tokens
  | .ret _ none => [.keyword .return]
  | .ret _ (some e) => .keyword .return :: e.tokens
  | .cond _ chain => .keyword .if :: chain.tokens
  | .while _ test body =>
    .keyword .while :: .symbol .leftParen :: test.tokens ++ .symbol .rightParen :: body.tokens
  | .for _ init test step body =>
    .keyword .for :: .symbol .leftParen :: init.tokens ++ .symbol .semicolon :: test.tokens ++
      .symbol .semicolon :: step.tokens ++ .symbol .rightParen :: body.tokens
  | .expr e => e.tokens
termination_by structural st => st

def IfChain.tokens : IfChain → List TokenKind
  | .branch test body rest =>
    .symbol .leftParen :: test.tokens ++ .symbol .rightParen :: body.tokens ++ rest.opening ++ rest.tokens
  | .otherwise body => body.tokens
  | .done => []
termination_by structural chain => chain

def Block.tokens : Block → List TokenKind
  | ⟨stmts, _⟩ => .symbol .leftBrace :: Stmt.listTokens stmts ++ [.symbol .rightBrace]
termination_by structural b => b

def Stmt.listTokens : List Stmt → List TokenKind
  | [] => []
  | st :: rest => st.tokens ++ .symbol .semicolon :: Stmt.listTokens rest
termination_by structural stmts => stmts

end

/-- What the grammar leaves open: whether a function that returns nothing says so, whether an external function is
called a function, and what follows a field of a struct and a declaration. -/
structure Style where
  showVoid : Bool
  showFunction : Bool
  afterField : Option Symbol
  separates : ∀ s ∈ afterField, s = .semicolon ∨ s = .comma
  endDeclarations : Bool

def Param.tokens (p : Param) : List TokenKind := .identifier p.name :: .symbol .colon :: p.ty.tokens

def Param.listTokens : List Param → List TokenKind
  | [] => []
  | [p] => p.tokens
  | p :: p' :: rest => p.tokens ++ .symbol .comma :: Param.listTokens (p' :: rest)

namespace Style

variable (style : Style)

def returnTokens (ty : Ty) : List TokenKind :=
  if ty = .void ∧ style.showVoid = false then [] else .symbol .colon :: ty.tokens

def signatureTokens (f : Signature) : List TokenKind :=
  .identifier f.name :: .symbol .leftParen :: Param.listTokens f.params ++
    .symbol .rightParen :: style.returnTokens f.returns

def fieldTokens (field : Field) : List TokenKind :=
  .identifier field.name :: .symbol .colon :: field.ty.tokens ++ (style.afterField.map .symbol).toList

def declTokens : Decl → List TokenKind
  | .function f => .keyword .function :: style.signatureTokens f.signature ++ f.body.tokens
  | .external f _ =>
    .keyword .external :: (if style.showFunction then [.keyword .function] else []) ++ style.signatureTokens f
  | .struct s =>
    .keyword .struct :: .identifier s.name :: .symbol .leftBrace :: s.fields.flatMap style.fieldTokens ++
      [.symbol .rightBrace]
  | .importOf path _ | .imported path _ _ => [.keyword .imports, .string path]

def afterDecl : List TokenKind := if style.endDeclarations then [.symbol .semicolon] else []

def documentTokens (d : Document) : List TokenKind := d.flatMap fun decl => style.declTokens decl ++ style.afterDecl

end Style

mutual

def Expr.erase : Expr → Expr
  | .assign _ target value => .assign default target.erase value.erase
  | .binary _ op lhs rhs => .binary default op lhs.erase rhs.erase
  | .unary _ op operand => .unary default op operand.erase
  | .call _ callee _ args => .call default callee default (Expr.eraseAll args)
  | .variable _ name => .variable default name
  | .field _ base name => .field default base.erase name
  | .index _ base offset => .index default base.erase offset.erase
  | .int _ value => .int default value
  | .float _ value => .float default value
  | .string _ value => .string default value
  | .struct _ name inits => .struct default name (FieldInit.eraseAll inits)
termination_by structural e => e

def Expr.eraseAll : List Expr → List Expr
  | [] => []
  | e :: rest => e.erase :: Expr.eraseAll rest
termination_by structural es => es

def FieldInit.erase : FieldInit → FieldInit
  | ⟨name, value, _⟩ => ⟨name, value.erase, default⟩
termination_by structural init => init

def FieldInit.eraseAll : List FieldInit → List FieldInit
  | [] => []
  | init :: rest => init.erase :: FieldInit.eraseAll rest
termination_by structural inits => inits

end

mutual

def Stmt.erase : Stmt → Stmt
  | .letIn _ name ty init => .letIn default name ty (init.map Expr.erase)
  | .ret _ value => .ret default (value.map Expr.erase)
  | .cond _ chain => .cond default chain.erase
  | .while _ test body => .while default test.erase body.erase
  | .for _ init test step body => .for default init.erase test.erase step.erase body.erase
  | .expr e => .expr e.erase
termination_by structural st => st

def IfChain.erase : IfChain → IfChain
  | .branch test body rest => .branch test.erase body.erase rest.erase
  | .otherwise body => .otherwise body.erase
  | .done => .done
termination_by structural chain => chain

def Block.erase : Block → Block
  | ⟨stmts, _⟩ => ⟨Stmt.eraseAll stmts, default⟩
termination_by structural b => b

def Stmt.eraseAll : List Stmt → List Stmt
  | [] => []
  | st :: rest => st.erase :: Stmt.eraseAll rest
termination_by structural stmts => stmts

end

def Param.erase (p : Param) : Param := { p with span := default }

def Signature.erase (f : Signature) : Signature :=
  { f with nameSpan := default, params := f.params.map Param.erase, span := default }

def Field.erase (field : Field) : Field := { field with span := default }

def StructDecl.erase (s : StructDecl) : StructDecl := { s with fields := s.fields.map Field.erase, span := default }

def FunctionDecl.erase (f : FunctionDecl) : FunctionDecl := ⟨f.signature.erase, f.body.erase, default⟩

mutual

def Decl.erase : Decl → Decl
  | .function f => .function f.erase
  | .external f _ => .external f.erase default
  | .struct s => .struct s.erase
  | .importOf path _ => .importOf path default
  | .imported path _ document => .imported path default (Document.erase document)
termination_by structural d => d

def Document.erase : List Decl → List Decl
  | [] => []
  | decl :: rest => decl.erase :: Document.erase rest
termination_by structural d => d

end

@[simp]
theorem Expr.erase_withSpan (span : Span) (e : Expr) : (e.withSpan span).erase = e.erase := by
  cases e <;> rfl

theorem Expr.isPlace_erase (e : Expr) : e.erase.isPlace = e.isPlace := by
  cases e with
  | unary _ op => cases op <;> rfl
  | _ => rfl

theorem Expr.isPlace_of_erase {e e' : Expr} (same : e'.erase = e.erase) : e'.isPlace = e.isPlace := by
  rw [← isPlace_erase, same, isPlace_erase]

/-- The name of a type that is no pointer. -/
theorem Ty.ofName_render {ty : Ty} (named : ty.isNamed = true) (plain : ty.isPtr = false) :
    Ty.ofName ty.render = ty := by
  cases ty with
  | ptr => cases plain
  | int width | float width =>
    simp only [isNamed, List.contains_eq_mem, List.mem_cons, List.not_mem_nil, or_false, decide_eq_true_eq] at named
    rcases named with rfl | rfl | rfl | rfl <;> decide
  | struct name =>
    rw [render, ofName, Option.isNone_iff_eq_none.mp named]
    rfl
  | void => decide

end StructLang
