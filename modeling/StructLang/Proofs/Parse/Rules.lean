import StructLang.Parse.Document
import StructLang.Proofs.Parse.Grammar

namespace StructLang

/-- An action on the cursor. It succeeds or fails, and says where it stands in both cases, or it has no answer. -/
abbrev Attempt := ExceptT ParseError (StateT Cursor Option)

namespace Parser

def step {α : Type} (p : Parser α) : Attempt α := fun c => some ((p c).map Prod.fst, (p c).toOption.elim c Prod.snd)

inductive Chain
  | comparison | additive | term

namespace Chain

def level : Chain → Level
  | comparison => .comparison
  | additive => .additive
  | term => .term

def operands : Chain → Level
  | comparison => .additive
  | additive => .term
  | term => .unary

def operator? : Chain → TokenKind → Option BinaryOp
  | comparison => comparisonOp?
  | additive => additiveOp?
  | term => termOp?

end Chain

/-- The rules, by what they return. Each loop is a rule too. -/
inductive Rule : Type → Type
  | expression : Rule Expr
  | level (l : Level) : Rule Expr
  | joined (chain : Chain) (lhs : Expr) : Rule Expr
  | accesses (e : Expr) : Rule Expr
  | call (callee : String) (calleeSpan : Span) : Rule Expr
  | arguments : Rule (List Expr)
  | structLiteral (name : String) (nameSpan : Span) : Rule Expr
  | fieldInits : Rule (List FieldInit)
  | type : Rule Ty
  | stars (ty : Ty) : Rule Ty
  | letStatement (start : Span) : Rule Stmt
  | returnStatement (start : Span) : Rule Stmt
  | test (keyword : Keyword) : Rule Expr
  | ifChain : Rule IfChain
  | ifStatement (start : Span) : Rule Stmt
  | whileStatement (start : Span) : Rule Stmt
  | forInit : Rule Stmt
  | forStatement (start : Span) : Rule Stmt
  | statement : Rule Stmt
  | statements : Rule (List Stmt)
  | block : Rule Block
  | params : Rule (List Param)
  | signature : Rule Signature
  | fields (struct : String) (seen : List Field) : Rule (List Field)
  | structDecl (start : Span) : Rule StructDecl
  | importDecl (start : Span) : Rule Decl
  | declaration : Rule Decl
  | document : Rule Document

namespace Rule

def body (again : {β : Type} → Rule β → Attempt β) : {α : Type} → Rule α → Attempt α
  | _, .expression => again (.level .expr)
  | _, .level .expr => do
    let target ← again (.level .comparison)
    match ← step (accept? (.symbol .equal)) with
    | none => return target
    | some token => do
      unless target.isPlace do step (failAt token .invalidTarget)
      let value ← again (.level .expr)
      return .assign (target.span.join value.span) target value
  | _, .level .comparison => do again (.joined .comparison (← again (.level .additive)))
  | _, .level .additive => do again (.joined .additive (← again (.level .term)))
  | _, .level .term => do again (.joined .term (← again (.level .unary)))
  | _, .level .unary => do
    match unaryOp? (← step peekKind) with
    | none => again (.level .access)
    | some op => do
      let token ← step next
      let e ← again (.level .unary)
      return .unary (token.span.join e.span) op e
  | _, .level .access => do again (.accesses (← again (.level .primary)))
  | _, .level .primary => do
    let token ← step peek
    match token.kind with
    | .symbol .leftParen => do
      let _ ← step next
      let inner ← again .expression
      step (expect .rightParen .groupClose)
      return inner.withSpan (token.span.join (← step lastSpan))
    | .int value => do
      let _ ← step next
      return .int token.span value
    | .float value => do
      let _ ← step next
      return .float token.span value
    | .string value => do
      let _ ← step next
      return .string token.span value
    | .identifier name => do
      let _ ← step next
      if ← step (sees .leftParen) then again (.call name token.span)
      else if opensLiteral (← step get).rest then again (.structLiteral name token.span)
      else return .variable token.span name
    | _ => step (failAt token (.expected .expression))
  | _, .joined chain lhs => do
    match chain.operator? (← step peekKind) with
    | none => return lhs
    | some op => do
      let _ ← step next
      let rhs ← again (.level chain.operands)
      again (.joined chain (.binary (lhs.span.join rhs.span) op lhs rhs))
  | _, .accesses e => do
    if ← step (accept .dot) then
      let (name, token) ← step (identifier .dotField)
      again (.accesses (.field (e.span.join token.span) e name))
    else if ← step (accept .arrow) then
      let (name, token) ← step (identifier .arrowField)
      again (.accesses (.field (e.span.join token.span) (.unary e.span .deref e) name))
    else if ← step (accept .leftBracket) then
      let index ← again .expression
      step (expect .rightBracket .indexClose)
      again (.accesses (.index (e.span.join (← step lastSpan)) e index))
    else return e
  | _, .call callee calleeSpan => do
    step (expect .leftParen .argsOpen)
    let args ← if ← step (sees .rightParen) then pure [] else again .arguments
    step (expect .rightParen .argsClose)
    return .call (calleeSpan.join (← step lastSpan)) callee calleeSpan args
  | _, .arguments => do
    let arg ← again .expression
    if ← step (accept .comma) then return arg :: (← again .arguments) else return [arg]
  | _, .structLiteral name nameSpan => do
    step (expect .leftBrace .literalOpen)
    let inits ← again .fieldInits
    step (expect .rightBrace .literalClose)
    return .struct (nameSpan.join (← step lastSpan)) name inits
  | _, .fieldInits => do
    if (← step (sees .rightBrace)) || (← step atEnd) then return []
    let (name, token) ← step (identifier .fieldName)
    step (expect .colon .fieldColon)
    let value ← again .expression
    let _ ← step (accept .comma)
    return ⟨name, value, token.span.join value.span⟩ :: (← again .fieldInits)
  | _, .type => do
    let (name, _) ← step (identifier .typeName)
    again (.stars (.ofName name))
  | _, .stars ty => do if ← step (accept .star) then again (.stars (.ptr ty)) else return ty
  | _, .letStatement start => do
    let (name, _) ← step (identifier .variableName)
    step (expect .colon .variableColon)
    let ty ← again .type
    let init ← if ← step (accept .equal) then some <$> again .expression else pure none
    return .letIn (start.join (← step lastSpan)) name ty init
  | _, .returnStatement start => do
    if (← step (sees .semicolon)) || (← step (sees .rightBrace)) then return .ret start none
    let value ← again .expression
    return .ret (start.join value.span) (some value)
  | _, .test keyword => do
    step (expect .leftParen (.testOpen keyword))
    let e ← again .expression
    step (expect .rightParen .testClose)
    return e
  | _, .ifChain => do
    let e ← again (.test .if)
    let body ← again .block
    if ← step (acceptKeyword .else) then
      if ← step (acceptKeyword .if) then return .branch e body (← again .ifChain)
      else return .branch e body (.otherwise (← again .block))
    else return .branch e body .done
  | _, .ifStatement start => do
    let chain ← again .ifChain
    return .cond (start.join (← step lastSpan)) chain
  | _, .whileStatement start => do
    let e ← again (.test .while)
    let body ← again .block
    return .while (start.join body.span) e body
  | _, .forInit => do
    let start := (← step peek).span
    if ← step (acceptKeyword .let) then again (.letStatement start) else .expr <$> again .expression
  | _, .forStatement start => do
    step (expect .leftParen .forOpen)
    let init ← again .forInit
    step (expect .semicolon .forInitEnd)
    let e ← again .expression
    step (expect .semicolon .forTestEnd)
    let increment ← again .expression
    step (expect .rightParen .forClose)
    let body ← again .block
    return .for (start.join body.span) init e increment body
  | _, .statement => do
    let start := (← step peek).span
    if ← step (acceptKeyword .let) then again (.letStatement start)
    else if ← step (acceptKeyword .return) then again (.returnStatement start)
    else if ← step (acceptKeyword .if) then again (.ifStatement start)
    else if ← step (acceptKeyword .while) then again (.whileStatement start)
    else if ← step (acceptKeyword .for) then again (.forStatement start)
    else .expr <$> again .expression
  | _, .statements => do
    if (← step (sees .rightBrace)) || (← step atEnd) then return []
    let first ← again .statement
    let _ ← step (accept .semicolon)
    return first :: (← again .statements)
  | _, .block => do
    step (expect .leftBrace .blockOpen)
    let start ← step lastSpan
    let stmts ← again .statements
    step (expect .rightBrace .blockClose)
    return ⟨stmts, start.join (← step lastSpan)⟩
  | _, .params => do
    let (name, token) ← step (identifier .paramName)
    step (expect .colon .paramColon)
    let ty ← again .type
    let param : Param := ⟨name, ty, token.span.join (← step lastSpan)⟩
    if ← step (accept .comma) then return param :: (← again .params) else return [param]
  | _, .signature => do
    let (name, token) ← step (identifier .functionName)
    step (expect .leftParen .paramsOpen)
    let params ← if ← step (sees .rightParen) then pure [] else again .params
    step (expect .rightParen .paramsClose)
    let returns ← if ← step (accept .colon) then again .type else pure .void
    return ⟨name, token.span, returns, params, token.span.join (← step lastSpan)⟩
  | _, .fields struct seen => do
    if (← step (sees .rightBrace)) || (← step atEnd) then return seen
    let (name, token) ← step (identifier .fieldName)
    if seen.any (·.name == name) then step (failAt token (.duplicateField name struct))
    step (expect .colon .fieldColon)
    let ty ← again .type
    let field : Field := ⟨name, ty, token.span.join (← step lastSpan)⟩
    unless ← step (accept .semicolon) do let _ ← step (accept .comma)
    again (.fields struct (seen ++ [field]))
  | _, .structDecl start => do
    let (name, _) ← step (identifier .structName)
    step (expect .leftBrace .structOpen)
    let fields ← again (.fields name [])
    step (expect .rightBrace .structClose)
    return ⟨name, fields, start.join (← step lastSpan)⟩
  | _, .importDecl start => do
    match ← step peekKind with
    | .string path => do
      let token ← step next
      return .importOf path (start.join token.span)
    | _ => step (expected .importPath)
  | _, .declaration => do
    let start := (← step peek).span
    if ← step (acceptKeyword .function) then
      let signature ← again .signature
      let body ← again .block
      return .function ⟨signature, body, start.join body.span⟩
    else if ← step (acceptKeyword .external) then
      let _ ← step (acceptKeyword .function)
      let signature ← again .signature
      return .external signature (start.join signature.span)
    else if ← step (acceptKeyword .struct) then .struct <$> again (.structDecl start)
    else if ← step (acceptKeyword .imports) then again (.importDecl start)
    else step (expected .declaration)
  | _, .document => do
    if ← step atEnd then return []
    let first ← again .declaration
    let _ ← step (accept .semicolon)
    return first :: (← again .document)

def run : Nat → {α : Type} → Rule α → Attempt α
  | 0, _, _ => fun _ => none
  | n + 1, _, rule => rule.body (run n)

end Rule

end Parser

end StructLang
