import StructLang.Parse.Expr
import StructLang.Token.Lexer

namespace StructLang.Parser

def stars : Nat → Ty → Parser Ty
  | 0, ty => return ty
  | n + 1, ty => do if ← accept .star then stars n (.ptr ty) else return ty

def type : Parser Ty := do
  let (name, _) ← identifier .typeName
  stars (← remaining) (.ofName name)

def letStatement (start : Span) : Parser Stmt := do
  let (name, _) ← identifier .variableName
  expect .colon .variableColon
  let ty ← type
  let init ← if ← accept .equal then some <$> expression else pure none
  return .letIn (start.join (← lastSpan)) name ty init

def returnStatement (start : Span) : Parser Stmt := do
  if (← sees .semicolon) || (← sees .rightBrace) then return .ret start none
  let value ← expression
  return .ret (start.join value.span) (some value)

def test (keyword : Keyword) : Parser Expr := do
  expect .leftParen (.testOpen keyword)
  let e ← expression
  expect .rightParen .testClose
  return e

def ifChain (block : Parser Block) : Nat → Parser IfChain
  | 0 => expected (.testOpen .if)
  | n + 1 => do
    let e ← test .if
    let body ← block
    if ← acceptKeyword .else then
      if ← acceptKeyword .if then return .branch e body (← ifChain block n)
      else return .branch e body (.otherwise (← block))
    else return .branch e body .done

def ifStatement (block : Parser Block) (start : Span) : Parser Stmt := do
  let chain ← ifChain block (← remaining)
  return .cond (start.join (← lastSpan)) chain

def whileStatement (block : Parser Block) (start : Span) : Parser Stmt := do
  let e ← test .while
  let body ← block
  return .while (start.join body.span) e body

def forInit : Parser Stmt := do
  let start := (← peek).span
  if ← acceptKeyword .let then letStatement start else .expr <$> expression

def forStatement (block : Parser Block) (start : Span) : Parser Stmt := do
  expect .leftParen .forOpen
  let init ← forInit
  expect .semicolon .forInitEnd
  let e ← expression
  expect .semicolon .forTestEnd
  let step ← expression
  expect .rightParen .forClose
  let body ← block
  return .for (start.join body.span) init e step body

def statement (block : Parser Block) : Parser Stmt := do
  let start := (← peek).span
  if ← acceptKeyword .let then letStatement start
  else if ← acceptKeyword .return then returnStatement start
  else if ← acceptKeyword .if then ifStatement block start
  else if ← acceptKeyword .while then whileStatement block start
  else if ← acceptKeyword .for then forStatement block start
  else .expr <$> expression

def statements (block : Parser Block) : Nat → Parser (List Stmt)
  | 0 => return []
  | n + 1 => do
    if (← sees .rightBrace) || (← atEnd) then return []
    let first ← statement block
    let _ ← accept .semicolon
    return first :: (← statements block n)

/-- Blocks nested up to a depth; without depth left only the end of the text is possible. -/
def blockWithin : Nat → Parser Block
  | 0 => expected .blockOpen
  | depth + 1 => do
    expect .leftBrace .blockOpen
    let start ← lastSpan
    let stmts ← statements (blockWithin depth) (← remaining)
    expect .rightBrace .blockClose
    return ⟨stmts, start.join (← lastSpan)⟩

def block : Parser Block := do blockWithin (← remaining)

def params : Nat → Parser (List Param)
  | 0 => expected .paramName
  | n + 1 => do
    let (name, token) ← identifier .paramName
    expect .colon .paramColon
    let ty ← type
    let param : Param := ⟨name, ty, token.span.join (← lastSpan)⟩
    if ← accept .comma then return param :: (← params n) else return [param]

def signature : Parser Signature := do
  let (name, token) ← identifier .functionName
  expect .leftParen .paramsOpen
  let params ← if ← sees .rightParen then pure [] else params (← remaining)
  expect .rightParen .paramsClose
  let returns ← if ← accept .colon then type else pure .void
  return ⟨name, token.span, returns, params, token.span.join (← lastSpan)⟩

def fields (struct : String) : Nat → List Field → Parser (List Field)
  | 0, seen => return seen
  | n + 1, seen => do
    if (← sees .rightBrace) || (← atEnd) then return seen
    let (name, token) ← identifier .fieldName
    if seen.any (·.name == name) then failAt token (.duplicateField name struct)
    expect .colon .fieldColon
    let ty ← type
    let field : Field := ⟨name, ty, token.span.join (← lastSpan)⟩
    unless ← accept .semicolon do let _ ← accept .comma
    fields struct n (seen ++ [field])

def structDecl (start : Span) : Parser StructDecl := do
  let (name, _) ← identifier .structName
  expect .leftBrace .structOpen
  let fields ← fields name (← remaining) []
  expect .rightBrace .structClose
  return ⟨name, fields, start.join (← lastSpan)⟩

def importDecl (start : Span) : Parser Decl := do
  match ← peekKind with
  | .string path => do
    let token ← next
    return .importOf path (start.join token.span)
  | _ => expected .importPath

def declaration : Parser Decl := do
  let start := (← peek).span
  if ← acceptKeyword .function then
    let signature ← signature
    let body ← block
    return .function ⟨signature, body, start.join body.span⟩
  else if ← acceptKeyword .external then
    let _ ← acceptKeyword .function
    let signature ← signature
    return .external signature (start.join signature.span)
  else if ← acceptKeyword .struct then .struct <$> structDecl start
  else if ← acceptKeyword .imports then importDecl start
  else expected .declaration

def declarations : Nat → Parser Document
  | 0 => return []
  | n + 1 => do
    if ← atEnd then return []
    let first ← declaration
    let _ ← accept .semicolon
    return first :: (← declarations n)

def document : Parser Document := do declarations (← remaining)

end StructLang.Parser

namespace StructLang

def parseTokens (tokens : List Token) : Except ParseError Document :=
  (Parser.document.run (.start tokens)).map (·.1)

inductive ReadError
  | lex (error : LexError)
  | parse (error : ParseError)
  deriving DecidableEq, Repr

def ReadError.message : ReadError → String
  | .lex e => e.message
  | .parse e => e.message

def parse (source : String) : Except ReadError Document := do
  let tokens ← (lex source).mapError .lex
  (parseTokens tokens).mapError .parse

end StructLang
