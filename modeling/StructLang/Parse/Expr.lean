import StructLang.Parse.Cursor

namespace StructLang.Parser

def comparisonOp? : TokenKind → Option BinaryOp
  | .symbol .equalEqual => some .eq
  | .symbol .less => some .lt
  | .symbol .greater => some .gt
  | .symbol .lessEqual => some .le
  | .symbol .greaterEqual => some .ge
  | _ => none

def additiveOp? : TokenKind → Option BinaryOp
  | .symbol .plus => some .add
  | .symbol .minus => some .sub
  | _ => none

def termOp? : TokenKind → Option BinaryOp
  | .symbol .star => some .mul
  | .symbol .slash => some .div
  | _ => none

def unaryOp? : TokenKind → Option UnaryOp
  | .symbol .minus => some .neg
  | .symbol .star => some .deref
  | .symbol .ampersand => some .ref
  | _ => none

def arguments (self : Parser Expr) : Nat → Parser (List Expr)
  | 0 => return [← self]
  | n + 1 => do
    let arg ← self
    if ← accept .comma then return arg :: (← arguments self n) else return [arg]

def call (self : Parser Expr) (callee : String) (calleeSpan : Span) : Parser Expr := do
  expect .leftParen .argsOpen
  let args ← if ← sees .rightParen then pure [] else arguments self (← remaining)
  expect .rightParen .argsClose
  return .call (calleeSpan.join (← lastSpan)) callee calleeSpan args

def fieldInits (self : Parser Expr) : Nat → Parser (List FieldInit)
  | 0 => return []
  | n + 1 => do
    if (← sees .rightBrace) || (← atEnd) then return []
    let (name, token) ← identifier .fieldName
    expect .colon .fieldColon
    let value ← self
    let _ ← accept .comma
    return ⟨name, value, token.span.join value.span⟩ :: (← fieldInits self n)

def structLiteral (self : Parser Expr) (name : String) (nameSpan : Span) : Parser Expr := do
  expect .leftBrace .literalOpen
  let inits ← fieldInits self (← remaining)
  expect .rightBrace .literalClose
  return .struct (nameSpan.join (← lastSpan)) name inits

/-- A brace after a name opens a struct literal if it is closed at once or a name and a colon
follow. -/
def opensLiteral : List Token → Bool
  | brace :: first :: rest =>
    brace.kind = .symbol .leftBrace &&
      match first.kind, rest with
      | .symbol .rightBrace, _ => true
      | .identifier _, second :: _ => second.kind = .symbol .colon
      | _, _ => false
  | _ => false

def primary (self : Parser Expr) : Parser Expr := do
  let token ← peek
  match token.kind with
  | .symbol .leftParen => do
    let _ ← next
    let inner ← self
    expect .rightParen .groupClose
    return inner.withSpan (token.span.join (← lastSpan))
  | .int value => do
    let _ ← next
    return .int token.span value
  | .float value => do
    let _ ← next
    return .float token.span value
  | .string value => do
    let _ ← next
    return .string token.span value
  | .identifier name => do
    let _ ← next
    if ← sees .leftParen then call self name token.span
    else if opensLiteral (← get).rest then structLiteral self name token.span
    else return .variable token.span name
  | _ => failAt token (.expected .expression)

/-- The accesses that follow a primary expression. `p->f` is the field of what `p` points to. -/
def accesses (self : Parser Expr) : Nat → Expr → Parser Expr
  | 0, e => return e
  | n + 1, e => do
    if ← accept .dot then
      let (name, token) ← identifier .dotField
      accesses self n (.field (e.span.join token.span) e name)
    else if ← accept .arrow then
      let (name, token) ← identifier .arrowField
      accesses self n (.field (e.span.join token.span) (.unary e.span .deref e) name)
    else if ← accept .leftBracket then
      let index ← self
      expect .rightBracket .indexClose
      accesses self n (.index (e.span.join (← lastSpan)) e index)
    else return e

def operand (self : Parser Expr) : Parser Expr := do
  let e ← primary self
  accesses self (← remaining) e

def prefixed (operand : Parser Expr) : Nat → Parser Expr
  | 0 => operand
  | n + 1 => do
    match unaryOp? (← peekKind) with
    | none => operand
    | some op => do
      let token ← next
      let e ← prefixed operand n
      return .unary (token.span.join e.span) op e

def unary (self : Parser Expr) : Parser Expr := do prefixed (operand self) (← remaining)

def chainRest (op? : TokenKind → Option BinaryOp) (operand : Parser Expr) : Nat → Expr → Parser Expr
  | 0, lhs => return lhs
  | n + 1, lhs => do
    match op? (← peekKind) with
    | none => return lhs
    | some op => do
      let _ ← next
      let rhs ← operand
      chainRest op? operand n (.binary (lhs.span.join rhs.span) op lhs rhs)

def chain (op? : TokenKind → Option BinaryOp) (operand : Parser Expr) : Parser Expr := do
  let lhs ← operand
  chainRest op? operand (← remaining) lhs

def term (self : Parser Expr) : Parser Expr := chain termOp? (unary self)

def additive (self : Parser Expr) : Parser Expr := chain additiveOp? (term self)

def comparison (self : Parser Expr) : Parser Expr := chain comparisonOp? (additive self)

def assignment (self : Parser Expr) : Parser Expr := do
  let target ← comparison self
  match ← accept? (.symbol .equal) with
  | none => return target
  | some token => do
    unless target.isPlace do failAt token .invalidTarget
    let value ← self
    return .assign (target.span.join value.span) target value

def expressionWithin : Nat → Parser Expr
  | 0 => expected .expression
  | depth + 1 => assignment (expressionWithin depth)

def expression : Parser Expr := do expressionWithin (← remaining)

end StructLang.Parser
