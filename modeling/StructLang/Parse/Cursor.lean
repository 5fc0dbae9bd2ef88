import StructLang.Ast
import StructLang.Token

namespace StructLang

inductive Expectation
  | declaration | importPath
  | functionName | paramsOpen | paramName | paramColon | paramsClose
  | structName | structOpen | fieldName | fieldColon | structClose
  | typeName | blockOpen | blockClose
  | variableName | variableColon
  | testOpen (keyword : Keyword) | testClose
  | forOpen | forInitEnd | forTestEnd | forClose
  | expression | groupClose | argsOpen | argsClose | indexClose
  | dotField | arrowField | literalOpen | literalClose
  deriving DecidableEq, Repr

def Expectation.text : Expectation → String
  | .declaration => "'function', 'extern', 'struct' or 'import'"
  | .importPath => "path string after 'import'"
  | .functionName => "function name"
  | .paramsOpen => "'(' after function name"
  | .paramName => "parameter name"
  | .paramColon => "':' after parameter name"
  | .paramsClose => "')' after parameter list"
  | .structName => "struct name"
  | .structOpen => "'\x7b' after struct name"
  | .fieldName => "field name"
  | .fieldColon => "':' after field name"
  | .structClose => "'\x7d' to close struct"
  | .typeName => "type name"
  | .blockOpen => "'\x7b' to open block"
  | .blockClose => "'\x7d' to close block"
  | .variableName => "variable name after 'let'"
  | .variableColon => "':' after variable name"
  | .testOpen keyword => "'(' after '" ++ keyword.spelling ++ "'"
  | .testClose => "')' after condition"
  | .forOpen => "'(' after 'for'"
  | .forInitEnd => "';' after loop initializer"
  | .forTestEnd => "';' after loop condition"
  | .forClose => "')' after loop increment"
  | .expression => "expression"
  | .groupClose => "')' after expression"
  | .argsOpen => "'(' after function name"
  | .argsClose => "')' after arguments"
  | .indexClose => "']' after index"
  | .dotField => "field name after '.'"
  | .arrowField => "field name after '->'"
  | .literalOpen => "'\x7b' in struct literal"
  | .literalClose => "'\x7d' to close struct literal"

inductive ParseFault
  | expected (what : Expectation)
  | duplicateField (field struct : String)
  | invalidTarget
  deriving DecidableEq, Repr

def ParseFault.message : ParseFault → String
  | .expected what => "expected " ++ what.text
  | .duplicateField field struct => "duplicate field '" ++ field ++ "' in struct '" ++ struct ++ "'"
  | .invalidTarget => "invalid assignment target"

structure ParseError where
  fault : ParseFault
  span : Span
  location : Location
  deriving DecidableEq, Repr

def ParseError.message (e : ParseError) : String :=
  "parse error at line " ++ toString e.location.line ++ ", column " ++ toString e.location.column ++
    ": " ++ e.fault.message

def ParseFault.at (fault : ParseFault) (token : Token) : ParseError :=
  ⟨fault, token.span, token.location⟩

structure Cursor where
  last : Span
  rest : List Token

namespace Cursor

def start (tokens : List Token) : Cursor := ⟨default, tokens⟩

/-- The next token; after the last token the end of the text again. -/
def peek (c : Cursor) : Token := c.rest.headD ⟨.eof, "", ⟨c.last.stop, c.last.stop⟩, default⟩

def advance (c : Cursor) : Cursor := ⟨c.peek.span, c.rest.tail⟩

end Cursor

abbrev Parser := StateT Cursor (Except ParseError)

namespace Parser

def peek : Parser Token := return (← get).peek

def peekKind : Parser TokenKind := return (← get).peek.kind

def lastSpan : Parser Span := return (← get).last

def remaining : Parser Nat := return (← get).rest.length

def next : Parser Token := modifyGet fun c => (c.peek, c.advance)

def failAt {α : Type} (token : Token) (fault : ParseFault) : Parser α := throw (fault.at token)

def expected {α : Type} (what : Expectation) : Parser α := do failAt (← peek) (.expected what)

def accept? (kind : TokenKind) : Parser (Option Token) := do
  if (← peekKind) = kind then return some (← next) else return none

def accept (symbol : Symbol) : Parser Bool := return (← accept? (.symbol symbol)).isSome

def acceptKeyword (keyword : Keyword) : Parser Bool := return (← accept? (.keyword keyword)).isSome

def sees (symbol : Symbol) : Parser Bool := return (← peekKind) = .symbol symbol

def atEnd : Parser Bool := return (← peekKind) = .eof

def expect (symbol : Symbol) (what : Expectation) : Parser Unit := do
  unless ← accept symbol do expected what

def identifier (what : Expectation) : Parser (String × Token) := do
  match ← peekKind with
  | .identifier name => return (name, ← next)
  | _ => expected what

end Parser

end StructLang
