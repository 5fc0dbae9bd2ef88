import StructLang.Binary64
import StructLang.Source

namespace StructLang

inductive Symbol
  | leftParen | rightParen | leftBrace | rightBrace | leftBracket | rightBracket
  | comma | dot | colon | semicolon
  | plus | minus | star | slash | ampersand
  | equal | equalEqual | greater | greaterEqual | less | lessEqual
  | arrow
  deriving DecidableEq, Repr, Inhabited

inductive Keyword
  | function | external | struct | imports | let | return | if | else | while | for
  deriving DecidableEq, Repr, Inhabited

def Keyword.spelling : Keyword → String
  | .function => "function"
  | .external => "extern"
  | .struct => "struct"
  | .imports => "import"
  | .let => "let"
  | .return => "return"
  | .if => "if"
  | .else => "else"
  | .while => "while"
  | .for => "for"

def Keyword.all : List Keyword :=
  [.function, .external, .struct, .imports, .let, .return, .if, .else, .while, .for]

def Keyword.ofSpelling? (word : String) : Option Keyword :=
  Keyword.all.find? (·.spelling == word)

inductive TokenKind
  | symbol (symbol : Symbol)
  | keyword (keyword : Keyword)
  | identifier (name : String)
  | int (value : Int64)
  | float (value : Binary64)
  | string (value : String)
  | eof
  deriving DecidableEq, Repr, Inhabited

structure Token where
  kind : TokenKind
  lexeme : String
  span : Span
  location : Location
  deriving DecidableEq, Repr, Inhabited

inductive LexFault
  | unexpected (c : Char)
  | openString
  | openComment
  | intRange (digits : String)
  deriving DecidableEq, Repr

def LexFault.message : LexFault → String
  | .unexpected c => "unexpected character '" ++ c.toString ++ "'"
  | .openString => "unterminated string literal"
  | .openComment => "unterminated block comment"
  | .intRange digits => "invalid int literal '" ++ digits ++ "'"

structure LexError where
  fault : LexFault
  span : Span
  location : Location
  deriving DecidableEq, Repr

def LexError.message (e : LexError) : String :=
  "lex error at line " ++ toString e.location.line ++ ", column " ++ toString e.location.column ++
    ": " ++ e.fault.message

end StructLang
