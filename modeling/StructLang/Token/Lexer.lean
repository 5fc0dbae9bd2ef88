import StructLang.Token

namespace StructLang

namespace Lexer

def isIdentStart (c : Char) : Bool := c == '_' || c.isAlpha

def isIdentRest (c : Char) : Bool := c == '_' || c.isAlphanum

inductive Piece
  | token (kind : TokenKind)
  | skipped
  deriving DecidableEq, Repr

structure Scan where
  taken : List Char
  rest : List Char
  piece : Except LexFault Piece

def Scan.symbol (taken rest : List Char) (s : Symbol) : Scan := ⟨taken, rest, .ok (.token (.symbol s))⟩

def unescape : Char → Char
  | 'n' => '\n'
  | 'r' => '\r'
  | 't' => '\t'
  | '0' => Char.ofNat 0
  | c => c

structure StringTail where
  taken : List Char
  value : List Char
  rest : List Char
  closed : Bool

def stringTail : List Char → StringTail
  | [] => ⟨[], [], [], false⟩
  | '"' :: rest => ⟨['"'], [], rest, true⟩
  | ['\\'] => ⟨['\\'], [], [], false⟩
  | '\\' :: c :: rest =>
    let tail := stringTail rest
    ⟨'\\' :: c :: tail.taken, unescape c :: tail.value, tail.rest, tail.closed⟩
  | c :: rest =>
    let tail := stringTail rest
    ⟨c :: tail.taken, c :: tail.value, tail.rest, tail.closed⟩

def scanString (rest : List Char) : Scan :=
  let tail := stringTail rest
  ⟨'"' :: tail.taken, tail.rest,
    if tail.closed then .ok (.token (.string (String.ofList tail.value))) else .error .openString⟩

def commentTail : List Char → List Char × List Char × Bool
  | [] => ([], [], false)
  | '*' :: '/' :: rest => (['*', '/'], rest, true)
  | c :: rest =>
    let (taken, rest, closed) := commentTail rest
    (c :: taken, rest, closed)

def scanComment (rest : List Char) : Scan :=
  let (taken, rest, closed) := commentTail rest
  ⟨'/' :: '*' :: taken, rest, if closed then .ok .skipped else .error .openComment⟩

def scanLineComment (rest : List Char) : Scan :=
  ⟨'/' :: '/' :: rest.takeWhile (· != '\n'), rest.dropWhile (· != '\n'), .ok .skipped⟩

def digitsValue (digits : List Char) : Nat :=
  digits.foldl (fun n c => 10 * n + (c.toNat - '0'.toNat)) 0

def intPiece (digits : List Char) : Except LexFault Piece :=
  if digitsValue digits < 0x8000000000000000 then .ok (.token (.int (Int64.ofNat (digitsValue digits))))
  else .error (.intRange (String.ofList digits))

def scanNumber (cs : List Char) : Scan :=
  let whole := cs.takeWhile Char.isDigit
  match cs.dropWhile Char.isDigit with
  | '.' :: c :: rest =>
    if c.isDigit then
      let fraction := (c :: rest).takeWhile Char.isDigit
      ⟨whole ++ '.' :: fraction, (c :: rest).dropWhile Char.isDigit,
        .ok (.token (.float (.ofDecimal (digitsValue (whole ++ fraction)) fraction.length)))⟩
    else ⟨whole, '.' :: c :: rest, intPiece whole⟩
  | rest => ⟨whole, rest, intPiece whole⟩

def wordKind (word : String) : TokenKind :=
  match Keyword.ofSpelling? word with
  | some keyword => .keyword keyword
  | none => .identifier word

def scanWord (cs : List Char) : Scan :=
  ⟨cs.takeWhile isIdentRest, cs.dropWhile isIdentRest,
    .ok (.token (wordKind (String.ofList (cs.takeWhile isIdentRest))))⟩

def symbol? : Char → Option Symbol
  | '(' => some .leftParen
  | ')' => some .rightParen
  | '{' => some .leftBrace
  | '}' => some .rightBrace
  | '[' => some .leftBracket
  | ']' => some .rightBracket
  | ',' => some .comma
  | '.' => some .dot
  | ':' => some .colon
  | ';' => some .semicolon
  | '+' => some .plus
  | '*' => some .star
  | '&' => some .ampersand
  | '-' => some .minus
  | '=' => some .equal
  | '<' => some .less
  | '>' => some .greater
  | '/' => some .slash
  | _ => none

def isGap (c : Char) : Bool := c == ' ' || c == '\r' || c == '\t' || c == '\n'

def scan (c : Char) (rest : List Char) : Scan :=
  match c, rest with
  | '-', '>' :: rest => .symbol ['-', '>'] rest .arrow
  | '=', '=' :: rest => .symbol ['=', '='] rest .equalEqual
  | '<', '=' :: rest => .symbol ['<', '='] rest .lessEqual
  | '>', '=' :: rest => .symbol ['>', '='] rest .greaterEqual
  | '/', '/' :: rest => scanLineComment rest
  | '/', '*' :: rest => scanComment rest
  | '"', rest => scanString rest
  | c, rest =>
    match symbol? c with
    | some s => .symbol [c] rest s
    | none =>
      if isGap c then ⟨[c], rest, .ok .skipped⟩
      else if c.isDigit then scanNumber (c :: rest)
      else if isIdentStart c then scanWord (c :: rest)
      else ⟨[c], rest, .error (.unexpected c)⟩

end Lexer

structure Place where
  offset : Nat
  location : Location
  deriving DecidableEq, Repr

namespace Place

def start : Place := ⟨0, ⟨1, 1⟩⟩

def next (p : Place) (c : Char) : Place :=
  ⟨p.offset + 1, if c = '\n' then ⟨p.location.line + 1, 1⟩ else ⟨p.location.line, p.location.column + 1⟩⟩

def advance (p : Place) (cs : List Char) : Place := cs.foldl next p

end Place

namespace Lexer

theorem stringTail_append (cs : List Char) :
    (stringTail cs).taken ++ (stringTail cs).rest = cs := by
  fun_induction stringTail cs <;> simp_all +zetaDelta

theorem commentTail_append (cs : List Char) :
    (commentTail cs).1 ++ (commentTail cs).2.1 = cs := by
  fun_induction commentTail cs <;> simp_all

theorem scanNumber_append (cs : List Char) : (scanNumber cs).taken ++ (scanNumber cs).rest = cs := by
  unfold scanNumber
  have split := List.takeWhile_append_dropWhile (p := Char.isDigit) (l := cs)
  split
  · rename_i c rest tail
    split
    · simp only [List.append_assoc, List.cons_append, List.takeWhile_append_dropWhile]
      rw [← tail, split]
    · simp only [← tail, split]
  · simp only [split]

/-- A scan loses nothing. -/
theorem scan_append (c : Char) (rest : List Char) :
    (scan c rest).taken ++ (scan c rest).rest = c :: rest := by
  unfold scan
  split <;> try rfl
  · simp [scanLineComment, List.takeWhile_append_dropWhile]
  · rename_i tail
    simp [scanComment, commentTail_append tail]
  · simp [scanString, stringTail_append]
  · split
    · rfl
    · repeat' split
      · rfl
      · exact scanNumber_append _
      · simp [scanWord, List.takeWhile_append_dropWhile]
      · rfl

theorem scanNumber_taken_ne_nil (c : Char) (rest : List Char) (digit : c.isDigit) :
    (scanNumber (c :: rest)).taken ≠ [] := by
  unfold scanNumber
  simp only [List.takeWhile_cons, digit, ↓reduceIte]
  split
  · split <;> simp
  · simp

theorem isIdentRest_of_start {c : Char} (h : isIdentStart c) : isIdentRest c := by
  simp only [isIdentStart, isIdentRest, Char.isAlphanum, Bool.or_eq_true] at *
  rcases h with h | h <;> simp [h]

/-- A scan takes at least one character. -/
theorem scan_taken_ne_nil (c : Char) (rest : List Char) : (scan c rest).taken ≠ [] := by
  unfold scan
  split <;> try simp [Scan.symbol, scanLineComment, scanComment, scanString]
  split
  · simp
  · repeat' split
    · simp
    · exact scanNumber_taken_ne_nil _ _ (by assumption)
    · rename_i start
      simp [scanWord, isIdentRest_of_start start]
    · simp

theorem scan_rest_length (c : Char) (rest : List Char) :
    (scan c rest).rest.length < (c :: rest).length := by
  have whole := congrArg List.length (scan_append c rest)
  have some := List.length_pos_iff.mpr (scan_taken_ne_nil c rest)
  simp only [List.length_append] at whole
  omega

def lexFrom (place : Place) : List Char → Except LexError (List Token)
  | [] => .ok [⟨.eof, "", ⟨place.offset, place.offset⟩, place.location⟩]
  | c :: rest =>
    let found := scan c rest
    let after := place.advance found.taken
    let span : Span := ⟨place.offset, after.offset⟩
    match found.piece with
    | .error fault => .error ⟨fault, span, place.location⟩
    | .ok .skipped => lexFrom after found.rest
    | .ok (.token kind) => do
      let tokens ← lexFrom after found.rest
      return ⟨kind, String.ofList found.taken, span, place.location⟩ :: tokens
termination_by cs => cs.length
decreasing_by all_goals exact scan_rest_length c rest

end Lexer

def lex (source : String) : Except LexError (List Token) := Lexer.lexFrom .start source.toList

end StructLang
