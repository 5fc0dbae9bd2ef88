import StructLang.Parse.Document

namespace StructLang

def Cursor.lastAfter (c : Cursor) (ts : List Token) : Span := ts.getLast?.elim c.last (·.span)

namespace Parser

variable {α β : Type} {c : Cursor}

theorem ok_of_bind {p : Parser α} {f : α → Parser β} {b : β} {c' : Cursor} (ran : (p >>= f) c = .ok (b, c')) :
    ∃ a mid, p c = .ok (a, mid) ∧ f a mid = .ok (b, c') := by
  change (p c >>= fun r => f r.1 r.2) = _ at ran
  cases read : p c with
  | error e =>
    rw [read] at ran
    cases ran
  | ok r =>
    rw [read] at ran
    exact ⟨r.1, r.2, rfl, ran⟩

theorem rest_of_peek (inside : c.peek.kind ≠ .eof) : c.rest = c.peek :: c.rest.tail := by
  cases rest : c.rest with
  | nil =>
    rw [Cursor.peek, rest] at inside
    exact absurd rfl inside
  | cons t ts => simp [Cursor.peek, rest]

theorem accept?_eq (kind : TokenKind) (c : Cursor) :
    accept? kind c = .ok (if c.peek.kind = kind then (some c.peek, c.advance) else (none, c)) := by
  change (if c.peek.kind = kind then (do return some (← next)) else return none : Parser (Option Token)) c = _
  split <;> rfl

theorem accepted_eq (kind : TokenKind) (c : Cursor) : (do return (← accept? kind).isSome : Parser Bool) c =
    .ok (if c.peek.kind = kind then (true, c.advance) else (false, c)) := by
  change (accept? kind c).bind (fun r => .ok (r.1.isSome, r.2)) = _
  rw [accept?_eq]
  split <;> rfl

end Parser

/-- A text that is parsed has been divided into tokens, and the parser has run on them. -/
theorem exists_run {text : String} {d : Document} (parsed : parse text = .ok d) :
    ∃ tokens c, lex text = .ok tokens ∧ Parser.document.run (.start tokens) = .ok (d, c) := by
  rw [parse] at parsed
  cases lexed : lex text with
  | error e =>
    rw [lexed] at parsed
    cases parsed
  | ok tokens =>
    rw [lexed] at parsed
    change ((Parser.document.run (.start tokens)).map (·.1)).mapError ReadError.parse = _ at parsed
    cases ran : Parser.document.run (.start tokens) with
    | error e =>
      rw [ran] at parsed
      cases parsed
    | ok result =>
      rw [ran] at parsed
      cases parsed
      exact ⟨tokens, result.2, rfl, ran⟩

end StructLang
