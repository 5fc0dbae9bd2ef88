import Mathlib
import StructLang.Proofs.Parse.Regular

namespace StructLang

open Grammar

namespace Parser

/-- A parser of documents reads tokens that are derived by the grammar. -/
theorem reads_declarations (n : Nat) (c : Cursor) (d : Document) (c' : Cursor) (ran : declarations n c = .ok (d, c'))
    (enough : c.rest.length ≤ n := by exact Nat.le_refl _) :
    ∃ ts, c.rest = ts ++ c'.rest ∧ (∀ t ∈ ts, t.kind ≠ .eof) ∧ c'.last = c.lastAfter ts ∧
      IsDocument (ts.map (·.kind)) d := by
  obtain ⟨ts, passed, forms, -⟩ := passed_declarations enough ran
  exact ⟨ts, passed.rest, passed.inside, passed.last, forms.derived⟩

theorem length_lt_of_declaration {c c' : Cursor} {d : Decl} (ran : declaration c = .ok (d, c')) :
    c'.rest.length < c.rest.length := by
  obtain ⟨ts, passed, forms, -⟩ := (serves_declaration _ _ c (Nat.lt_succ_self _) (Nat.le_refl _)).passed ran
  have some := length_pos_of_kinds forms.derived.ne_nil
  rw [passed.rest, List.length_append]
  omega

theorem length_le_of_accept {symbol : Symbol} {c c' : Cursor} {accepted : Bool}
    (ran : accept symbol c = .ok (accepted, c')) : c'.rest.length ≤ c.rest.length := by
  rw [show accept symbol c = _ from accepted_eq _ c] at ran
  split at ran <;> cases ran
  · rw [Cursor.advance, List.length_tail]
    omega
  · exact Nat.le_refl _

/-- There are rounds enough to reach the end of the text, since every declaration has tokens. -/
theorem peek_of_declarations : (n : Nat) → {c c' : Cursor} → {d : Document} → c.rest.length ≤ n →
    declarations n c = .ok (d, c') → c'.peek.kind = .eof
  | 0, c, c', d, enough, ran => by
    cases ran
    have none : c.rest = [] := List.length_eq_zero_iff.mp (Nat.le_zero.mp enough)
    rw [Cursor.peek, none]
    rfl
  | n + 1, c, c', d, enough, ran => by
    obtain ⟨ended, c₁, looked, ran⟩ := ok_of_bind ran
    cases looked
    by_cases atEnd : c.peek.kind = .eof
    · rw [if_pos (decide_eq_true atEnd)] at ran
      cases ran
      exact atEnd
    · rw [if_neg (by rw [decide_eq_true_eq]; exact atEnd)] at ran
      obtain ⟨first, c₂, declared, ran⟩ := ok_of_bind ran
      obtain ⟨_, c₃, accepted, ran⟩ := ok_of_bind ran
      obtain ⟨rest, c₄, others, ran⟩ := ok_of_bind ran
      cases ran
      have shorter := length_lt_of_declaration declared
      have := length_le_of_accept accepted
      exact peek_of_declarations n (by omega) others

end Parser

/-- What stands before the first end of the text. -/
theorem append_eq_of_eof {body ts rest : List Token} {last t : Token} (inside : ∀ t ∈ body, t.kind ≠ .eof)
    (inside' : ∀ t ∈ ts, t.kind ≠ .eof) (ended : last.kind = .eof) (ended' : t.kind = .eof)
    (same : body ++ [last] = ts ++ t :: rest) : body = ts ∧ [last] = t :: rest := by
  have front (front back : List Token) (e : Token) (inside : ∀ t ∈ front, t.kind ≠ .eof) (ended : e.kind = .eof) :
      (front ++ e :: back).takeWhile (fun t => decide (t.kind ≠ .eof)) = front := by
    rw [List.takeWhile_append_of_pos (by simpa using inside), List.takeWhile_cons_of_neg (by simpa using ended),
      List.append_nil]
  have equal : body = ts := by
    rw [← front body [] last inside ended, same, front ts rest t inside' ended']
  subst equal
  exact ⟨rfl, List.append_cancel_left same⟩

/-- A parser that stops at the end of the text has read everything before it. -/
theorem Parser.Passed.whole {c c' : Cursor} {body ts : List Token} {last : Token} (passed : Passed c ts c')
    (rest : c.rest = body ++ [last]) (inside : ∀ t ∈ body, t.kind ≠ .eof) (ended : last.kind = .eof)
    (atEnd : c'.peek.kind = .eof) : body = ts := by
  have ahead : last ∈ c.rest := rest ▸ List.mem_append_right body (List.mem_singleton_self last)
  obtain ⟨t, others, left⟩ := List.exists_cons_of_ne_nil (List.ne_nil_of_mem (passed.peek_mem ahead ended))
  have split := passed.rest
  rw [rest, left] at split
  rw [Cursor.peek, left] at atEnd
  exact (append_eq_of_eof inside passed.inside ended atEnd split).1

/-- A document that the parser returns is the tree of a derivation of all tokens before the end, which is all that the
parser has left, and it is regular. -/
theorem accepted_documents_are_derivable {body : List Token} {last : Token} {d : Document}
    (inside : ∀ t ∈ body, t.kind ≠ .eof) (ended : last.kind = .eof)
    (parsed : parseTokens (body ++ [last]) = .ok d) :
    IsDocument (body.map (·.kind)) d ∧ d.isRegular = true ∧
      ∃ c, Parser.document.run (.start (body ++ [last])) = .ok (d, c) ∧ c.rest = [last] := by
  rw [parseTokens] at parsed
  cases ran : Parser.document.run (.start (body ++ [last])) with
  | error e =>
    rw [ran] at parsed
    cases parsed
  | ok result =>
    obtain ⟨d', c⟩ := result
    rw [ran] at parsed
    cases parsed
    have peeked : c.peek.kind = .eof := Parser.peek_of_declarations _ (Nat.le_refl _) ran
    obtain ⟨ts, split, inside', _, derived⟩ := Parser.reads_declarations _ _ _ _ ran
    have plain := Parser.ensures_declarations _ _ _ _ ran
    cases rest : c.rest with
    | nil =>
      rw [rest, List.append_nil] at split
      have member : last ∈ ts := split ▸ List.mem_append_right body (List.mem_singleton_self last)
      exact absurd ended (inside' last member)
    | cons t others =>
      rw [Cursor.peek, rest] at peeked
      rw [rest] at split
      obtain ⟨rfl, same⟩ := append_eq_of_eof inside inside' ended peeked split
      exact ⟨derived, derived.isRegular plain, c, rfl, same ▸ rest⟩

/-- `struct P { a: i64, }` and `function set(p: P*) { p->a = -1; if (2 < 3) { return } }`. -/
def setter : List Token :=
  ([.keyword .struct, .identifier "P", .symbol .leftBrace, .identifier "a", .symbol .colon, .identifier "i64",
    .symbol .comma, .symbol .rightBrace, .keyword .function, .identifier "set", .symbol .leftParen, .identifier "p",
    .symbol .colon, .identifier "P", .symbol .star, .symbol .rightParen, .symbol .leftBrace, .identifier "p",
    .symbol .arrow, .identifier "a", .symbol .equal, .symbol .minus, .int 1, .symbol .semicolon, .keyword .if,
    .symbol .leftParen, .int 2, .symbol .less, .int 3, .symbol .rightParen, .symbol .leftBrace, .keyword .return,
    .symbol .rightBrace, .symbol .rightBrace] : List TokenKind).map fun kind => ⟨kind, "", default, default⟩

theorem accepted_documents_are_derivable_setter :
    ∃ d, parseTokens (setter ++ [⟨.eof, "", default, default⟩]) = .ok d ∧
      IsDocument (setter.map (·.kind)) d ∧ d.isRegular = true := by
  have accepted : (parseTokens (setter ++ [⟨.eof, "", default, default⟩])).isOk = true := by cbv
  cases parsed : parseTokens (setter ++ [⟨.eof, "", default, default⟩]) with
  | error e =>
    rw [parsed] at accepted
    cases accepted
  | ok d =>
    obtain ⟨derived, regular, _⟩ := accepted_documents_are_derivable (by decide) rfl parsed
    exact ⟨d, rfl, derived, regular⟩

end StructLang
