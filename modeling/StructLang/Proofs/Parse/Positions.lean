import Mathlib
import StructLang.Proofs.Parse.Declarations
import StructLang.Proofs.Text.Locations
import StructLang.Proofs.Token.Partition

namespace StructLang

def Source.Locates (source : Source) (span : Span) (location : Location) : Prop := location = source.location span.start

theorem Place.advance_append (p : Place) (front back : List Char) :
    p.advance (front ++ back) = (p.advance front).advance back := List.foldl_append ..

structure Place.CountedTo (source : Source) (rest : List Char) (place : Place) : Prop where
  passed : ∃ front, source.text.toList = front ++ rest ∧ place = start.advance front

namespace Place.CountedTo

variable {source : Source} {place : Place}

theorem start (source : Source) : CountedTo source source.text.toList Place.start := ⟨[], rfl, rfl⟩

theorem advance {taken rest : List Char} (counted : CountedTo source (taken ++ rest) place) :
    CountedTo source rest (place.advance taken) := by
  obtain ⟨front, split, same⟩ := counted.passed
  exact ⟨front ++ taken, by rw [split, List.append_assoc], by rw [same, advance_append]⟩

theorem location {rest : List Char} (counted : CountedTo source rest place) :
    place.location = source.location place.offset := by
  obtain ⟨front, split, same⟩ := counted.passed
  have offset : place.offset = front.length := by
    rw [same, offset_advance]
    exact Nat.zero_add _
  rw [offset, source.location_append split, same]

end Place.CountedTo

namespace Lexer

/-- Each piece is found at the place that counting up to it leads to. -/
theorem locates_lexFrom {source : Source} {place : Place} {cs : List Char} (counted : place.CountedTo source cs) :
    (∀ tokens, lexFrom place cs = .ok tokens → ∀ t ∈ tokens, source.Locates t.span t.location) ∧
      ∀ e, lexFrom place cs = .error e → source.Locates e.span e.location := by
  have here := counted.location
  fun_induction lexFrom place cs with
  | case1 place =>
    constructor
    · rintro tokens ⟨⟩ t member
      rw [List.mem_singleton.mp member]
      exact here
    · rintro e ⟨⟩
  | case2 place c rest found after span fault piece =>
    constructor
    · rintro tokens ⟨⟩
    · rintro e ⟨⟩
      exact here
  | case3 place c rest found after piece ih =>
    rw [← scan_append c rest] at counted
    exact ih counted.advance counted.advance.location
  | case4 place c rest found after span kind piece ih =>
    rw [← scan_append c rest] at counted
    obtain ⟨inTokens, inError⟩ := ih counted.advance counted.advance.location
    cases others : lexFrom after found.rest with
    | error e' =>
      constructor
      · rintro tokens ⟨⟩
      · rintro e ⟨⟩
        exact inError _ others
    | ok more =>
      constructor
      · rintro tokens ⟨⟩ t member
        rcases List.mem_cons.mp member with rfl | later
        · exact here
        · exact inTokens more others t later
      · rintro e ⟨⟩

end Lexer

section Errors

variable {source : Source}

theorem locates_token {tokens : List Token} (lexed : lex source.text = .ok tokens) {t : Token} (member : t ∈ tokens) :
    source.Locates t.span t.location := (Lexer.locates_lexFrom (.start source)).1 tokens lexed t member

/-- The errors of the parser are at tokens. -/
theorem error_at_token {tokens : List Token} (lexed : lex source.text = .ok tokens) {e : ParseError}
    (failed : parseTokens tokens = .error e) : ∃ t ∈ tokens, ∃ fault, e = ParseFault.at fault t := by
  have parts : Partition source.text.toList 0 tokens := Lexer.partition_lexFrom .start rfl (Nat.zero_le _) lexed
  obtain ⟨words, last, rfl, ended, -⟩ := parts.ends
  have ahead : last ∈ (Cursor.start (words ++ [last])).rest := List.mem_append_right _ (List.mem_singleton_self last)
  refine (Parser.tracks_document _).error_mem ahead ended ?_
  unfold parseTokens at failed
  change Except.map _ (Parser.document (.start (words ++ [last]))) = _ at failed
  cases result : Parser.document (.start (words ++ [last])) with
  | error e' =>
    rw [result] at failed
    cases failed
    rfl
  | ok r =>
    rw [result] at failed
    cases failed

theorem parse_error_cases {text : String} {e : ParseError} (failed : parse text = .error (.parse e)) :
    ∃ tokens, lex text = .ok tokens ∧ parseTokens tokens = .error e := by
  unfold parse at failed
  cases lexed : lex text with
  | error e' =>
    rw [lexed] at failed
    cases failed
  | ok tokens =>
    rw [lexed] at failed
    refine ⟨tokens, rfl, ?_⟩
    change (parseTokens tokens).mapError ReadError.parse = _ at failed
    cases parsed : parseTokens tokens with
    | error e' =>
      rw [parsed] at failed
      cases failed
      rfl
    | ok d =>
      rw [parsed] at failed
      cases failed

end Errors

/-- Tokens and errors are where the text has them, and a location leads back to the character that it was made for. -/
theorem locations_agree (source : Source) :
    (∀ tokens, lex source.text = .ok tokens → ∀ t ∈ tokens, t.location = source.location t.span.start) ∧
    (∀ e, lex source.text = .error e → e.location = source.location e.span.start) ∧
    (∀ e, parse source.text = .error (.parse e) → e.location = source.location e.span.start) ∧
    (∀ offset c, source.text.toList[offset]? = some c → c ≠ '\n' →
      ¬(c = '\r' ∧ source.text.toList[offset + 1]? = some '\n') →
      (source.line (source.location offset).line)[(source.location offset).column - 1]? = some c) ∧
    ∀ offset later, offset < later → (source.location offset).Precedes (source.location later) := by
  refine ⟨fun tokens lexed t member => locates_token lexed member, ?_, fun e failed => ?_, ?_, ?_⟩
  · exact (Lexer.locates_lexFrom (.start source)).2
  · obtain ⟨tokens, lexed, failed⟩ := parse_error_cases failed
    obtain ⟨t, member, fault, rfl⟩ := error_at_token lexed failed
    exact locates_token lexed member
  · exact fun offset c here shown notEnd => source.line_location ⟨here, shown, notEnd⟩
  · exact fun offset later before => source.location_precedes before

/-- A line that ends with two characters, a string and a comment that go over lines, a carriage return that ends no line
and a name that is missing at the end of the text. -/
def scattered : Source := ⟨"main.ll", "import\r\n\"a\nb\" ; /*\n*/ \rstruct"⟩

def unclosed : Source := ⟨"main.ll", "f\r\n \"x\ny"⟩

theorem locations_agree_scattered :
    (∃ tokens, lex scattered.text = .ok tokens ∧ tokens.map (·.location) = [⟨1, 1⟩, ⟨2, 1⟩, ⟨3, 4⟩, ⟨4, 5⟩, ⟨4, 11⟩] ∧
      ∀ t ∈ tokens, t.location = scattered.location t.span.start) ∧
    (∃ e, lex unclosed.text = .error e ∧ e.location = ⟨2, 2⟩ ∧ e.location = unclosed.location e.span.start) ∧
    (∃ e, parse scattered.text = .error (.parse e) ∧ e.location = ⟨4, 11⟩ ∧
      e.location = scattered.location e.span.start) ∧
    (scattered.line (scattered.location 22).line)[(scattered.location 22).column - 1]? = some '\r' ∧
    (scattered.location 18).Precedes (scattered.location 19) := by
  have lexed : lex scattered.text = .ok
      [⟨.keyword .imports, "import", ⟨0, 6⟩, ⟨1, 1⟩⟩, ⟨.string "a\nb", "\"a\nb\"", ⟨8, 13⟩, ⟨2, 1⟩⟩,
        ⟨.symbol .semicolon, ";", ⟨14, 15⟩, ⟨3, 4⟩⟩, ⟨.keyword .struct, "struct", ⟨23, 29⟩, ⟨4, 5⟩⟩,
        ⟨.eof, "", ⟨29, 29⟩, ⟨4, 11⟩⟩] := by cbv
  have unlexed : lex unclosed.text = .error ⟨.openString, ⟨4, 8⟩, ⟨2, 2⟩⟩ := by cbv
  have unparsed : parse scattered.text = .error (.parse ⟨.expected .structName, ⟨29, 29⟩, ⟨4, 11⟩⟩) := by cbv
  obtain ⟨inTokens, -, inParser, shown, grows⟩ := locations_agree scattered
  obtain ⟨-, inLexer, -⟩ := locations_agree unclosed
  refine ⟨⟨_, lexed, rfl, inTokens _ lexed⟩, ⟨_, unlexed, rfl, inLexer _ unlexed⟩,
    ⟨_, unparsed, rfl, inParser _ unparsed⟩, ?_, grows 18 19 (by decide)⟩
  exact shown 22 '\r' (by decide) (by decide) (by decide)

end StructLang
