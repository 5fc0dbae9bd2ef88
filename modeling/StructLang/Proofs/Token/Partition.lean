import Mathlib
import StructLang.Token.Lexer

namespace StructLang

/-- Text without tokens, and the text behind it. A line comment runs up to a line feed or to the end
of the whole text, a block comment up to the first closing mark behind its opening. -/
inductive Skipped : List Char → List Char → Prop
  | nothing {after} : Skipped [] after
  | blank {c gap after} (blank : c ∈ [' ', '\t', '\r', '\n']) (others : Skipped gap after) :
      Skipped (c :: gap) after
  | line {body gap after} (inLine : '\n' ∉ body) (ends : ∀ c ∈ (gap ++ after).head?, c = '\n')
      (others : Skipped gap after) : Skipped ('/' :: '/' :: (body ++ gap)) after
  | block {body gap after} (unclosed : ¬['*', '/'] <:+: body) (others : Skipped gap after) :
      Skipped ('/' :: '*' :: (body ++ '*' :: '/' :: gap)) after

namespace Lexer

theorem head?_dropWhile_line (cs : List Char) : ∀ c ∈ (cs.dropWhile (· != '\n')).head?, c = '\n' := by
  intro c first
  have stops := List.head?_dropWhile_not (· != '\n') cs
  rw [Option.mem_def.mp first] at stops
  simpa using stops

/-- A block comment that is closed is closed at the first mark. -/
theorem commentTail_closed (cs : List Char) (closed : (commentTail cs).2.2 = true) :
    ∃ body, (commentTail cs).1 = body ++ ['*', '/'] ∧ ¬['*', '/'] <:+: body := by
  fun_induction commentTail cs with
  | case1 => cases closed
  | case2 rest => exact ⟨[], rfl, by simp⟩
  | case3 c rest other taken left open' tail ih =>
    rw [tail] at ih
    obtain ⟨body, same, unclosed⟩ := ih closed
    refine ⟨c :: body, congrArg (c :: ·) same, ?_⟩
    intro mark
    rcases List.infix_cons_iff.mp mark with first | inner
    · obtain ⟨rfl, next⟩ := List.cons_prefix_cons.mp first
      obtain ⟨more, slash⟩ := next
      have split := commentTail_append rest
      rw [tail, same, ← slash] at split
      exact other _ rfl split.symm
    · exact unclosed inner

/-- What a number is read as. -/
theorem scanNumber_piece (cs : List Char) :
    (∃ fault, (scanNumber cs).piece = .error fault) ∨
    (∃ n, (scanNumber cs).piece = .ok (.token (.int n))) ∨ ∃ x, (scanNumber cs).piece = .ok (.token (.float x)) := by
  have whole (digits : List Char) :
      (∃ fault, intPiece digits = .error fault) ∨ ∃ n, intPiece digits = .ok (.token (.int n)) := by
    unfold intPiece
    split
    · exact .inr ⟨_, rfl⟩
    · exact .inl ⟨_, rfl⟩
  unfold scanNumber
  split
  · split
    · exact .inr (.inr ⟨_, rfl⟩)
    · exact (whole _).imp_right .inl
  · exact (whole _).imp_right .inl

/-- A piece without a token adds to the text that is skipped. -/
theorem skipped_scan {c : Char} {rest gap after : List Char} (piece : (scan c rest).piece = .ok .skipped)
    (left : (scan c rest).rest = gap ++ after) (others : Skipped gap after) :
    Skipped ((scan c rest).taken ++ gap) after := by
  revert piece left
  fun_cases scan c rest with
  | case5 tail =>
    intro _ left
    apply @Skipped.line (tail.takeWhile (· != '\n')) gap after _ _ others
    · intro member
      simpa using List.all_eq_true.mp List.all_takeWhile _ member
    · rw [← left]
      exact head?_dropWhile_line tail
  | case6 tail =>
    intro piece _
    have closed : (commentTail tail).2.2 = true := by
      cases open' : (commentTail tail).2.2 with
      | true => rfl
      | false => simp [scanComment, open'] at piece
    obtain ⟨body, taken, unclosed⟩ := commentTail_closed tail closed
    have whole : (scanComment tail).taken ++ gap = '/' :: '*' :: (body ++ '*' :: '/' :: gap) := by
      simp [scanComment, taken]
    rw [whole]
    exact .block unclosed others
  | case7 =>
    intro piece
    unfold scanString at piece
    dsimp only at piece
    split at piece <;> cases piece
  | case9 =>
    intro _ _
    have blank : isGap c = true := by assumption
    apply Skipped.blank _ others
    simp only [isGap, Bool.or_eq_true, beq_iff_eq] at blank
    grind
  | case10 =>
    intro piece
    rcases scanNumber_piece (c :: rest) with ⟨fault, same⟩ | ⟨n, same⟩ | ⟨x, same⟩ <;> rw [same] at piece <;> cases piece
  | _ =>
    intro piece
    cases piece

def IsWord (name : String) : Prop := ∀ c ∈ name.toList, isIdentRest c = true

/-- The end of a text is no piece of it, and identifiers are words. -/
theorem scan_kind {c : Char} {rest : List Char} {kind : TokenKind} (piece : (scan c rest).piece = .ok (.token kind)) :
    kind ≠ .eof ∧ ∀ name, kind = .identifier name → IsWord name := by
  revert piece
  fun_cases scan c rest with
  | case6 tail =>
    unfold scanComment
    dsimp only
    split <;> rintro ⟨⟩
  | case7 =>
    unfold scanString
    dsimp only
    split <;> rintro ⟨⟩
    exact ⟨by rintro ⟨⟩, by rintro _ ⟨⟩⟩
  | case10 =>
    rcases scanNumber_piece (c :: rest) with ⟨fault, same⟩ | ⟨n, same⟩ | ⟨x, same⟩ <;> rw [same] <;> rintro ⟨⟩
    all_goals exact ⟨by rintro ⟨⟩, by rintro _ ⟨⟩⟩
  | case11 =>
    simp only [scanWord, wordKind]
    split <;> rintro ⟨⟩
    · exact ⟨by rintro ⟨⟩, by rintro _ ⟨⟩⟩
    · refine ⟨by rintro ⟨⟩, ?_⟩
      rintro _ ⟨⟩ c' member
      rw [String.toList_ofList] at member
      exact List.all_eq_true.mp List.all_takeWhile c' member
  | _ =>
    rintro ⟨⟩
    all_goals exact ⟨by rintro ⟨⟩, by rintro _ ⟨⟩⟩

end Lexer

def between (text : List Char) (start stop : Nat) : List Char := (text.drop start).take (stop - start)

theorem between_append {text : List Char} {a b c : Nat} (first : a ≤ b) (second : b ≤ c) :
    between text a b ++ between text b c = between text a c := by
  have whole : c - a = b - a + (c - b) := by omega
  have next : b = a + (b - a) := by omega
  unfold between
  rw [whole, List.take_add, List.drop_drop, ← next]

theorem between_end (text : List Char) (start : Nat) : between text start text.length = text.drop start := by
  rw [between, List.take_of_length_le (Nat.le_of_eq List.length_drop)]

/-- The offset behind a piece at the front of the text that is left. -/
theorem drop_piece {text taken rest : List Char} {start : Nat} (left : text.drop start = taken ++ rest)
    (inside : start ≤ text.length) :
    between text start (start + taken.length) = taken ∧ text.drop (start + taken.length) = rest ∧
      start + taken.length ≤ text.length := by
  have total := congrArg List.length left
  rw [List.length_drop, List.length_append] at total
  have size : start + taken.length - start = taken.length := by omega
  refine ⟨?_, ?_, by omega⟩
  · rw [between, left, size, List.take_left]
  · rw [← List.drop_drop, left, List.drop_left]

theorem drop_between {text : List Char} {start stop : Nat} (order : start ≤ stop) :
    text.drop start = between text start stop ++ text.drop stop := by
  have next : stop = start + (stop - start) := by omega
  have tail : text.drop stop = (text.drop start).drop (stop - start) := by rw [List.drop_drop, ← next]
  rw [between, tail, List.take_append_drop]

theorem Place.offset_advance (p : Place) (cs : List Char) : (p.advance cs).offset = p.offset + cs.length := by
  induction cs generalizing p with
  | nil => rfl
  | cons c rest ih =>
    have step : (p.next c).offset = p.offset + 1 := rfl
    have next := ih (p.next c)
    rw [step] at next
    rw [List.length_cons]
    exact next.trans (by omega)

inductive Partition (text : List Char) : Nat → List Token → Prop
  | last {start t} (inside : start ≤ text.length) (gap : Skipped (between text start text.length) [])
      (kind : t.kind = .eof) (span : t.span = ⟨text.length, text.length⟩) (lexeme : t.lexeme = "") :
      Partition text start [t]
  | token {start t rest} (inside : start ≤ t.span.start)
      (gap : Skipped (between text start t.span.start) (text.drop t.span.start)) (kind : t.kind ≠ .eof)
      (some : t.span.start < t.span.stop)
      (lexeme : t.lexeme = String.ofList (between text t.span.start t.span.stop))
      (others : Partition text t.span.stop rest) : Partition text start (t :: rest)

namespace Partition

variable {text : List Char} {start : Nat} {tokens : List Token}

theorem start_le (parts : Partition text start tokens) : start ≤ text.length := by
  induction parts with
  | last inside => exact inside
  | token inside _ _ some _ _ ih => omega

/-- Skipped text in front of a partition belongs to its first gap. -/
theorem skip {before : Nat} (parts : Partition text start tokens) (order : before ≤ start)
    (skips : ∀ {gap after}, text.drop start = gap ++ after → Skipped gap after →
      Skipped (between text before start ++ gap) after) : Partition text before tokens := by
  cases parts with
  | last inside gap kind span lexeme =>
    have longer := skips (by rw [between_end, List.append_nil]) gap
    rw [between_append order inside] at longer
    exact .last (by omega) longer kind span lexeme
  | token inside gap kind some lexeme others =>
    have longer := skips (drop_between inside) gap
    rw [between_append order inside] at longer
    exact .token (by omega) longer kind some lexeme others

end Partition

namespace Lexer

/-- Every scan extends the partition of what follows it. -/
theorem partition_lexFrom {text : List Char} (place : Place) {cs : List Char} {tokens : List Token}
    (left : text.drop place.offset = cs) (inside : place.offset ≤ text.length)
    (lexed : lexFrom place cs = .ok tokens) : Partition text place.offset tokens := by
  fun_induction lexFrom place cs generalizing tokens with
  | case1 place =>
    cases lexed
    have behind : text.length ≤ place.offset := List.drop_eq_nil_iff.mp left
    have here : place.offset = text.length := by omega
    rw [here]
    apply Partition.last (Nat.le_refl _) _ rfl rfl rfl
    rw [between_end, List.drop_length]
    exact .nothing
  | case2 => cases lexed
  | case3 place c rest found after piece =>
    rename_i ih
    rw [← scan_append c rest] at left
    obtain ⟨here, behind, bound⟩ := drop_piece left inside
    have offset : after.offset = place.offset + found.taken.length := place.offset_advance _
    rw [← offset] at here behind bound
    apply (ih behind bound lexed).skip (by omega)
    intro gap later split others
    rw [here]
    exact skipped_scan piece (behind.symm.trans split) others
  | case4 place c rest found after span kind piece =>
    rename_i ih
    rw [← scan_append c rest] at left
    obtain ⟨here, behind, bound⟩ := drop_piece left inside
    have offset : after.offset = place.offset + found.taken.length := place.offset_advance _
    have some : 0 < found.taken.length := List.length_pos_iff.mpr (scan_taken_ne_nil c rest)
    rw [← offset] at here behind bound
    cases others : lexFrom after found.rest with
    | error e =>
      rw [others] at lexed
      cases lexed
    | ok more =>
      rw [others] at lexed
      cases lexed
      have nothing : between text place.offset place.offset = [] := by simp [between]
      apply Partition.token (t := ⟨kind, _, ⟨place.offset, after.offset⟩, _⟩) (Nat.le_refl _) _ _ _
        (congrArg String.ofList here.symm) (ih behind bound others)
      · exact nothing ▸ .nothing
      · exact (scan_kind piece).1
      · change place.offset < after.offset
        omega

end Lexer

def gaps (start : Nat) : List Token → List Span
  | [] => []
  | t :: rest => ⟨start, t.span.start⟩ :: gaps t.span.stop rest

namespace Partition

variable {text : List Char} {start : Nat} {tokens : List Token}

/-- The last token marks the end, and no other does. -/
theorem ends (parts : Partition text start tokens) :
    ∃ (words : List Token) (last : Token), tokens = words ++ [last] ∧ last.kind = .eof ∧
      last.span = ⟨text.length, text.length⟩ ∧
      (∀ t ∈ words, t.kind ≠ .eof ∧ start ≤ t.span.start ∧ t.span.start < t.span.stop) ∧
      words.Pairwise fun a b => a.span.stop ≤ b.span.start := by
  induction parts with
  | @last start t _ _ kind span => exact ⟨[], t, rfl, kind, span, by simp, .nil⟩
  | @token start t rest inside _ kind some _ _ ih =>
    obtain ⟨words, last, rfl, ended, atEnd, each, ordered⟩ := ih
    refine ⟨t :: words, last, rfl, ended, atEnd, ?_, List.pairwise_cons.mpr ⟨fun u member => (each u member).2.1, ordered⟩⟩
    intro u member
    rcases List.mem_cons.mp member with rfl | later
    · exact ⟨kind, inside, some⟩
    · obtain ⟨other, order, size⟩ := each u later
      exact ⟨other, by omega, size⟩

theorem stop_le (parts : Partition text start tokens) : ∀ t ∈ tokens, t.span.stop ≤ text.length := by
  induction parts with
  | last _ _ _ span =>
    intro t member
    cases List.mem_singleton.mp member
    rw [span]
  | token _ _ _ _ _ others ih =>
    intro t member
    rcases List.mem_cons.mp member with rfl | later
    · exact others.start_le
    · exact ih t later

theorem lexeme_eq (parts : Partition text start tokens) :
    ∀ t ∈ tokens, t.lexeme = String.ofList (between text t.span.start t.span.stop) := by
  induction parts with
  | last _ _ _ span lexeme =>
    intro t member
    cases List.mem_singleton.mp member
    rw [lexeme, span, between_end, List.drop_length]
  | token _ _ _ _ lexeme _ ih =>
    intro t member
    rcases List.mem_cons.mp member with rfl | later
    · exact lexeme
    · exact ih t later

theorem skipped_gaps (parts : Partition text start tokens) :
    ∀ gap ∈ gaps start tokens, gap.start ≤ gap.stop ∧ gap.stop ≤ text.length ∧
      Skipped (between text gap.start gap.stop) (text.drop gap.stop) := by
  induction parts with
  | last inside skipped _ span =>
    intro gap member
    rw [gaps, gaps, span] at member
    cases List.mem_singleton.mp member
    rw [List.drop_length]
    exact ⟨inside, Nat.le_refl _, skipped⟩
  | token inside skipped _ some _ others ih =>
    intro gap member
    rcases List.mem_cons.mp member with rfl | later
    · have bound := others.start_le
      exact ⟨inside, by dsimp only; omega, skipped⟩
    · exact ih gap later

end Partition

structure Source.Partitioned (source : Source) (tokens : List Token) : Prop where
  /-- The last token alone marks the end; the others stand in order and do not overlap. -/
  ordered : ∃ words last, tokens = words ++ [last] ∧
    last.kind = .eof ∧ last.span = ⟨source.text.length, source.text.length⟩ ∧
    (∀ t ∈ words, t.kind ≠ .eof ∧ t.span.start < t.span.stop) ∧
    words.Pairwise fun a b => a.span.start < b.span.start ∧ a.span.stop ≤ b.span.start
  spelled : ∀ t ∈ tokens, t.lexeme = source.slice t.span
  skipped : ∀ gap ∈ gaps 0 tokens, gap.start ≤ gap.stop ∧ gap.stop ≤ source.text.length ∧
    Skipped (source.slice gap).toList (source.text.toList.drop gap.stop)

theorem lexing_partitions_text (source : Source) {tokens : List Token} (lexed : lex source.text = .ok tokens) :
    source.Partitioned tokens := by
  have parts : Partition source.text.toList 0 tokens :=
    Lexer.partition_lexFrom .start rfl (Nat.zero_le _) lexed
  obtain ⟨words, last, same, ended, atEnd, each, ordered⟩ := parts.ends
  rw [String.length_toList] at atEnd
  refine ⟨⟨words, last, same, ended, atEnd, ?_, ?_⟩, parts.lexeme_eq, ?_⟩
  · intro t member
    exact ⟨(each t member).1, (each t member).2.2⟩
  · apply ordered.imp_of_mem
    intro a b first _ order
    have size := (each a first).2.2
    exact ⟨by omega, order⟩
  · intro gap member
    obtain ⟨order, bound, skipped⟩ := parts.skipped_gaps gap member
    rw [String.length_toList] at bound
    refine ⟨order, bound, ?_⟩
    rw [Source.slice, String.toList_ofList]
    exact skipped

/-- A block comment, an operator against a name, a string with a quote and a zero character in it, and
a line comment that looks like a block comment. -/
theorem lexing_partitions_text_comments :
    ∃ tokens, lex "/*a*//b \"é\\\"\x00\" //**/" = .ok tokens ∧
      tokens.map (·.span) = [⟨5, 6⟩, ⟨6, 7⟩, ⟨8, 14⟩, ⟨20, 20⟩] ∧
      Source.Partitioned ⟨"main.ll", "/*a*//b \"é\\\"\x00\" //**/"⟩ tokens := by
  have lexed : lex "/*a*//b \"é\\\"\x00\" //**/" = .ok
      [⟨.symbol .slash, "/", ⟨5, 6⟩, ⟨1, 6⟩⟩, ⟨.identifier "b", "b", ⟨6, 7⟩, ⟨1, 7⟩⟩,
        ⟨.string "é\"\x00", "\"é\\\"\x00\"", ⟨8, 14⟩, ⟨1, 9⟩⟩, ⟨.eof, "", ⟨20, 20⟩, ⟨1, 21⟩⟩] := by cbv
  exact ⟨_, lexed, rfl, lexing_partitions_text ⟨"main.ll", _⟩ lexed⟩

end StructLang
