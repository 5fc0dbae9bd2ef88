import Mathlib
import StructLang.Proofs.Token.Partition

namespace StructLang

inductive Filler : List Char → Prop
  | nothing : Filler []
  | blank {c gap} (blank : c ∈ [' ', '\t', '\r', '\n']) (others : Filler gap) : Filler (c :: gap)
  | line {body gap} (inLine : '\n' ∉ body) (others : Filler gap) : Filler ('/' :: '/' :: (body ++ '\n' :: gap))
  | block {body gap} (unclosed : ¬['*', '/'] <:+: body) (others : Filler gap) :
      Filler ('/' :: '*' :: (body ++ '*' :: '/' :: gap))

/-- A separator begins with a blank: without it, a comment could join a slash in front of it. -/
inductive Separator : List Char → Prop
  | mk {c gap} (blank : c ∈ [' ', '\t', '\r', '\n']) (others : Filler gap) : Separator (c :: gap)

inductive Respaced : List Token → List Char → Prop
  | last {t} : Respaced [t] t.lexeme.toList
  | next {t u rest gap text} (separator : Separator gap) (others : Respaced (u :: rest) text) :
      Respaced (t :: u :: rest) (t.lexeme.toList ++ (gap ++ text))

def Token.content (t : Token) : TokenKind × String := (t.kind, t.lexeme)

def BlankFirst (after : List Char) : Prop := ∀ c ∈ after.head?, Lexer.isGap c

theorem isGap_of_blank {c : Char} (blank : c ∈ [' ', '\t', '\r', '\n']) : Lexer.isGap c := by
  simp only [List.mem_cons, List.not_mem_nil, or_false] at blank
  rcases blank with rfl | rfl | rfl | rfl <;> rfl

theorem Separator.blankFirst {gap : List Char} (separator : Separator gap) (after : List Char) :
    BlankFirst (gap ++ after) := by
  cases separator with
  | mk blank =>
    rintro c ⟨⟩
    exact isGap_of_blank blank

/-- A blank is none of the characters that a piece goes on with. -/
theorem BlankFirst.stops {after : List Char} (blank : BlankFirst after) (p : Char → Bool)
    (other : [' ', '\r', '\t', '\n'].all fun c => !p c) : ∀ c ∈ after.head?, p c = false := by
  intro c first
  have gap := blank c first
  simp only [Lexer.isGap, Bool.or_eq_true, beq_iff_eq] at gap
  simp only [List.all_cons, List.all_nil, Bool.and_true, Bool.and_eq_true, Bool.not_eq_true'] at other
  rcases gap with ((rfl | rfl) | rfl) | rfl
  · exact other.1
  · exact other.2.1
  · exact other.2.2.1
  · exact other.2.2.2

theorem BlankFirst.head_ne {c : Char} {rest : List Char} (blank : BlankFirst (c :: rest)) {d : Char}
    (other : Lexer.isGap d = false) : c ≠ d := by
  rintro rfl
  rw [blank c rfl] at other
  cases other

namespace Lexer

/-- A run of characters stops where it did if what follows does not go on with it. -/
theorem takeWhile_again (p : Char → Bool) (cs : List Char) {after : List Char} (stop : ∀ c ∈ after.head?, p c = false) :
    (cs.takeWhile p ++ after).takeWhile p = cs.takeWhile p ∧ (cs.takeWhile p ++ after).dropWhile p = after := by
  have run : ∀ c ∈ cs.takeWhile p, p c := fun c member => List.all_eq_true.mp List.all_takeWhile c member
  rw [List.takeWhile_append_of_pos run, List.dropWhile_append_of_pos run]
  cases after with
  | nil => simp
  | cons c rest => simp [stop c rfl]

theorem stringTail_again (cs after : List Char) (closed : (stringTail cs).closed = true) :
    stringTail ((stringTail cs).taken ++ after) =
      ⟨(stringTail cs).taken, (stringTail cs).value, after, true⟩ := by
  fun_induction stringTail cs with
  | case1 => cases closed
  | case2 => rfl
  | case3 => cases closed
  | case4 c rest tail ih =>
    change stringTail ('\\' :: c :: (tail.taken ++ after)) = _
    rw [stringTail, ih closed]
  | case5 c rest quote last escape tail ih =>
    have unescaped : c ≠ '\\' := by
      intro same
      cases rest with
      | nil => exact last same rfl
      | cons d rest => exact escape d rest same rfl
    change stringTail (c :: (tail.taken ++ after)) = _
    rw [stringTail, ih closed]
    · exact quote
    · exact fun same _ => unescaped same
    · exact fun _ _ same _ => unescaped same

theorem scanNumber_whole {cs : List Char} (noPoint : ∀ c ∈ (cs.dropWhile Char.isDigit).head?, c ≠ '.') :
    scanNumber cs = ⟨cs.takeWhile Char.isDigit, cs.dropWhile Char.isDigit, intPiece (cs.takeWhile Char.isDigit)⟩ := by
  unfold scanNumber
  split
  · rename_i point
    rw [point] at noPoint
    exact absurd rfl (noPoint '.' rfl)
  · rfl

theorem scanNumber_point {cs rest : List Char} {d : Char} (point : cs.dropWhile Char.isDigit = '.' :: d :: rest)
    (digit : d.isDigit) :
    scanNumber cs = ⟨cs.takeWhile Char.isDigit ++ '.' :: (d :: rest).takeWhile Char.isDigit,
      (d :: rest).dropWhile Char.isDigit, .ok (.token (.float (.ofDecimal
        (digitsValue (cs.takeWhile Char.isDigit ++ (d :: rest).takeWhile Char.isDigit))
        ((d :: rest).takeWhile Char.isDigit).length)))⟩ := by
  rw [scanNumber, point]
  exact if_pos digit

theorem scanNumber_again (cs : List Char) {after : List Char} (blank : BlankFirst after) :
    scanNumber ((scanNumber cs).taken ++ after) = ⟨(scanNumber cs).taken, after, (scanNumber cs).piece⟩ := by
  have stop := blank.stops Char.isDigit (by decide)
  have whole : scanNumber (cs.takeWhile Char.isDigit ++ after) =
      ⟨cs.takeWhile Char.isDigit, after, intPiece (cs.takeWhile Char.isDigit)⟩ := by
    obtain ⟨taken, left⟩ := takeWhile_again Char.isDigit cs stop
    have noPoint : ∀ c ∈ after.head?, c ≠ '.' := by
      rintro c first rfl
      have := blank.stops (· == '.') (by decide) '.' first
      cases this
    rw [scanNumber_whole (left.symm ▸ noPoint), taken, left]
  rw [scanNumber.eq_def cs]
  split
  · rename_i d rest point
    split
    · rename_i digit
      -- the digits before the point and those behind it are two runs
      have atPoint : ∀ c ∈ ('.' :: ((d :: rest).takeWhile Char.isDigit ++ after)).head?, c.isDigit = false := by
        rintro c ⟨⟩
        rfl
      obtain ⟨taken, left⟩ := takeWhile_again Char.isDigit cs atPoint
      obtain ⟨fraction, behind⟩ := takeWhile_again Char.isDigit (d :: rest) stop
      have first : (d :: rest).takeWhile Char.isDigit ++ after = d :: (rest.takeWhile Char.isDigit ++ after) := by
        rw [List.takeWhile_cons_of_pos digit, List.cons_append]
      rw [first] at left fraction behind taken
      change scanNumber (_ ++ '.' :: _ ++ after) = _
      rw [List.append_assoc, List.cons_append, first, scanNumber_point left digit, taken, fraction, behind]
    · exact whole
  · exact whole

/-- Where no symbol and no string starts, the next characters do not matter for what is scanned. -/
theorem scan_other {c : Char} (rest : List Char) (quote : c ≠ '"') (other : symbol? c = none) :
    scan c rest =
      if isGap c then ⟨[c], rest, .ok .skipped⟩
      else if c.isDigit then scanNumber (c :: rest)
      else if isIdentStart c then scanWord (c :: rest)
      else ⟨[c], rest, .error (.unexpected c)⟩ := by
  unfold scan
  split
  case h_7 => exact absurd rfl quote
  case h_8 => rw [other]
  all_goals cases other

theorem scan_symbol {c : Char} {after : List Char} {s : Symbol} (one : symbol? c = some s) (blank : BlankFirst after) :
    scan c after = .symbol [c] after s := by
  unfold scan
  split
  case h_7 => cases one
  case h_8 => rw [one]
  all_goals exact absurd rfl (blank.head_ne (by decide))

theorem scan_taken_head (c : Char) (rest : List Char) : ∃ tail, (scan c rest).taken = c :: tail := by
  have whole := scan_append c rest
  cases taken : (scan c rest).taken with
  | nil => exact absurd taken (scan_taken_ne_nil c rest)
  | cons d tail =>
    rw [taken] at whole
    exact ⟨tail, congrArg (· :: tail) (List.cons.inj whole).1⟩

/-- A token is cut out of its text by its own characters: it is read again in front of any blank. -/
theorem scan_again {c : Char} {rest tail after : List Char} {kind : TokenKind}
    (piece : (scan c rest).piece = .ok (.token kind)) (taken : (scan c rest).taken = c :: tail) (blank : BlankFirst after) :
    scan c (tail ++ after) = ⟨c :: tail, after, .ok (.token kind)⟩ := by
  revert piece taken
  fun_cases scan c rest with
  | case1 | case2 | case3 | case4 =>
    rintro ⟨⟩ ⟨⟩
    rfl
  | case5 => rintro ⟨⟩
  | case6 tail =>
    unfold scanComment
    dsimp only
    split <;> rintro ⟨⟩
  | case7 =>
    unfold scanString
    dsimp only
    split
    · rename_i closed
      rintro ⟨⟩ ⟨⟩
      change scanString _ = _
      rw [scanString, stringTail_again rest after closed]
      rfl
    · rintro ⟨⟩
  | case8 =>
    rintro ⟨⟩ ⟨⟩
    exact scan_symbol ‹_› blank
  | case9 => rintro ⟨⟩
  | case10 =>
    have digit : c.isDigit := by assumption
    have gap : ¬isGap c := by assumption
    intro piece taken
    rw [scan_other _ ‹_› ‹_›, if_neg gap, if_pos digit, ← List.cons_append, ← taken, scanNumber_again _ blank, piece]
  | case11 =>
    have start : isIdentStart c := by assumption
    have digit : ¬c.isDigit := by assumption
    have gap : ¬isGap c := by assumption
    rintro ⟨⟩ taken
    have run : (c :: rest).takeWhile isIdentRest = c :: tail := taken
    have again := takeWhile_again isIdentRest (c :: rest) (blank.stops isIdentRest (by decide))
    rw [scan_other _ ‹_› ‹_›, if_neg gap, if_neg digit, if_pos start, ← List.cons_append, ← run, scanWord, again.1,
      again.2]
  | case12 => rintro ⟨⟩

theorem commentTail_unclosed {body : List Char} (unclosed : ¬['*', '/'] <:+: body) (rest : List Char) :
    commentTail (body ++ '*' :: '/' :: rest) = (body ++ ['*', '/'], rest, true) := by
  induction body with
  | nil => rfl
  | cons c body ih =>
    have first : ¬['*', '/'] <+: c :: body := fun front => unclosed front.isInfix
    have inner : ¬['*', '/'] <:+: body := fun mark => unclosed (mark.trans (List.suffix_cons c body).isInfix)
    have goesOn : ∀ others, c = '*' → body ++ '*' :: '/' :: rest = '/' :: others → False := by
      rintro others rfl slash
      cases body with
      | nil => cases slash
      | cons d body =>
        cases slash
        exact first ⟨body, rfl⟩
    rw [List.cons_append, commentTail.eq_3 _ _ goesOn, ih inner]
    rfl

section Steps

variable {place : Place} {c : Char} {rest taken left : List Char}

theorem lexFrom_skipped (found : scan c rest = ⟨taken, left, .ok .skipped⟩) :
    lexFrom place (c :: rest) = lexFrom (place.advance taken) left := by
  rw [lexFrom, found]

theorem lexFrom_token {kind : TokenKind} {tokens : List Token} (found : scan c rest = ⟨taken, left, .ok (.token kind)⟩)
    (others : lexFrom (place.advance taken) left = .ok tokens) :
    lexFrom place (c :: rest) = .ok
      (⟨kind, String.ofList taken, ⟨place.offset, (place.advance taken).offset⟩, place.location⟩ :: tokens) := by
  rw [lexFrom, found]
  change (lexFrom (place.advance taken) left >>= _) = _
  rw [others]
  rfl

end Steps

theorem scan_blank {c : Char} (rest : List Char) (blank : c ∈ [' ', '\t', '\r', '\n']) :
    scan c rest = ⟨[c], rest, .ok .skipped⟩ := by
  simp only [List.mem_cons, List.not_mem_nil, or_false] at blank
  rcases blank with rfl | rfl | rfl | rfl <;> rfl

theorem lexFrom_filler {gap : List Char} (filler : Filler gap) (place : Place) (after : List Char) :
    ∃ later, lexFrom place (gap ++ after) = lexFrom later after := by
  induction filler generalizing place with
  | nothing => exact ⟨place, rfl⟩
  | blank blank _ ih =>
    rw [List.cons_append, lexFrom_skipped (scan_blank _ blank)]
    exact ih _
  | @line body gap inLine _ ih =>
    have found : scan '/' ('/' :: (body ++ '\n' :: (gap ++ after))) =
        ⟨'/' :: '/' :: body, '\n' :: (gap ++ after), .ok .skipped⟩ := by
      have run : ∀ c ∈ body, (c != '\n') = true := by
        intro c member
        rw [bne_iff_ne]
        rintro rfl
        exact inLine member
      change scanLineComment _ = _
      rw [scanLineComment, List.takeWhile_append_of_pos run, List.dropWhile_append_of_pos run]
      simp
    have whole : '/' :: '/' :: (body ++ '\n' :: gap) ++ after = '/' :: '/' :: (body ++ '\n' :: (gap ++ after)) := by simp
    rw [whole, lexFrom_skipped found, lexFrom_skipped (scan_blank _ (by decide))]
    exact ih _
  | @block body gap unclosed _ ih =>
    have found : scan '/' ('*' :: (body ++ '*' :: '/' :: (gap ++ after))) =
        ⟨'/' :: '*' :: (body ++ ['*', '/']), gap ++ after, .ok .skipped⟩ := by
      change scanComment _ = _
      rw [scanComment, commentTail_unclosed unclosed]
      rfl
    have whole : '/' :: '*' :: (body ++ '*' :: '/' :: gap) ++ after =
        '/' :: '*' :: (body ++ '*' :: '/' :: (gap ++ after)) := by simp
    rw [whole, lexFrom_skipped found]
    exact ih _

theorem lexFrom_separator {gap : List Char} (separator : Separator gap) (place : Place) (after : List Char) :
    ∃ later, lexFrom place (gap ++ after) = lexFrom later after := by
  cases separator with
  | mk blank others => exact lexFrom_filler (.blank blank others) place after

end Lexer

/-- A token that is read from its spelling alone, in front of any blank. -/
def Token.Detached (t : Token) : Prop :=
  ∃ c tail, t.lexeme.toList = c :: tail ∧
    ∀ after, BlankFirst after → Lexer.scan c (tail ++ after) = ⟨c :: tail, after, .ok (.token t.kind)⟩

namespace Lexer

theorem detached_lexFrom {place : Place} {cs : List Char} {tokens : List Token} (lexed : lexFrom place cs = .ok tokens) :
    ∃ (words : List Token) (last : Token), tokens = words ++ [last] ∧ last.content = (.eof, "") ∧
      ∀ t ∈ words, t.Detached := by
  fun_induction lexFrom place cs generalizing tokens with
  | case1 place =>
    cases lexed
    exact ⟨[], _, rfl, rfl, by simp⟩
  | case2 => cases lexed
  | case3 =>
    rename_i ih
    exact ih lexed
  | case4 place c rest found after span kind piece =>
    rename_i ih
    cases others : lexFrom after found.rest with
    | error e =>
      rw [others] at lexed
      cases lexed
    | ok more =>
      rw [others] at lexed
      cases lexed
      obtain ⟨words, last, rfl, ended, each⟩ := ih others
      obtain ⟨tail, taken⟩ := scan_taken_head c rest
      refine ⟨_ :: words, last, rfl, ended, List.forall_mem_cons.mpr ⟨⟨c, tail, ?_, ?_⟩, each⟩⟩
      · exact (String.toList_ofList ..).trans taken
      · exact fun after blank => scan_again piece taken blank

theorem lexFrom_detached {t : Token} (detached : t.Detached) (place : Place) {after : List Char} (blank : BlankFirst after) :
    ∃ later, ∀ tokens, lexFrom later after = .ok tokens →
      ∃ again, lexFrom place (t.lexeme.toList ++ after) = .ok (again :: tokens) ∧ again.content = t.content := by
  obtain ⟨c, tail, spelled, found⟩ := detached
  refine ⟨place.advance (c :: tail), fun tokens others => ?_⟩
  have lexed := lexFrom_token (found after blank) others
  rw [← List.cons_append, ← spelled] at lexed
  exact ⟨_, lexed, congrArg (t.kind, ·) String.ofList_toList⟩

/-- Tokens are read again, with a separator or the end of the text behind the last of them. -/
theorem lexFrom_respaced {words : List Token} {text tail : List Char} (spaced : Respaced words text)
    (each : ∀ t ∈ words, t.Detached) (ending : tail = [] ∨ Separator tail) (place : Place) :
    ∃ again, lexFrom place (text ++ tail) = .ok again ∧
      again.map Token.content = words.map Token.content ++ [(TokenKind.eof, "")] := by
  induction spaced generalizing place with
  | @last t =>
    have blank : BlankFirst tail := by
      rcases ending with rfl | separator
      · rintro c ⟨⟩
      · exact tail.append_nil ▸ separator.blankFirst []
    obtain ⟨later, read⟩ := lexFrom_detached (each t (List.mem_singleton_self t)) place blank
    obtain ⟨place', done⟩ : ∃ place', lexFrom later tail = lexFrom place' [] := by
      rcases ending with rfl | separator
      · exact ⟨later, rfl⟩
      · exact tail.append_nil ▸ lexFrom_separator separator later []
    obtain ⟨again, lexed, same⟩ := read _ (done.trans (lexFrom.eq_1 place'))
    refine ⟨_, lexed, ?_⟩
    rw [List.map_cons, same]
    rfl
  | @next t u words gap text separator others ih =>
    obtain ⟨first, rest⟩ := List.forall_mem_cons.mp each
    obtain ⟨later, read⟩ := lexFrom_detached first place (separator.blankFirst (text ++ tail))
    obtain ⟨place', skip⟩ := lexFrom_separator separator later (text ++ tail)
    obtain ⟨tokens, lexed, same⟩ := ih rest place'
    obtain ⟨again, whole, kept⟩ := read tokens (skip.trans lexed)
    refine ⟨again :: tokens, ?_, ?_⟩
    · rw [List.append_assoc, List.append_assoc, whole]
    · rw [List.map_cons, same, kept]
      rfl

end Lexer

/-- The last token of a text that has been spaced anew, and the separator in front of it. -/
theorem Respaced.split {words : List Token} {last : Token} {text : List Char} (spaced : Respaced (words ++ [last]) text) :
    words = [] ∧ text = last.lexeme.toList ∨
      ∃ front gap, Respaced words front ∧ Separator gap ∧ text = front ++ (gap ++ last.lexeme.toList) := by
  induction words generalizing text with
  | nil =>
    cases spaced
    exact .inl ⟨rfl, rfl⟩
  | cons t words ih =>
    right
    cases words with
    | nil =>
      cases spaced with
      | next separator others =>
        cases others
        exact ⟨_, _, .last, separator, rfl⟩
    | cons u words =>
      cases spaced with
      | next separator others =>
        obtain ⟨none, -⟩ | ⟨front, gap, inner, behind, rfl⟩ := ih others
        · cases none
        · exact ⟨_, gap, .next separator inner, behind, by simp only [List.append_assoc]⟩

/-- Re-spacing keeps the tokens. The mark of the end of the text is a token too, so a separator may stand in front of it,
or the text may end with the last word. -/
theorem respacing_keeps_tokens {source text : String} {tokens : List Token} (lexed : lex source = .ok tokens)
    (spaced : Respaced tokens text.toList ∨ Respaced tokens.dropLast text.toList) :
    ∃ again, lex text = .ok again ∧ again.map Token.content = tokens.map Token.content := by
  obtain ⟨words, last, rfl, ended, each⟩ := Lexer.detached_lexFrom lexed
  have whole : (words ++ [last]).map Token.content = words.map Token.content ++ [(.eof, "")] := by
    rw [List.map_append, List.map_singleton, ended]
  rw [whole]
  have none : last.lexeme.toList = [] := congrArg (·.2.toList) ended
  rcases spaced with spaced | spaced
  · rcases spaced.split with ⟨rfl, same⟩ | ⟨front, gap, inner, separator, same⟩
    · rw [lex, same, none, Lexer.lexFrom]
      exact ⟨_, rfl, rfl⟩
    · rw [lex, same, none, List.append_nil]
      exact Lexer.lexFrom_respaced inner each (.inr separator) .start
  · rw [List.dropLast_concat] at spaced
    rw [lex, ← text.toList.append_nil]
    exact Lexer.lexFrom_respaced spaced each (.inl rfl) .start

/-- Symbols that could be read together, numbers around a point, a keyword in a name, and a string that holds a quote, a
line feed and the marks of comments. -/
def crowded : List Token :=
  [⟨.symbol .minus, "-", ⟨0, 1⟩, ⟨1, 1⟩⟩, ⟨.symbol .arrow, "->", ⟨1, 3⟩, ⟨1, 2⟩⟩, ⟨.int 1, "1", ⟨3, 4⟩, ⟨1, 4⟩⟩,
    ⟨.symbol .dot, ".", ⟨4, 5⟩, ⟨1, 5⟩⟩, ⟨.identifier "if_", "if_", ⟨5, 8⟩, ⟨1, 6⟩⟩,
    ⟨.string "//\"\n*/", "\"//\\\"\n*/\"", ⟨8, 17⟩, ⟨1, 9⟩⟩, ⟨.symbol .slash, "/", ⟨17, 18⟩, ⟨2, 4⟩⟩,
    ⟨.eof, "", ⟨18, 18⟩, ⟨2, 5⟩⟩]

theorem respacing_keeps_tokens_crowded :
    lex "-->1.if_\"//\\\"\n*/\"/" = .ok crowded ∧
    ∃ again, lex "- //\n-> 1\t. if_ /*//*/\"//\\\"\n*/\"\n/ // *\n" = .ok again ∧
      again.map Token.content = crowded.map Token.content := by
  have lexed : lex "-->1.if_\"//\\\"\n*/\"/" = .ok crowded := by cbv
  have blank : Separator [' '] := .mk (by decide) .nothing
  have line : Separator [' ', '/', '/', '\n'] := .mk (by decide) (@Filler.line [] [] (by decide) .nothing)
  have block : Separator [' ', '/', '*', '/', '/', '*', '/'] :=
    .mk (by decide) (@Filler.block ['/', '/'] [] (by decide) .nothing)
  have tab : Separator ['\t'] := .mk (by decide) .nothing
  have feed : Separator ['\n'] := .mk (by decide) .nothing
  have comment : Separator [' ', '/', '/', ' ', '*', '\n'] :=
    .mk (by decide) (@Filler.line [' ', '*'] [] (by decide) .nothing)
  refine ⟨lexed, respacing_keeps_tokens lexed (.inl ?_)⟩
  exact .next line (.next blank (.next tab (.next blank (.next block (.next feed (.next comment .last))))))

end StructLang
