import StructLang.Proofs.Parse.Reading

namespace StructLang

namespace Cursor

def kinds (c : Cursor) : List TokenKind := c.rest.map (·.kind)

theorem peek_kind (c : Cursor) : c.peek.kind = c.kinds.headD .eof := by
  rw [peek, kinds]
  cases c.rest <;> rfl

theorem kinds_advance (c : Cursor) : c.advance.kinds = c.kinds.tail := by
  rw [advance, kinds, kinds, List.map_tail]

theorem length_kinds (c : Cursor) : c.kinds.length = c.rest.length := List.length_map ..

theorem next_of_kinds {c : Cursor} {kind : TokenKind} {more : List TokenKind} (kinds : c.kinds = kind :: more) :
    c.peek.kind = kind ∧ c.advance.kinds = more := by
  rw [peek_kind, kinds_advance, kinds]
  exact ⟨rfl, rfl⟩

end Cursor

namespace Parser

variable {α β : Type} {c : Cursor} {kind : TokenKind} {more rest : List TokenKind} {good : β → Prop}

def Parses (c : Cursor) (p : Parser α) (rest : List TokenKind) (good : α → Prop) : Prop :=
  ∃ a c', p c = .ok (a, c') ∧ c'.kinds = rest ∧ good a

theorem Parses.mono {p : Parser β} {good' : β → Prop} (parses : Parses c p rest good)
    (implies : ∀ b, good b → good' b) : Parses c p rest good' := by
  obtain ⟨b, c', ran, left, holds⟩ := parses
  exact ⟨b, c', ran, left, implies b holds⟩

theorem parses_pure {b : β} (left : c.kinds = rest) (holds : good b) : Parses c (pure b) rest good :=
  ⟨b, c, rfl, left, holds⟩

theorem Parses.bind {p : Parser α} {f : α → Parser β} {mid : α → Prop} (first : Parses c p more mid)
    (next : ∀ c a, c.kinds = more → mid a → Parses c (f a) rest good) : Parses c (p >>= f) rest good := by
  obtain ⟨a, c', ran, left, holds⟩ := first
  obtain ⟨b, c'', ran', left', holds'⟩ := next c' a left holds
  refine ⟨b, c'', ?_, left', holds'⟩
  change (p c >>= fun r => f r.1 r.2) = _
  rw [ran]
  exact ran'

theorem Parses.map {p : Parser α} {f : α → β} (first : Parses c p rest fun a => good (f a)) :
    Parses c (f <$> p) rest good := by
  rw [← bind_pure_comp]
  exact first.bind fun c a left holds => parses_pure left holds

theorem parses_peek {f : Token → Parser β} (kinds : c.kinds = kind :: more)
    (next : ∀ t, t.kind = kind → Parses c (f t) rest good) : Parses c (peek >>= f) rest good := by
  refine next c.peek ?_
  rw [c.peek_kind, kinds]
  rfl

theorem parses_peekKind {f : TokenKind → Parser β} (next : Parses c (f (c.kinds.headD .eof)) rest good) :
    Parses c (peekKind >>= f) rest good := by
  rw [← c.peek_kind] at next
  exact next

theorem parses_get {f : Cursor → Parser β} (next : Parses c (f c) rest good) : Parses c (get >>= f) rest good := next

theorem parses_lastSpan {f : Span → Parser β} (next : ∀ span, Parses c (f span) rest good) :
    Parses c (lastSpan >>= f) rest good := next c.last

theorem parses_remaining {f : Nat → Parser β} (next : Parses c (f c.kinds.length) rest good) :
    Parses c (remaining >>= f) rest good := by
  rw [c.length_kinds] at next
  exact next

theorem parses_sees {symbol : Symbol} {f : Bool → Parser β}
    (next : Parses c (f (decide (c.kinds.headD .eof = .symbol symbol))) rest good) :
    Parses c (sees symbol >>= f) rest good := by
  rw [← c.peek_kind] at next
  exact next

theorem parses_atEnd {f : Bool → Parser β} (next : Parses c (f (decide (c.kinds.headD .eof = .eof))) rest good) :
    Parses c (atEnd >>= f) rest good := by
  rw [← c.peek_kind] at next
  exact next

theorem parses_next (kinds : c.kinds = kind :: more) : Parses c next more fun t => t.kind = kind :=
  ⟨c.peek, c.advance, rfl, (Cursor.next_of_kinds kinds).2, (Cursor.next_of_kinds kinds).1⟩

theorem parses_reading {f : Token → Parser β} (kinds : c.kinds = kind :: more)
    (next : ∀ c t, c.kinds = more → t.kind = kind → Parses c (f t) rest good) : Parses c (Parser.next >>= f) rest good :=
  (parses_next kinds).bind next

theorem parses_step {p : Parser α} {f : α → Parser β} {a : α} {c' : Cursor} (ran : p c = .ok (a, c'))
    (next : Parses c' (f a) rest good) : Parses c (p >>= f) rest good := by
  obtain ⟨b, c'', ran', left, holds⟩ := next
  refine ⟨b, c'', ?_, left, holds⟩
  change (p c >>= fun r => f r.1 r.2) = _
  rw [ran]
  exact ran'

/-- A kind of token that is there is accepted. -/
theorem parses_accepting {p : Parser Bool} {f : Bool → Parser β} (here : p = (return (← accept? kind).isSome))
    (kinds : c.kinds = kind :: more) (next : ∀ c, c.kinds = more → Parses c (f true) rest good) :
    Parses c (p >>= f) rest good := by
  obtain ⟨found, left⟩ := Cursor.next_of_kinds kinds
  have ran : p c = .ok (true, c.advance) := by rw [here, accepted_eq, if_pos found]
  exact parses_step ran (next _ left)

theorem parses_passing {p : Parser Bool} {f : Bool → Parser β} (here : p = (return (← accept? kind).isSome))
    (other : c.kinds.headD .eof ≠ kind) (next : Parses c (f false) rest good) : Parses c (p >>= f) rest good := by
  have ran : p c = .ok (false, c) := by rw [here, accepted_eq, if_neg (c.peek_kind ▸ other)]
  exact parses_step ran next

theorem parses_accept {symbol : Symbol} {f : Bool → Parser β} (kinds : c.kinds = .symbol symbol :: more)
    (next : ∀ c, c.kinds = more → Parses c (f true) rest good) : Parses c (accept symbol >>= f) rest good :=
  parses_accepting rfl kinds next

theorem parses_accept_other {symbol : Symbol} {f : Bool → Parser β} (other : c.kinds.headD .eof ≠ .symbol symbol)
    (next : Parses c (f false) rest good) : Parses c (accept symbol >>= f) rest good :=
  parses_passing rfl other next

theorem parses_keyword {keyword : Keyword} {f : Bool → Parser β} (kinds : c.kinds = .keyword keyword :: more)
    (next : ∀ c, c.kinds = more → Parses c (f true) rest good) : Parses c (acceptKeyword keyword >>= f) rest good :=
  parses_accepting rfl kinds next

theorem parses_keyword_other {keyword : Keyword} {f : Bool → Parser β} (other : c.kinds.headD .eof ≠ .keyword keyword)
    (next : Parses c (f false) rest good) : Parses c (acceptKeyword keyword >>= f) rest good :=
  parses_passing rfl other next

theorem parses_expect {symbol : Symbol} {what : Expectation} {f : Unit → Parser β}
    (kinds : c.kinds = .symbol symbol :: more) (next : ∀ c, c.kinds = more → Parses c (f ()) rest good) :
    Parses c (expect symbol what >>= f) rest good := by
  rw [expect, bind_assoc]
  exact parses_accept kinds fun c left => next c left

theorem parses_identifier {name : String} {what : Expectation} {f : String × Token → Parser β}
    (kinds : c.kinds = .identifier name :: more)
    (next : ∀ c token, c.kinds = more → Parses c (f (name, token)) rest good) :
    Parses c (identifier what >>= f) rest good := by
  rw [identifier, bind_assoc]
  refine parses_peekKind ?_
  rw [kinds, List.headD_cons]
  simp only [bind_assoc, pure_bind]
  exact parses_reading kinds fun c token left _ => next c token left

end Parser

end StructLang
