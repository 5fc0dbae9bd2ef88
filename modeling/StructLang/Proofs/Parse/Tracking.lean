import StructLang.Proofs.Parse.Reading
import StructLang.Proofs.Parse.Rules

namespace StructLang.Parser

variable {α β : Type} {c c' : Cursor} {pool : List Token}

structure Passed (c : Cursor) (ts : List Token) (c' : Cursor) : Prop where
  rest : c.rest = ts ++ c'.rest
  inside : ∀ t ∈ ts, t.kind ≠ .eof
  last : c'.last = c.lastAfter ts

inductive Judged (pool : List Token) (c : Cursor) (post : α → Prop) : Except ParseError α → Prop
  | ok {a : α} (holds : post a) : Judged pool c post (.ok a)
  | error {fault : ParseFault} {t : Token} (known : t ∈ pool ∨ t = c.peek) : Judged pool c post (.error (fault.at t))

def Tracks (pool : List Token) (c : Cursor) (x : Attempt α) (p : Parser α) (post : List Token → α → Prop) : Prop :=
  c.rest ⊆ pool → ∃ outcome ts c', x c = some (outcome, c') ∧ p c = outcome.map (·, c') ∧ Passed c ts c' ∧
    Judged pool c' (post ts) outcome

theorem Passed.refl (c : Cursor) : Passed c [] c := ⟨rfl, by simp, rfl⟩

theorem Passed.advance (inside : c.peek.kind ≠ .eof) : Passed c [c.peek] c.advance :=
  ⟨rest_of_peek inside, by simpa using inside, rfl⟩

theorem Passed.trans {c'' : Cursor} {ts ts' : List Token} (first : Passed c ts c') (second : Passed c' ts' c'') :
    Passed c (ts ++ ts') c'' := by
  refine ⟨by rw [first.rest, second.rest, List.append_assoc], ?_, ?_⟩
  · intro t member
    exact (List.mem_append.mp member).elim (first.inside t) (second.inside t)
  · rw [second.last, Cursor.lastAfter, Cursor.lastAfter, List.getLast?_append, first.last, Cursor.lastAfter]
    cases ts'.getLast? <;> rfl

/-- The end of the text stays ahead. -/
theorem Passed.peek_mem {ts : List Token} {last : Token} (passed : Passed c ts c') (ahead : last ∈ c.rest)
    (ended : last.kind = .eof) : c'.peek ∈ c'.rest := by
  have later : last ∈ c'.rest :=
    (List.mem_append.mp (passed.rest ▸ ahead)).resolve_left fun read => passed.inside last read ended
  cases rest : c'.rest with
  | nil =>
    rw [rest] at later
    cases later
  | cons t others =>
    rw [Cursor.peek, rest]
    exact List.mem_cons_self

section Calculus

variable {x : Attempt β} {p : Parser β} {post : List Token → β → Prop}

theorem Tracks.mono {post' : List Token → β → Prop} (tracks : Tracks pool c x p post)
    (implies : ∀ ts b, post ts b → post' ts b) : Tracks pool c x p post' := by
  intro known
  obtain ⟨outcome, ts, c', ran, same, passed, judged⟩ := tracks known
  refine ⟨outcome, ts, c', ran, same, passed, ?_⟩
  cases judged with
  | ok holds => exact .ok (implies _ _ holds)
  | error known => exact .error known

/-- A parser that does the same at the cursor may stand for the other. -/
theorem Tracks.of_eq {q : Parser β} (tracks : Tracks pool c x q post) (same : p c = q c) : Tracks pool c x p post := by
  intro known
  rw [same]
  exact tracks known

theorem Tracks.bind {y : Attempt α} {q : Parser α} {f : α → Attempt β} {g : α → Parser β}
    {mid : List Token → α → Prop} (first : Tracks pool c y q mid)
    (next : ∀ c' a ts, ts.length + c'.rest.length = c.rest.length → c'.last = c.lastAfter ts → mid ts a →
      Tracks pool c' (f a) (g a) fun ts' => post (ts ++ ts')) : Tracks pool c (y >>= f) (q >>= g) post := by
  intro known
  obtain ⟨outcome, ts, c', ran, same, passed, judged⟩ := first known
  have whole : (y >>= f) c = (y c).bind fun r => ExceptT.bindCont f r.1 r.2 := rfl
  have whole' : (q >>= g) c = (q c).bind fun r => g r.1 r.2 := rfl
  rw [whole, whole', ran, same]
  cases judged with
  | error known => exact ⟨_, ts, c', rfl, rfl, passed, .error known⟩
  | @ok a holds =>
    have count : ts.length + c'.rest.length = c.rest.length := by rw [passed.rest, List.length_append]
    have known' : c'.rest ⊆ pool := fun t member => known (passed.rest ▸ List.mem_append_right ts member)
    obtain ⟨outcome', ts', c'', ran', same', passed', judged'⟩ := next c' a _ count passed.last holds known'
    exact ⟨outcome', ts ++ ts', c'', ran', same', passed.trans passed', judged'⟩

theorem tracks_pure {b : β} (holds : post [] b) : Tracks pool c (pure b) (pure b) post :=
  fun _ => ⟨.ok b, [], c, rfl, rfl, .refl c, .ok holds⟩

theorem Tracks.map {y : Attempt α} {q : Parser α} {f : α → β} (first : Tracks pool c y q fun ts a => post ts (f a)) :
    Tracks pool c (f <$> y) (f <$> q) post := by
  rw [← bind_pure_comp, ← bind_pure_comp]
  exact first.bind fun _ _ ts _ _ holds => tracks_pure (by rwa [List.append_nil])

theorem tracks_ite {condition : Prop} [Decidable condition] {y : Attempt β} {q : Parser β}
    (yes : condition → Tracks pool c x p post) (no : ¬condition → Tracks pool c y q post) :
    Tracks pool c (if condition then x else y) (if condition then p else q) post := by
  split
  · exact yes ‹_›
  · exact no ‹_›

theorem tracks_remaining {g : Nat → Parser β} (next : Tracks pool c x (g c.rest.length) post) :
    Tracks pool c x (remaining >>= g) post := next

/-- The tokens still to be read may be blamed. -/
theorem tracks_known (next : c.rest ⊆ pool → Tracks pool c x p post) : Tracks pool c x p post :=
  fun known => next known known

/-- At the end of the tokens it is enough to compute. -/
theorem tracks_of_end {b : β} (ended : c.rest.length = 0) (ran : ∀ span, x ⟨span, []⟩ = some (.ok b, ⟨span, []⟩))
    (same : ∀ span, p ⟨span, []⟩ = .ok (b, ⟨span, []⟩)) (holds : post [] b) : Tracks pool c x p post := by
  obtain ⟨span, rest⟩ := c
  obtain rfl : rest = [] := List.length_eq_zero_iff.mp ended
  exact fun _ => ⟨.ok b, [], _, ran span, same span, .refl _, .ok holds⟩

theorem tracks_expected_of_end {what : Expectation} (ended : c.rest.length = 0)
    (ran : ∀ span, x ⟨span, []⟩ = some (.error ((ParseFault.expected what).at (Cursor.peek ⟨span, []⟩)), ⟨span, []⟩)) :
    Tracks pool c x (expected what) post := by
  obtain ⟨span, rest⟩ := c
  obtain rfl : rest = [] := List.length_eq_zero_iff.mp ended
  exact fun _ => ⟨_, [], _, ran span, rfl, .refl _, .error (.inr rfl)⟩

end Calculus

section Steps

variable {f : α → Attempt β} {p : Parser α} {g : α → Parser β} {post : List Token → β → Prop}

/-- A step that only looks at the cursor. -/
theorem tracks_look {a : α} (here : p c = .ok (a, c)) (next : Tracks pool c (f a) (g a) post) :
    Tracks pool c (step p >>= f) (p >>= g) post := by
  intro known
  have whole : (step p >>= f) c = ExceptT.bindCont f ((p c).map Prod.fst) ((p c).toOption.elim c Prod.snd) := rfl
  have whole' : (p >>= g) c = (p c).bind fun r => g r.1 r.2 := rfl
  rw [whole, whole', here]
  exact next known

/-- A step that reads the next token. -/
theorem tracks_read {a : α} (inside : c.peek.kind ≠ .eof) (here : p c = .ok (a, c.advance))
    (next : c.advance.rest.length + 1 = c.rest.length →
      Tracks pool c.advance (f a) (g a) fun ts => post (c.peek :: ts)) :
    Tracks pool c (step p >>= f) (p >>= g) post := by
  intro known
  have passed := Passed.advance inside
  have whole : (step p >>= f) c = ExceptT.bindCont f ((p c).map Prod.fst) ((p c).toOption.elim c Prod.snd) := rfl
  have whole' : (p >>= g) c = (p c).bind fun r => g r.1 r.2 := rfl
  rw [whole, whole', here]
  have count : c.advance.rest.length + 1 = c.rest.length := by rw [passed.rest, List.length_append, Nat.add_comm]; rfl
  have known' : c.advance.rest ⊆ pool := fun t member => known (passed.rest ▸ List.mem_cons_of_mem _ member)
  obtain ⟨outcome, ts, c', ran, same, passed', judged⟩ := next count known'
  exact ⟨outcome, c.peek :: ts, c', ran, same, passed.trans passed', judged⟩

theorem tracks_next {f : Token → Attempt β} {g : Token → Parser β} (inside : c.peek.kind ≠ .eof)
    (after : c.advance.rest.length + 1 = c.rest.length →
      Tracks pool c.advance (f c.peek) (g c.peek) fun ts => post (c.peek :: ts)) :
    Tracks pool c (step next >>= f) (next >>= g) post := tracks_read inside rfl after

theorem tracks_fail {fault : ParseFault} {t : Token} {post : List Token → α → Prop}
    (here : p c = .error (fault.at t)) (known : t ∈ pool ∨ t = c.peek) : Tracks pool c (step p) p post := by
  refine fun _ => ⟨.error (fault.at t), [], c, ?_, here, .refl c, .error known⟩
  rw [step, here]
  rfl

theorem tracks_failing {fault : ParseFault} {t : Token} (here : p c = .error (fault.at t))
    (known : t ∈ pool ∨ t = c.peek) : Tracks pool c (step p >>= f) (p >>= g) post := by
  have failed : Tracks pool c (step p) p fun _ _ => False := tracks_fail here known
  exact failed.bind fun _ _ _ _ _ => False.elim

theorem tracks_expected {what : Expectation} {post : List Token → α → Prop} :
    Tracks pool c (step (expected what)) (expected what) post := tracks_fail rfl (.inr rfl)

/-- A step that accepts a kind of token. -/
theorem tracks_accepting {p : Parser Bool} {f : Bool → Attempt β} {g : Bool → Parser β} {kind : TokenKind}
    (inside : kind ≠ .eof) (here : p = (return (← accept? kind).isSome))
    (yes : c.peek.kind = kind → c.advance.rest.length + 1 = c.rest.length →
      Tracks pool c.advance (f true) (g true) fun ts => post (c.peek :: ts))
    (no : Tracks pool c (f false) (g false) post) : Tracks pool c (step p >>= f) (p >>= g) post := by
  have result : p c = _ := here ▸ accepted_eq kind c
  split at result
  · rename_i found
    exact tracks_read (found ▸ inside) result (yes found)
  · exact tracks_look result no

theorem tracks_ifAccept {symbol : Symbol} {x y : Attempt β} {p q : Parser β}
    (yes : ∀ c' t, t.kind = .symbol symbol → c'.last = t.span → c'.rest.length + 1 = c.rest.length →
      Tracks pool c' x p fun ts => post (t :: ts)) (no : Tracks pool c y q post) :
    Tracks pool c (step (accept symbol) >>= fun accepted => if accepted = true then x else y)
      (accept symbol >>= fun accepted => if accepted = true then p else q) post :=
  tracks_accepting (by simp) rfl (fun kind => yes c.advance c.peek kind rfl) no

theorem tracks_ifKeyword {keyword : Keyword} {x y : Attempt β} {p q : Parser β}
    (yes : c.peek.kind = .keyword keyword → c.advance.rest.length + 1 = c.rest.length →
      Tracks pool c.advance x p fun ts => post (c.peek :: ts)) (no : Tracks pool c y q post) :
    Tracks pool c (step (acceptKeyword keyword) >>= fun accepted => if accepted = true then x else y)
      (acceptKeyword keyword >>= fun accepted => if accepted = true then p else q) post :=
  tracks_accepting (by simp) rfl yes no

/-- A symbol that may be missing. -/
theorem tracks_optional {symbol : Symbol} {x : Attempt β} {p : Parser β}
    (next : ∀ c' sep, sep.length + c'.rest.length = c.rest.length → Grammar.Optional [symbol] (sep.map (·.kind)) →
      Tracks pool c' x p fun ts => post (sep ++ ts)) :
    Tracks pool c (step (accept symbol) >>= fun _ => x) (accept symbol >>= fun _ => p) post := by
  refine tracks_accepting (by simp) rfl (fun kind count => ?_) ?_
  · exact next c.advance [c.peek] (by simpa [Nat.add_comm] using count) (.inr ⟨symbol, by simp, by simp [kind]⟩)
  · exact next c [] (by simp) (.inl rfl)

theorem tracks_expecting {symbol : Symbol} {what : Expectation} {f : Unit → Attempt β} {g : Unit → Parser β}
    (next : ∀ c' t, t.kind = .symbol symbol → c'.last = t.span → c'.rest.length + 1 = c.rest.length →
      Tracks pool c' (f ()) (g ()) fun ts => post (t :: ts)) :
    Tracks pool c (step (expect symbol what) >>= f) (expect symbol what >>= g) post := by
  have result : expect symbol what c =
      (accept symbol c).bind fun r => (if r.1 = true then pure () else expected what : Parser Unit) r.2 := rfl
  rw [show accept symbol c = _ from accepted_eq _ c] at result
  split at result
  · rename_i found
    exact tracks_read (by simp [found]) result (next c.advance c.peek found rfl)
  · exact tracks_failing result (.inr rfl)

theorem identifier_cases (what : Expectation) (c : Cursor) :
    (∃ name, c.peek.kind = .identifier name ∧ identifier what c = .ok ((name, c.peek), c.advance)) ∨
      identifier what c = .error ((ParseFault.expected what).at c.peek) := by
  obtain ⟨last, rest⟩ := c
  cases rest with
  | nil => exact .inr rfl
  | cons t rest =>
    obtain ⟨kind, text, span, location⟩ := t
    cases kind with
    | identifier name => exact .inl ⟨name, rfl, rfl⟩
    | _ => exact .inr rfl

theorem tracks_named {what : Expectation} {f : String × Token → Attempt β} {g : String × Token → Parser β}
    (next : ∀ c' name t, t.kind = .identifier name → t ∈ pool → c'.rest.length + 1 = c.rest.length →
      Tracks pool c' (f (name, t)) (g (name, t)) fun ts => post (t :: ts)) :
    Tracks pool c (step (identifier what) >>= f) (identifier what >>= g) post := by
  refine tracks_known fun known => ?_
  rcases identifier_cases what c with ⟨name, found, result⟩ | result
  · have inside : c.peek.kind ≠ .eof := by simp [found]
    have member : c.peek ∈ pool := known (rest_of_peek inside ▸ List.mem_cons_self)
    exact tracks_read inside result (next c.advance name c.peek found member)
  · exact tracks_failing result (.inr rfl)

end Steps

/-- At every cursor with fewer than `bound` tokens the parser does what the rule does, which needs ten units of fuel for
each token and some for the rules it goes through before it reads one. -/
def Serves (pool : List Token) (rule : Rule α) (height bound : Nat) (p : Parser α) (post : List Token → α → Prop) :
    Prop :=
  ∀ n c, c.rest.length < bound → 10 * c.rest.length + height ≤ n → Tracks pool c (rule.run n) p post

theorem serves_of_body {rule : Rule α} {height bound : Nat} {p : Parser α} {post : List Token → α → Prop}
    (body : ∀ n c, c.rest.length < bound → 10 * c.rest.length + height ≤ n →
      Tracks pool c (rule.body (Rule.run n)) p post) : Serves pool rule (height + 1) bound p post := by
  intro n c short fuel
  cases n with
  | zero => omega
  | succ n => exact body n c short (by omega)

section Results

variable {x : Attempt α} {p : Parser α} {post : List Token → α → Prop} {a : α}

theorem Tracks.passed (tracks : Tracks c.rest c x p post) (ran : p c = .ok (a, c')) :
    ∃ ts, Passed c ts c' ∧ post ts a := by
  obtain ⟨outcome, ts, c'', -, same, passed, judged⟩ := tracks (List.Subset.refl _)
  rw [same] at ran
  cases judged with
  | error => cases ran
  | ok holds =>
    cases ran
    exact ⟨ts, passed, holds⟩

/-- With the end of the text ahead every error is at a token. -/
theorem Tracks.error_mem (tracks : Tracks c.rest c x p post) {last : Token} (ahead : last ∈ c.rest)
    (ended : last.kind = .eof) {e : ParseError} (failed : p c = .error e) :
    ∃ t ∈ c.rest, ∃ fault, e = ParseFault.at fault t := by
  obtain ⟨outcome, ts, c', -, same, passed, judged⟩ := tracks (List.Subset.refl _)
  rw [same] at failed
  cases judged with
  | ok => cases failed
  | @error fault t known =>
    cases failed
    refine ⟨t, known.elim id fun here => ?_, fault, rfl⟩
    exact here ▸ passed.rest ▸ List.mem_append_right ts (passed.peek_mem ahead ended)

end Results

end StructLang.Parser
