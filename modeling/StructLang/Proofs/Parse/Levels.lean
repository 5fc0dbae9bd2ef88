import StructLang.Proofs.Parse.Derivation
import StructLang.Proofs.Parse.Printing
import StructLang.Proofs.Parse.Progress

namespace StructLang

def TokenKind.continues : TokenKind → Option Level
  | .symbol .leftParen | .symbol .leftBrace => some .primary
  | .symbol .dot | .symbol .arrow | .symbol .leftBracket => some .access
  | .symbol .star | .symbol .slash => some .term
  | .symbol .plus | .symbol .minus => some .additive
  | .symbol .equalEqual | .symbol .less | .symbol .greater | .symbol .lessEqual | .symbol .greaterEqual =>
    some .comparison
  | .symbol .equal => some .expr
  | _ => none

def TokenKind.opens : TokenKind → Option Level
  | .symbol .minus | .symbol .star | .symbol .ampersand => some .unary
  | .symbol .leftParen | .identifier _ | .int _ | .float _ | .string _ => some .primary
  | _ => none

namespace Level

def Stops (l : Level) (rest : List TokenKind) : Prop :=
  ∀ l' ∈ (rest.headD .eof).continues, l'.tightness < l.tightness

variable {l l' : Level} {rest : List TokenKind}

theorem stops_cons {kind : TokenKind} (ended : kind.continues = none) : l.Stops (kind :: rest) := by
  rw [Stops, List.headD_cons, ended]
  nofun

theorem stops_of_continues {kind : TokenKind} (continues : kind.continues = some l')
    (looser : l'.tightness < l.tightness) : l.Stops (kind :: rest) := by
  rw [Stops, List.headD_cons, continues]
  rintro _ ⟨⟩
  exact looser

theorem Stops.tighter (stops : l.Stops rest) (tighter : l.tightness ≤ l'.tightness) : l'.Stops rest :=
  fun l'' continues => Nat.lt_of_lt_of_le (stops l'' continues) tighter

theorem Stops.ne {kind : TokenKind} (stops : l.Stops rest) (continues : kind.continues = some l')
    (tighter : l.tightness ≤ l'.tightness) : rest.headD .eof ≠ kind := by
  intro same
  have loose := stops l' (by rw [same, continues]; rfl)
  omega

theorem tightness_injective (same : l.tightness = l'.tightness) : l = l' := by
  cases l <;> cases l' <;> first | rfl | cases same

theorem tightness_operands (operands : l.operands = some l') : l'.tightness = l.tightness + 1 := by
  cases l <;> cases operands <;> rfl

end Level

theorem UnaryOp.unaryOp_symbol (op : UnaryOp) : Parser.unaryOp? (.symbol op.symbol) = some op := by
  cases op <;> rfl

theorem BinaryOp.continues_symbol (op : BinaryOp) : (TokenKind.symbol op.symbol).continues = some op.level := by
  cases op <;> rfl

/-- Tight expressions start with no operator. -/
theorem Expr.opens_tokens : (e : Expr) → ∃ kind more l, e.tokens = kind :: more ∧ kind.opens = some l ∧
    (Level.unary.tightness < e.level.tightness → l = .primary)
  | .assign _ target value => by
    rw [tokens, Level.enclose]
    split
    · exact ⟨_, _, _, rfl, rfl, nofun⟩
    · obtain ⟨kind, more, l, same, opens, _⟩ := opens_tokens target
      rw [same]
      exact ⟨_, _, _, rfl, opens, nofun⟩
  | .binary _ op lhs rhs => by
    have loose : ¬Level.unary.tightness < op.level.tightness := by
      cases op <;> decide
    rw [tokens, Level.enclose]
    split
    · exact ⟨_, _, _, rfl, rfl, fun tight => absurd tight loose⟩
    · obtain ⟨kind, more, l, same, opens, _⟩ := opens_tokens lhs
      rw [same]
      exact ⟨_, _, _, rfl, opens, fun tight => absurd tight loose⟩
  | .unary _ op operand => ⟨_, _, .unary, by rw [tokens], by cases op <;> rfl, nofun⟩
  | .field _ base name => by
    rw [tokens, Level.enclose]
    split
    · exact ⟨_, _, _, rfl, rfl, fun _ => rfl⟩
    · rename_i tight
      obtain ⟨kind, more, l, same, opens, primary⟩ := opens_tokens base
      rw [same]
      exact ⟨_, _, _, rfl, opens, fun _ => primary (by simp only [Level.tightness] at tight ⊢; omega)⟩
  | .index _ base offset => by
    rw [tokens, Level.enclose]
    split
    · exact ⟨_, _, _, rfl, rfl, fun _ => rfl⟩
    · rename_i tight
      obtain ⟨kind, more, l, same, opens, primary⟩ := opens_tokens base
      rw [same]
      exact ⟨_, _, _, rfl, opens, fun _ => primary (by simp only [Level.tightness] at tight ⊢; omega)⟩
  | .call .. | .struct .. => ⟨_, _, .primary, by rw [tokens]; rfl, rfl, fun _ => rfl⟩
  | .variable .. | .int .. | .float .. | .string .. => ⟨_, _, .primary, by rw [tokens], rfl, fun _ => rfl⟩

theorem Expr.headD_tokens {kind : TokenKind} (other : kind.opens = none) (e : Expr) (more : List TokenKind) :
    (e.tokens ++ more).headD .eof ≠ kind := by
  obtain ⟨first, _, l, same, opens, _⟩ := e.opens_tokens
  rw [same, List.cons_append, List.headD_cons]
  intro equal
  rw [← equal, opens] at other
  cases other

theorem Expr.length_tokens (e : Expr) : 0 < e.tokens.length := by
  obtain ⟨kind, more, _, same, _⟩ := e.opens_tokens
  rw [same, List.length_cons]
  omega

theorem Level.length_enclose (needed own : Level) (ts : List TokenKind) : ts.length ≤ (needed.enclose own ts).length := by
  rw [enclose]
  split
  · rw [List.length_append, List.length_cons]
    omega
  · exact Nat.le_refl _

namespace Parser

variable {self : Parser Expr} {l l' : Level} {ts : List TokenKind} {e : Expr} {depth : Nat}

def atLevel (self : Parser Expr) : Level → Parser Expr
  | .expr => assignment self
  | .comparison => comparison self
  | .additive => additive self
  | .term => term self
  | .unary => unary self
  | .access => operand self
  | .primary => primary self

def loopAt (self : Parser Expr) : Level → Nat → Expr → Parser Expr
  | .comparison => chainRest comparisonOp? (additive self)
  | .additive => chainRest additiveOp? (term self)
  | .term => chainRest termOp? (unary self)
  | .access => accesses self
  | .expr | .unary | .primary => fun _ e => pure e

inductive Loops : Level → Level → Prop
  | comparison : Loops .comparison .additive
  | additive : Loops .additive .term
  | term : Loops .term .unary
  | access : Loops .access .primary

theorem Loops.operands (loops : Loops l l') : l.operands = some l' := by
  cases loops <;> rfl

theorem atLevel_loops (loops : Loops l l') :
    atLevel self l = (do
      let e ← atLevel self l'
      loopAt self l (← remaining) e) := by
  cases loops <;> rfl

theorem loops_of_op (op : BinaryOp) : Loops op.level op.rightLevel := by
  cases op <;> constructor

def Prints (self : Parser Expr) (l : Level) (ts : List TokenKind) (e : Expr) : Prop :=
  ∀ c rest, c.kinds = ts ++ rest → l.Stops rest → Parses c (atLevel self l) rest fun a => a.erase = e.erase

/-- After the tokens the rule of the level is in its loop. -/
def Arrives (self : Parser Expr) (l l' : Level) (ts : List TokenKind) (e : Expr) : Prop :=
  ∀ c rest rest' good, c.kinds = ts ++ rest → l'.Stops rest →
    (∀ c a n, c.kinds = rest → rest.length ≤ n → a.erase = e.erase → Parses c (loopAt self l n a) rest' good) →
    Parses c (atLevel self l) rest' good

theorem parses_chainRest_stops {op? : TokenKind → Option BinaryOp} {operand : Parser Expr} {c : Cursor}
    (ops : OperatorsOf l op?) (stops : l.Stops c.kinds) (n : Nat) (lhs : Expr) :
    Parses c (chainRest op? operand n lhs) c.kinds fun a => a = lhs := by
  cases n with
  | zero => exact parses_pure rfl rfl
  | succ n =>
    refine parses_peekKind ?_
    split
    · exact parses_pure rfl rfl
    · rename_i op found
      have continues := op.continues_symbol
      rw [ops.level found] at continues
      exact absurd (ops.symbol found) (stops.ne continues (Nat.le_refl _))

theorem parses_accesses_stops {c : Cursor} (stops : Level.access.Stops c.kinds) (n : Nat) (base : Expr) :
    Parses c (accesses self n base) c.kinds fun a => a = base := by
  cases n with
  | zero => exact parses_pure rfl rfl
  | succ n =>
    have other {kind : TokenKind} (continues : kind.continues = some .access) : c.kinds.headD .eof ≠ kind :=
      stops.ne continues (Nat.le_refl _)
    refine parses_accept_other (other rfl) (parses_accept_other (other rfl) ?_)
    exact parses_accept_other (other rfl) (parses_pure rfl rfl)

theorem parses_loopAt_stops {c : Cursor} (loops : Loops l l') (stops : l.Stops c.kinds) (n : Nat) (a : Expr) :
    Parses c (loopAt self l n a) c.kinds fun a' => a' = a := by
  cases loops with
  | comparison => exact parses_chainRest_stops operatorsOf_comparison stops n a
  | additive => exact parses_chainRest_stops operatorsOf_additive stops n a
  | term => exact parses_chainRest_stops operatorsOf_term stops n a
  | access => exact parses_accesses_stops stops n a

theorem parses_chainRest_op {op : BinaryOp} {op? : TokenKind → Option BinaryOp} {operand : Parser Expr} {c : Cursor}
    {n : Nat} {lhs : Expr} {more mid rest : List TokenKind} {good good' : Expr → Prop}
    (known : op? (.symbol op.symbol) = some op) (kinds : c.kinds = .symbol op.symbol :: more)
    (right : ∀ c, c.kinds = more → Parses c operand mid good')
    (next : ∀ c rhs span, c.kinds = mid → good' rhs → Parses c (chainRest op? operand n (.binary span op lhs rhs)) rest good) :
    Parses c (chainRest op? operand (n + 1) lhs) rest good := by
  refine parses_peekKind ?_
  rw [kinds, List.headD_cons, known]
  refine parses_reading kinds fun c _ left _ => ?_
  exact (right c left).bind fun c rhs left holds => next c rhs _ left holds

/-- With an operator of the level the loop reads an operand and goes on. -/
theorem parses_loopAt_op (op : BinaryOp) {c : Cursor} {n : Nat} {lhs : Expr} {more mid rest : List TokenKind}
    {good good' : Expr → Prop} (kinds : c.kinds = .symbol op.symbol :: more)
    (right : ∀ c, c.kinds = more → Parses c (atLevel self op.rightLevel) mid good')
    (next : ∀ c rhs span, c.kinds = mid → good' rhs →
      Parses c (loopAt self op.level n (.binary span op lhs rhs)) rest good) :
    Parses c (loopAt self op.level (n + 1) lhs) rest good := by
  cases op <;> exact parses_chainRest_op rfl kinds right next

theorem Arrives.prints (arrives : Arrives self l l' ts e) (loops : Loops l l') : Prints self l ts e := by
  intro c rest kinds stops
  have tighter : l.tightness ≤ l'.tightness := by
    rw [Level.tightness_operands loops.operands]
    omega
  refine arrives c rest _ _ kinds (stops.tighter tighter) fun c a n left _ same => ?_
  subst left
  exact (parses_loopAt_stops loops stops n a).mono fun a' here => here ▸ same

theorem Prints.arrives (prints : Prints self l' ts e) (loops : Loops l l') : Arrives self l l' ts e := by
  intro c rest rest' good kinds stops next
  rw [atLevel_loops loops]
  refine (prints c rest kinds stops).bind fun c a left same => parses_remaining ?_
  exact next c a _ left (Nat.le_of_eq (congrArg List.length left).symm) same

theorem parses_unary_iff {c : Cursor} {rest : List TokenKind} {good : Expr → Prop} :
    Parses c (unary self) rest good ↔ Parses c (prefixed (operand self) c.kinds.length) rest good := by
  rw [c.length_kinds]
  rfl

def Bare (ts : List TokenKind) : Prop := ∃ kind more, ts = kind :: more ∧ kind.opens = some .primary

theorem Prints.unary (prints : Prints self .access ts e) (bare : Bare ts) : Prints self .unary ts e := by
  intro c rest kinds stops
  have operand := prints c rest kinds (stops.tighter (by decide))
  obtain ⟨kind, more, rfl, opens⟩ := bare
  have none : unaryOp? kind = none := by
    cases found : unaryOp? kind with
    | none => rfl
    | some op =>
      rw [(unaryOp_symbol found).1] at opens
      cases op <;> cases opens
  rw [atLevel, parses_unary_iff, kinds, List.cons_append, List.length_cons]
  refine parses_peekKind ?_
  rw [kinds, List.cons_append, List.headD_cons, none]
  exact operand

theorem Prints.expr (prints : Prints self .comparison ts e) : Prints self .expr ts e := by
  intro c rest kinds stops
  refine (prints c rest kinds (stops.tighter (by decide))).bind fun c a left same => ?_
  have other : c.kinds.headD .eof ≠ .symbol .equal := by
    rw [left]
    exact stops.ne rfl (Nat.le_refl _)
  have ran : accept? (.symbol .equal) c = .ok (none, c) := by rw [accept?_eq, if_neg (c.peek_kind ▸ other)]
  exact parses_step ran (parses_pure left same)

theorem Prints.looser (prints : Prints self l' ts e) (operands : l.operands = some l') (bare : l = .unary → Bare ts) :
    Prints self l ts e := by
  cases l with
  | expr =>
    cases operands
    exact prints.expr
  | unary =>
    cases operands
    exact prints.unary (bare rfl)
  | primary => cases operands
  | comparison =>
    cases operands
    exact (prints.arrives .comparison).prints .comparison
  | additive =>
    cases operands
    exact (prints.arrives .additive).prints .additive
  | term =>
    cases operands
    exact (prints.arrives .term).prints .term
  | access =>
    cases operands
    exact (prints.arrives .access).prints .access

/-- What is read at a level is read at all looser ones, unless an operator at its front is in the way. -/
theorem Prints.loosen (prints : Prints self l ts e) (bare : Level.unary.tightness < l.tightness → Bare ts) :
    (n : Nat) → {l' : Level} → l'.tightness + n = l.tightness → Prints self l' ts e
  | 0, l', reached => Level.tightness_injective reached ▸ prints
  | n + 1, l', reached => by
    cases operands : l'.operands with
    | none =>
      cases l' <;> cases operands
      cases l <;> simp only [Level.tightness] at reached <;> omega
    | some l'' =>
      have next := Level.tightness_operands operands
      have inner : Prints self l'' ts e := loosen prints bare n (by omega)
      refine inner.looser operands fun unary => bare ?_
      rw [unary] at reached
      omega

theorem Prints.at (prints : Prints self l ts e) (bare : Level.unary.tightness < l.tightness → Bare ts)
    (looser : l'.tightness ≤ l.tightness) : Prints self l' ts e :=
  prints.loosen bare (l.tightness - l'.tightness) (by omega)

theorem prints_group (prints : Prints (expressionWithin depth) .expr ts e) :
    Prints (expressionWithin (depth + 1)) .primary (.symbol .leftParen :: ts ++ [TokenKind.symbol .rightParen]) e := by
  intro c rest kinds stops
  rw [List.cons_append, List.cons_append, List.append_assoc] at kinds
  refine parses_peek kinds fun token here => ?_
  rw [here]
  refine parses_reading kinds fun c _ left _ => ?_
  refine (prints c _ left (Level.stops_cons rfl)).bind fun c a left same => ?_
  refine parses_expect left fun c left => parses_lastSpan fun span => parses_pure left ?_
  rw [Expr.erase_withSpan]
  exact same

/-- The tokens of the expression are read back at its own level, where the depth suffices. -/
structure Printed (e : Expr) : Prop where
  prints : ∀ depth, e.tokens.length ≤ depth + 1 → Prints (expressionWithin depth) e.level e.tokens e
  arrives : ∀ depth l', e.tokens.length ≤ depth + 1 → Loops e.level l' →
    Arrives (expressionWithin depth) e.level l' e.tokens e

theorem Printed.of_arrives (loops : Loops e.level l') (arrives : ∀ depth, e.tokens.length ≤ depth + 1 →
    Arrives (expressionWithin depth) e.level l' e.tokens e) : Printed e where
  prints depth enough := (arrives depth enough).prints loops
  arrives depth l'' enough loops' := by
    cases loops.operands.symm.trans loops'.operands
    exact arrives depth enough

theorem Printed.of_prints (plain : ∀ l', ¬Loops e.level l') (prints : ∀ depth, e.tokens.length ≤ depth + 1 →
    Prints (expressionWithin depth) e.level e.tokens e) : Printed e where
  prints := prints
  arrives _ l' _ loops := absurd loops (plain l')

theorem Printed.bare (printed : Printed e) (enough : e.tokens.length ≤ depth + 1)
    (looser : l.tightness ≤ e.level.tightness) : Prints (expressionWithin depth) l e.tokens e := by
  refine (printed.prints depth enough).at (fun tight => ?_) looser
  obtain ⟨kind, more, l', same, opens, primary⟩ := e.opens_tokens
  exact ⟨kind, more, same, primary tight ▸ opens⟩

theorem Printed.enclosed (printed : Printed e) (l : Level)
    (enough : (l.enclose e.level e.tokens).length ≤ depth + 1) :
    Prints (expressionWithin depth) l (l.enclose e.level e.tokens) e := by
  rw [Level.enclose] at enough ⊢
  split at enough
  · rename_i loose
    rw [if_pos loose]
    have some := e.length_tokens
    simp only [List.cons_append, List.length_cons, List.length_append, List.length_nil] at enough
    obtain ⟨depth, rfl⟩ : ∃ n, depth = n + 1 := ⟨depth - 1, by omega⟩
    have inner : Prints (expressionWithin depth) .expr e.tokens e := printed.bare (by omega) (Nat.zero_le _)
    refine (prints_group inner).at (fun _ => ⟨_, _, rfl, rfl⟩) ?_
    cases l <;> decide
  · rename_i tight
    rw [if_neg tight]
    exact printed.bare enough (by omega)

theorem Printed.arrivesAt (printed : Printed e) (loops : Loops l l')
    (enough : (l.enclose e.level e.tokens).length ≤ depth + 1) :
    Arrives (expressionWithin depth) l l' (l.enclose e.level e.tokens) e := by
  have next := Level.tightness_operands loops.operands
  by_cases own : e.level = l
  · subst own
    rw [Level.enclose, if_neg (Nat.lt_irrefl _)] at enough ⊢
    exact printed.arrives depth l' enough loops
  · have apart : e.level.tightness ≠ l.tightness := fun same => own (Level.tightness_injective same)
    have same : l.enclose e.level e.tokens = l'.enclose e.level e.tokens := by
      have iff : e.level.tightness < l.tightness ↔ e.level.tightness < l'.tightness := by omega
      simp only [Level.enclose, iff]
    rw [same] at enough ⊢
    exact (printed.enclosed l' enough).arrives loops

/-- A whole expression inside another one. -/
theorem Printed.within (printed : Printed e) {c : Cursor} {rest : List TokenKind} (enough : e.tokens.length ≤ depth)
    (kinds : c.kinds = e.tokens ++ rest) (stops : Level.expr.Stops rest) :
    Parses c (expressionWithin depth) rest fun a => a.erase = e.erase := by
  have some := e.length_tokens
  obtain ⟨depth, rfl⟩ : ∃ n, depth = n + 1 := ⟨depth - 1, by omega⟩
  exact printed.bare enough (Nat.zero_le _) c rest kinds stops

theorem Printed.parses (printed : Printed e) {c : Cursor} {rest : List TokenKind}
    (kinds : c.kinds = e.tokens ++ rest) (stops : Level.expr.Stops rest) :
    Parses c expression rest fun a => a.erase = e.erase := by
  refine parses_remaining (printed.within ?_ kinds stops)
  rw [kinds, List.length_append]
  omega

end Parser

end StructLang
