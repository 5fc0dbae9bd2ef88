import StructLang.Proofs.Parse.Levels

namespace StructLang.Parser

variable {depth : Nat} {c : Cursor} {rest : List TokenKind}

theorem opensLiteral_empty (kinds : c.kinds = .symbol .leftBrace :: .symbol .rightBrace :: rest) :
    opensLiteral c.rest = true := by
  obtain ⟨last, tokens⟩ := c
  rcases tokens with _ | ⟨brace, _ | ⟨first, others⟩⟩ <;> simp only [Cursor.kinds, List.map, List.cons.injEq] at kinds
  · cases kinds
  · cases kinds.2
  · simp only [opensLiteral, kinds.1, kinds.2.1]
    rfl

theorem opensLiteral_field {name : String}
    (kinds : c.kinds = .symbol .leftBrace :: .identifier name :: .symbol .colon :: rest) :
    opensLiteral c.rest = true := by
  obtain ⟨last, tokens⟩ := c
  rcases tokens with _ | ⟨brace, _ | ⟨first, _ | ⟨second, others⟩⟩⟩ <;>
    simp only [Cursor.kinds, List.map, List.cons.injEq] at kinds
  · cases kinds
  · cases kinds.2
  · cases kinds.2.2
  · simp only [opensLiteral, kinds.1, kinds.2.1, kinds.2.2.1]
    rfl

theorem opensLiteral_other (other : c.kinds.headD .eof ≠ .symbol .leftBrace) : opensLiteral c.rest = false := by
  obtain ⟨last, tokens⟩ := c
  rcases tokens with _ | ⟨brace, _ | ⟨first, others⟩⟩
  · rfl
  · rfl
  · have apart : brace.kind ≠ .symbol .leftBrace := other
    simp only [opensLiteral, apart, decide_false, Bool.false_and]

theorem parses_arguments : (args : List Expr) → (∀ e ∈ args, Printed e) → args ≠ [] → (n : Nat) → args.length ≤ n →
    (c : Cursor) → (Expr.listTokens args).length ≤ depth →
    c.kinds = Expr.listTokens args ++ .symbol .rightParen :: rest →
    Parses c (arguments (expressionWithin depth) n) (.symbol .rightParen :: rest) fun args' =>
      Expr.eraseAll args' = Expr.eraseAll args
  | [], _, filled, _, _, _, _, _ => absurd rfl filled
  | _ :: _, _, _, 0, long, _, _, _ => absurd long (Nat.not_succ_le_zero _)
  | [e], printed, _, n + 1, _, c, enough, kinds => by
    have first := (printed e (List.mem_singleton_self e)).within enough kinds (Level.stops_cons rfl)
    refine first.bind fun c a left same => ?_
    refine parses_accept_other (by rw [left]; nofun) (parses_pure left ?_)
    rw [Expr.eraseAll, Expr.eraseAll, same]
    rfl
  | e :: e' :: others, printed, _, n + 1, long, c, enough, kinds => by
    rw [Expr.listTokens, List.length_append, List.length_cons] at enough
    rw [Expr.listTokens, List.append_assoc, List.cons_append] at kinds
    have short : e.tokens.length ≤ depth := by omega
    have first := (printed e (List.mem_cons_self ..)).within short kinds (Level.stops_cons rfl)
    refine first.bind fun c a left same => parses_accept left fun c left => ?_
    have more := parses_arguments (e' :: others) (fun e member => printed e (List.mem_cons_of_mem _ member)) nofun n
      (Nat.le_of_succ_le_succ long) c (by omega) left
    refine more.bind fun c args left same' => parses_pure left ?_
    rw [Expr.eraseAll, same, same', ← Expr.eraseAll]

theorem parses_fieldInits : (inits : List FieldInit) → (∀ init ∈ inits, Printed init.value) → (n : Nat) →
    inits.length ≤ n → (c : Cursor) → (FieldInit.listTokens inits).length ≤ depth →
    c.kinds = FieldInit.listTokens inits ++ .symbol .rightBrace :: rest →
    Parses c (fieldInits (expressionWithin depth) n) (.symbol .rightBrace :: rest) fun inits' =>
      FieldInit.eraseAll inits' = FieldInit.eraseAll inits
  | [], _, 0, _, c, _, kinds => parses_pure kinds rfl
  | [], _, n + 1, _, c, _, kinds => by
    refine parses_sees (parses_atEnd ?_)
    rw [kinds]
    exact parses_pure kinds rfl
  | _ :: _, _, 0, long, _, _, _ => absurd long (Nat.not_succ_le_zero _)
  | ⟨name, value, span⟩ :: others, printed, n + 1, long, c, enough, kinds => by
    simp only [FieldInit.listTokens, FieldInit.tokens, List.cons_append, List.append_assoc, List.nil_append,
      List.length_cons, List.length_append] at enough kinds
    refine parses_sees (parses_atEnd ?_)
    rw [kinds]
    refine parses_identifier kinds fun c token left => parses_expect left fun c left => ?_
    have short : value.tokens.length ≤ depth := by omega
    have first := (printed _ (List.mem_cons_self ..)).within short left (Level.stops_cons rfl)
    refine first.bind fun c a left same => parses_accept left fun c left => ?_
    have more := parses_fieldInits others (fun init member => printed init (List.mem_cons_of_mem _ member)) n
      (Nat.le_of_succ_le_succ long) c (by omega) left
    refine more.bind fun c inits left same' => parses_pure left ?_
    rw [FieldInit.eraseAll, FieldInit.eraseAll, FieldInit.erase, FieldInit.erase, same, same']

variable {span : Span} {e target value lhs rhs base offset operand : Expr}

theorem printed_assign (place : target.isPlace = true) (left : Printed target) (right : Printed value) :
    Printed (.assign span target value) := by
  refine .of_prints (by rintro _ ⟨⟩) fun depth enough c rest kinds stops => ?_
  rw [Expr.tokens, List.length_append, List.length_cons] at enough
  rw [Expr.tokens, List.append_assoc, List.cons_append] at kinds
  have some := Nat.lt_of_lt_of_le target.length_tokens (Level.unary.length_enclose target.level target.tokens)
  have short : (Level.unary.enclose target.level target.tokens).length ≤ depth + 1 := by omega
  have comparison : Prints (expressionWithin depth) .comparison _ target :=
    (left.enclosed .unary short).at (fun below => absurd below (by decide)) (by decide)
  refine (comparison c _ kinds (Level.stops_of_continues rfl (by decide))).bind fun c a left same => ?_
  obtain ⟨found, left⟩ := Cursor.next_of_kinds left
  have ran : accept? (.symbol .equal) c = .ok (.some c.peek, c.advance) := by rw [accept?_eq, if_pos found]
  refine parses_step ran ?_
  simp only [Expr.isPlace_of_erase same, place, ↓reduceIte]
  refine (right.within (by omega) left stops).bind fun c b left same' => parses_pure left ?_
  rw [Expr.erase, Expr.erase, same, same']

theorem printed_binary (op : BinaryOp) (left : Printed lhs) (right : Printed rhs) :
    Printed (.binary span op lhs rhs) := by
  refine .of_arrives (loops_of_op op) fun depth enough c rest rest' good kinds stops next => ?_
  rw [Expr.tokens, List.length_append, List.length_cons] at enough
  rw [Expr.tokens, List.append_assoc, List.cons_append] at kinds
  have short : (op.level.enclose lhs.level lhs.tokens).length ≤ depth + 1 := by omega
  refine left.arrivesAt (loops_of_op op) short c _ rest' good kinds ?_ fun c a n left long same => ?_
  · refine Level.stops_of_continues op.continues_symbol ?_
    rw [Level.tightness_operands (loops_of_op op).operands]
    omega
  obtain ⟨n, rfl⟩ : ∃ m, n = m + 1 := ⟨n - 1, by rw [List.length_cons] at long; omega⟩
  have short : (op.rightLevel.enclose rhs.level rhs.tokens).length ≤ depth + 1 := by omega
  refine parses_loopAt_op op left (fun c left => right.enclosed op.rightLevel short c rest left stops) ?_
  intro c b span left same'
  refine next c _ n left ?_ ?_
  · rw [List.length_cons, List.length_append] at long
    omega
  · rw [Expr.erase, Expr.erase, same, same']

theorem printed_unary (op : UnaryOp) (inner : Printed operand) : Printed (.unary span op operand) := by
  refine .of_prints nofun fun depth enough c rest kinds stops => ?_
  rw [Expr.tokens, List.length_cons] at enough
  rw [Expr.tokens, List.cons_append] at kinds
  rw [Expr.level, atLevel, parses_unary_iff, kinds, List.length_cons]
  refine parses_peekKind ?_
  rw [kinds, List.headD_cons, op.unaryOp_symbol]
  refine parses_reading kinds fun c token left _ => ?_
  have short : (Level.unary.enclose operand.level operand.tokens).length ≤ depth + 1 := by omega
  have inside := inner.enclosed .unary short c rest left stops
  rw [atLevel, parses_unary_iff, left] at inside
  refine inside.bind fun c a left same => parses_pure left ?_
  rw [Expr.erase, Expr.erase, same]

/-- An access goes on from its base in the loop. -/
theorem printed_access {kind : TokenKind} {more : List TokenKind} (level : e.level = .access)
    (tokens : e.tokens = Level.access.enclose base.level base.tokens ++ kind :: more)
    (continues : kind.continues = some .access) (inner : Printed base)
    (step : ∀ depth c a n rest rest' good, e.tokens.length ≤ depth + 1 → c.kinds = kind :: (more ++ rest) →
      a.erase = base.erase →
      (∀ c a, c.kinds = rest → a.erase = e.erase → Parses c (accesses (expressionWithin depth) n a) rest' good) →
      Parses c (accesses (expressionWithin depth) (n + 1) a) rest' good) : Printed e := by
  have loops : Loops e.level .primary := level ▸ Loops.access
  refine .of_arrives loops fun depth enough c rest rest' good kinds stops next => ?_
  rw [level] at next ⊢
  rw [tokens, List.append_assoc, List.cons_append] at kinds
  have length := congrArg List.length tokens
  rw [List.length_append] at length
  have short : (Level.access.enclose base.level base.tokens).length ≤ depth + 1 := by omega
  have primary : Level.primary.Stops (kind :: (more ++ rest)) := Level.stops_of_continues continues (by decide)
  refine inner.arrivesAt .access short c _ rest' good kinds primary fun c a n left long same => ?_
  rw [List.length_cons, List.length_append] at long
  obtain ⟨n, rfl⟩ : ∃ m, n = m + 1 := ⟨n - 1, by omega⟩
  exact step depth c a n rest rest' good enough left same fun c a left same => next c a n left (by omega) same

theorem printed_field {name : String} (inner : Printed base) : Printed (.field span base name) := by
  have tokens : (Expr.field span base name).tokens =
      Level.access.enclose base.level base.tokens ++ [TokenKind.symbol .dot, .identifier name] := by
    rw [Expr.tokens]
  refine printed_access rfl tokens rfl inner ?_
  intro depth c a n rest rest' good _ kinds same next
  refine parses_accept kinds fun c left => parses_identifier left fun c token left => next c _ left ?_
  rw [Expr.erase, Expr.erase, same]

theorem printed_index (inner : Printed base) (within : Printed offset) : Printed (.index span base offset) := by
  have tokens : (Expr.index span base offset).tokens = Level.access.enclose base.level base.tokens ++
      TokenKind.symbol .leftBracket :: (offset.tokens ++ [TokenKind.symbol .rightBracket]) := by
    rw [Expr.tokens, List.append_assoc, List.cons_append]
  refine printed_access rfl tokens rfl inner ?_
  intro depth c a n rest rest' good enough kinds same next
  rw [tokens, List.length_append, List.length_cons, List.length_append] at enough
  rw [List.append_assoc] at kinds
  have short : offset.tokens.length ≤ depth := by omega
  refine parses_accept_other (by rw [kinds]; rintro ⟨⟩) (parses_accept_other (by rw [kinds]; rintro ⟨⟩) ?_)
  refine parses_accept kinds fun c left => ?_
  refine (within.within short left (Level.stops_cons rfl)).bind fun c b left same' => ?_
  refine parses_expect left fun c left => parses_lastSpan fun span => next c _ left ?_
  rw [Expr.erase, Expr.erase, same, same']

theorem length_le_listTokens : (args : List Expr) → args.length ≤ (Expr.listTokens args).length
  | [] => Nat.le_refl _
  | [e] => e.length_tokens
  | e :: e' :: rest => by
    have more := length_le_listTokens (e' :: rest)
    have some := e.length_tokens
    rw [List.length_cons] at more ⊢
    rw [Expr.listTokens, List.length_append, List.length_cons, List.length_cons]
    omega

theorem listTokens_cons (e : Expr) (others : List Expr) : ∃ more, Expr.listTokens (e :: others) = e.tokens ++ more := by
  cases others with
  | nil => exact ⟨[], (List.append_nil _).symm⟩
  | cons e' rest => exact ⟨_, by rw [Expr.listTokens]⟩

theorem printed_call {callee : String} {calleeSpan : Span} {args : List Expr} (passed : ∀ e ∈ args, Printed e) :
    Printed (.call span callee calleeSpan args) := by
  refine .of_prints (by rintro _ ⟨⟩) fun depth enough c rest kinds stops => ?_
  simp only [Expr.tokens, List.length_append, List.length_cons] at enough
  simp only [Expr.tokens, List.cons_append, List.append_assoc, List.nil_append] at kinds
  refine parses_peek kinds fun token here => ?_
  rw [here]
  refine parses_reading kinds fun c _ left _ => parses_sees ?_
  rw [left, List.headD_cons, if_pos (decide_eq_true rfl)]
  simp only [call, pure_bind]
  refine parses_expect left fun c left => parses_sees ?_
  have finish (args' : List Expr) (same : Expr.eraseAll args' = Expr.eraseAll args) (c : Cursor)
      (left : c.kinds = .symbol .rightParen :: rest) :
      Parses c (do
        expect .rightParen .argsClose
        return Expr.call (token.span.join (← lastSpan)) callee token.span args') rest
        fun a => a.erase = (Expr.call span callee calleeSpan args).erase := by
    refine parses_expect left fun c left => parses_lastSpan fun _ => parses_pure left ?_
    rw [Expr.erase, Expr.erase, same]
  cases args with
  | nil =>
    rw [left]
    exact finish [] rfl c left
  | cons e others =>
    have short : (Expr.listTokens (e :: others)).length ≤ depth := by omega
    have other : c.kinds.headD .eof ≠ .symbol .rightParen := by
      obtain ⟨more, tokens⟩ := listTokens_cons e others
      rw [left, tokens, List.append_assoc]
      exact e.headD_tokens rfl _
    have parsed := fun n long => parses_arguments (e :: others) passed (List.cons_ne_nil _ _) n long c short left
    simp only [other, decide_false, Bool.false_eq_true, ↓reduceIte]
    refine parses_remaining ((parsed _ ?_).bind fun c args' left same => finish args' same c left)
    rw [left, List.length_append]
    have := length_le_listTokens (e :: others)
    omega

theorem length_le_initTokens : (inits : List FieldInit) → inits.length ≤ (FieldInit.listTokens inits).length
  | [] => Nat.le_refl _
  | ⟨name, value, _⟩ :: rest => by
    have more := length_le_initTokens rest
    rw [FieldInit.listTokens, FieldInit.tokens, List.length_append, List.length_append, List.length_cons, List.length_cons]
    omega

theorem printed_struct {name : String} {inits : List FieldInit} (values : ∀ init ∈ inits, Printed init.value) :
    Printed (.struct span name inits) := by
  refine .of_prints nofun fun depth enough c rest kinds stops => ?_
  simp only [Expr.tokens, List.length_append, List.length_cons] at enough
  simp only [Expr.tokens, List.cons_append, List.append_assoc, List.nil_append] at kinds
  refine parses_peek kinds fun token here => ?_
  rw [here]
  refine parses_reading kinds fun c _ left _ => parses_sees ?_
  rw [left, List.headD_cons, if_neg (by simp)]
  refine parses_get ?_
  have literal : opensLiteral c.rest = true := by
    cases inits with
    | nil => exact opensLiteral_empty left
    | cons init others =>
      obtain ⟨field, value, span⟩ := init
      simp only [FieldInit.listTokens, FieldInit.tokens, List.cons_append] at left
      exact opensLiteral_field left
  rw [if_pos literal]
  have short : (FieldInit.listTokens inits).length ≤ depth := by omega
  refine parses_expect left fun c left => parses_remaining ?_
  have parsed := fun n long => parses_fieldInits inits values n long c short left
  refine (parsed _ ?_).bind fun c inits' left same => ?_
  · rw [left, List.length_append]
    have := length_le_initTokens inits
    omega
  · refine parses_expect left fun c left => parses_lastSpan fun _ => parses_pure left ?_
    rw [Expr.erase, Expr.erase, same]

theorem printed_variable {name : String} : Printed (.variable span name) := by
  refine .of_prints nofun fun depth enough c rest kinds stops => ?_
  refine parses_peek kinds fun token here => ?_
  rw [here]
  refine parses_reading kinds fun c _ left _ => parses_sees ?_
  have paren : c.kinds.headD .eof ≠ .symbol .leftParen := left ▸ stops.ne rfl (Nat.le_refl _)
  have brace : c.kinds.headD .eof ≠ .symbol .leftBrace := left ▸ stops.ne rfl (Nat.le_refl _)
  rw [if_neg (by rw [decide_eq_true_eq]; exact paren)]
  refine parses_get ?_
  rw [opensLiteral_other brace]
  exact parses_pure left rfl

theorem printed_int {value : Int64} : Printed (.int span value) := by
  refine .of_prints nofun fun depth enough c rest kinds stops => parses_peek kinds fun token here => ?_
  rw [here]
  exact parses_reading kinds fun c _ left _ => parses_pure left rfl

theorem printed_float {value : Binary64} : Printed (.float span value) := by
  refine .of_prints nofun fun depth enough c rest kinds stops => parses_peek kinds fun token here => ?_
  rw [here]
  exact parses_reading kinds fun c _ left _ => parses_pure left rfl

theorem printed_string {value : String} : Printed (.string span value) := by
  refine .of_prints nofun fun depth enough c rest kinds stops => parses_peek kinds fun token here => ?_
  rw [here]
  exact parses_reading kinds fun c _ left _ => parses_pure left rfl

mutual

theorem printed_expr : (e : Expr) → e.isRegular = true → Printed e
  | .assign _ target value, regular => by
    simp only [Expr.isRegular, Bool.and_eq_true] at regular
    exact printed_assign regular.1.1 (printed_expr target regular.1.2) (printed_expr value regular.2)
  | .binary _ op lhs rhs, regular => by
    simp only [Expr.isRegular, Bool.and_eq_true] at regular
    exact printed_binary op (printed_expr lhs regular.1) (printed_expr rhs regular.2)
  | .unary _ op operand, regular => by
    rw [Expr.isRegular] at regular
    exact printed_unary op (printed_expr operand regular)
  | .call _ _ _ args, regular => by
    rw [Expr.isRegular] at regular
    exact printed_call (printed_exprs args regular)
  | .field _ base _, regular => by
    rw [Expr.isRegular] at regular
    exact printed_field (printed_expr base regular)
  | .index _ base offset, regular => by
    simp only [Expr.isRegular, Bool.and_eq_true] at regular
    exact printed_index (printed_expr base regular.1) (printed_expr offset regular.2)
  | .struct _ _ inits, regular => by
    rw [Expr.isRegular] at regular
    exact printed_struct (printed_inits inits regular)
  | .variable .., _ => printed_variable
  | .int .., _ => printed_int
  | .float .., _ => printed_float
  | .string .., _ => printed_string
termination_by structural e => e

theorem printed_exprs : (es : List Expr) → Expr.areRegular es = true → ∀ e ∈ es, Printed e
  | [], _ => nofun
  | e :: rest, regular => by
    simp only [Expr.areRegular, Bool.and_eq_true] at regular
    exact List.forall_mem_cons.mpr ⟨printed_expr e regular.1, printed_exprs rest regular.2⟩
termination_by structural es => es

theorem printed_init : (init : FieldInit) → init.isRegular = true → Printed init.value
  | ⟨_, value, _⟩, regular => by
    rw [FieldInit.isRegular] at regular
    exact printed_expr value regular
termination_by structural init => init

theorem printed_inits : (inits : List FieldInit) → FieldInit.areRegular inits = true → ∀ init ∈ inits, Printed init.value
  | [], _ => nofun
  | init :: rest, regular => by
    simp only [FieldInit.areRegular, Bool.and_eq_true] at regular
    exact List.forall_mem_cons.mpr ⟨printed_init init regular.1, printed_inits rest regular.2⟩
termination_by structural inits => inits

end

/-- A regular expression is read back from its tokens. -/
theorem parses_expression {e : Expr} (regular : e.isRegular = true) (kinds : c.kinds = e.tokens ++ rest)
    (stops : Level.expr.Stops rest) : Parses c expression rest fun a => a.erase = e.erase :=
  (printed_expr e regular).parses kinds stops

end StructLang.Parser
