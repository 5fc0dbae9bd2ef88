import StructLang.Proofs.Parse.PrintedExprs

namespace StructLang

/-- A statement starts with a keyword or with an expression. -/
theorem Stmt.headD_tokens (s : Stmt) (more : List TokenKind) (kind : TokenKind) (other : kind.opens = none)
    (noKeyword : ∀ k, kind ≠ .keyword k) : (s.tokens ++ more).headD .eof ≠ kind := by
  cases s with
  | expr e =>
    rw [tokens]
    exact e.headD_tokens other more
  | letIn _ _ _ init => cases init <;> exact fun same => noKeyword _ same.symm
  | ret _ value => cases value <;> exact fun same => noKeyword _ same.symm
  | _ => exact fun same => noKeyword _ same.symm

theorem Block.headD_tokens (b : Block) (more : List TokenKind) :
    (b.tokens ++ more).headD .eof = .symbol .leftBrace := by
  cases b
  rfl

theorem length_le_stmtTokens (stmts : List Stmt) : stmts.length ≤ (Stmt.listTokens stmts).length := by
  induction stmts with
  | nil => exact Nat.le_refl _
  | cons s rest more =>
    rw [Stmt.listTokens, List.length_append, List.length_cons, List.length_cons]
    omega

theorem IfChain.length_branches : (chain : IfChain) → chain.branches.length ≤ chain.tokens.length
  | .branch test body rest => by
    have more := rest.length_branches
    simp only [branches, tokens, List.length_append, List.length_cons]
    omega
  | .otherwise _ | .done => Nat.zero_le _

namespace Parser

variable {c : Cursor} {rest : List TokenKind}

/-- After the tokens of the type its rule is where stars may follow. -/
theorem parses_type_stars {rest' : List TokenKind} {good : Ty → Prop} : (ty : Ty) → ty.isNamed = true → (c : Cursor) →
    (rest : List TokenKind) → c.kinds = ty.tokens ++ rest →
    (∀ c n, c.kinds = rest → rest.length ≤ n → Parses c (stars n ty) rest' good) → Parses c type rest' good
  | .ptr target, named, c, rest, kinds, next => by
    rw [Ty.tokens, List.append_assoc] at kinds
    refine parses_type_stars target named c _ kinds fun c n left long => ?_
    obtain ⟨n, rfl⟩ : ∃ m, n = m + 1 := ⟨n - 1, by rw [List.singleton_append, List.length_cons] at long; omega⟩
    exact parses_accept left fun c left => next c n left (Nat.le_of_succ_le_succ long)
  | .int _, named, c, rest, kinds, next | .float _, named, c, rest, kinds, next
  | .struct _, named, c, rest, kinds, next | .void, named, c, rest, kinds, next => by
    have kinds : c.kinds = .identifier _ :: rest := kinds
    refine parses_identifier kinds fun c _ left => parses_remaining ?_
    rw [Ty.ofName_render named rfl]
    exact next c _ left (Nat.le_of_eq (by rw [left]))

theorem parses_type {ty : Ty} (named : ty.isNamed = true) (kinds : c.kinds = ty.tokens ++ rest)
    (other : rest.headD .eof ≠ .symbol .star) : Parses c type rest fun ty' => ty' = ty := by
  refine parses_type_stars ty named c rest kinds fun c n left _ => ?_
  cases n with
  | zero => exact parses_pure left rfl
  | succ n => exact parses_accept_other (left ▸ other) (parses_pure left rfl)

theorem parses_letStatement {name : String} {ty : Ty} {init : Option Expr} {span : Span}
    (regular : (Stmt.letIn span name ty init).isRegular = true) (start : Span)
    (kinds : c.kinds = (Stmt.letIn span name ty init).tokens.tail ++ .symbol .semicolon :: rest) :
    Parses c (letStatement start) (.symbol .semicolon :: rest) fun s =>
      s.erase = (Stmt.letIn span name ty init).erase := by
  simp only [letStatement, pure_bind]
  cases init with
  | none =>
    rw [Stmt.isRegular] at regular
    refine parses_identifier kinds fun c _ left => parses_expect left fun c left => ?_
    refine (parses_type regular left (by rintro ⟨⟩)).bind fun c ty' left same => ?_
    refine parses_accept_other (by rw [left]; rintro ⟨⟩) (parses_lastSpan fun _ => parses_pure left ?_)
    rw [same]
    rfl
  | some e =>
    simp only [Stmt.isRegular, Bool.and_eq_true] at regular
    rw [Stmt.tokens, List.cons_append, List.tail_cons, List.append_assoc] at kinds
    refine parses_identifier kinds fun c _ left => parses_expect left fun c left => ?_
    refine (parses_type regular.1 left (by rintro ⟨⟩)).bind fun c ty' left same => parses_accept left fun c left => ?_
    rw [← bind_pure_comp, bind_assoc]
    simp only [pure_bind]
    refine (parses_expression regular.2 left (Level.stops_cons rfl)).bind fun c e' left same' => ?_
    refine parses_lastSpan fun _ => parses_pure left ?_
    rw [same, Stmt.erase, Stmt.erase, Option.map_some, Option.map_some, same']

theorem parses_test {e : Expr} {keyword : Keyword} (regular : e.isRegular = true)
    (kinds : c.kinds = .symbol .leftParen :: (e.tokens ++ .symbol .rightParen :: rest)) :
    Parses c (test keyword) rest fun e' => e'.erase = e.erase := by
  refine parses_expect kinds fun c left => ?_
  refine (parses_expression regular left (Level.stops_cons rfl)).bind fun c e' left same => ?_
  exact parses_expect left fun c left => parses_pure left same

theorem parses_forInit {init : Stmt} (starts : init.isInit = true) (regular : init.isRegular = true)
    (kinds : c.kinds = init.tokens ++ .symbol .semicolon :: rest) :
    Parses c forInit (.symbol .semicolon :: rest) fun s => s.erase = init.erase := by
  cases init with
  | letIn span name ty value =>
    have cons : c.kinds = .keyword .let :: ((Stmt.letIn span name ty value).tokens.tail ++ .symbol .semicolon :: rest) := by
      cases value <;> exact kinds
    refine parses_peek cons fun token _ => parses_keyword cons fun c left => ?_
    exact parses_letStatement regular _ left
  | expr e =>
    rw [Stmt.isRegular] at regular
    rw [Stmt.tokens] at kinds
    have other : c.kinds.headD .eof ≠ .keyword .let := kinds ▸ e.headD_tokens rfl _
    obtain ⟨kind, more, _, tokens, _⟩ := e.opens_tokens
    have cons := kinds
    rw [tokens] at cons
    refine parses_peek cons fun token _ => parses_keyword_other other ?_
    refine ((parses_expression regular kinds (Level.stops_cons rfl)).mono fun e' same => ?_).map
    rw [Stmt.erase, Stmt.erase, same]
  | _ => cases starts

theorem parses_returnStatement {value : Option Expr} {span : Span} (regular : (Stmt.ret span value).isRegular = true)
    (start : Span) (kinds : c.kinds = (Stmt.ret span value).tokens.tail ++ .symbol .semicolon :: rest) :
    Parses c (returnStatement start) (.symbol .semicolon :: rest) fun s => s.erase = (Stmt.ret span value).erase := by
  refine parses_sees (parses_sees ?_)
  cases value with
  | none =>
    rw [kinds]
    exact parses_pure kinds rfl
  | some e =>
    rw [Stmt.isRegular] at regular
    rw [Stmt.tokens, List.tail_cons] at kinds
    have semicolon : c.kinds.headD .eof ≠ .symbol .semicolon := kinds ▸ e.headD_tokens rfl _
    have brace : c.kinds.headD .eof ≠ .symbol .rightBrace := kinds ▸ e.headD_tokens rfl _
    rw [decide_eq_false semicolon, decide_eq_false brace]
    refine (parses_expression regular kinds (Level.stops_cons rfl)).bind fun c e' left same => parses_pure left ?_
    rw [Stmt.erase, Stmt.erase, Option.map_some, Option.map_some, same]

/-- An expression is no statement with a keyword. -/
theorem parses_expressionStatement {block : Parser Block} {e : Expr} (regular : e.isRegular = true)
    (kinds : c.kinds = e.tokens ++ .symbol .semicolon :: rest) :
    Parses c (statement block) (.symbol .semicolon :: rest) fun s => s.erase = (Stmt.expr e).erase := by
  have other (k : Keyword) : c.kinds.headD .eof ≠ .keyword k := by
    rw [kinds]
    exact e.headD_tokens rfl _
  obtain ⟨kind, more, _, tokens, _⟩ := e.opens_tokens
  have cons := kinds
  rw [tokens] at cons
  refine parses_peek cons fun token _ => parses_keyword_other (other .let) (parses_keyword_other (other .return) ?_)
  refine parses_keyword_other (other .if) (parses_keyword_other (other .while) (parses_keyword_other (other .for) ?_))
  refine ((parses_expression regular kinds (Level.stops_cons rfl)).mono fun e' same => ?_).map
  rw [Stmt.erase, Stmt.erase, same]

mutual

theorem parses_stmt : (s : Stmt) → s.isRegular = true → (depth : Nat) → s.tokens.length ≤ depth → (c : Cursor) →
    (rest : List TokenKind) → c.kinds = s.tokens ++ .symbol .semicolon :: rest →
    Parses c (statement (blockWithin depth)) (.symbol .semicolon :: rest) fun s' => s'.erase = s.erase
  | .letIn span name ty init, regular, depth, _, c, rest, kinds => by
    have cons : c.kinds = .keyword .let :: ((Stmt.letIn span name ty init).tokens.tail ++ .symbol .semicolon :: rest) := by
      cases init <;> exact kinds
    refine parses_peek cons fun token _ => parses_keyword cons fun c left => ?_
    exact parses_letStatement regular _ left
  | .ret span value, regular, depth, _, c, rest, kinds => by
    have cons : c.kinds = .keyword .return :: ((Stmt.ret span value).tokens.tail ++ .symbol .semicolon :: rest) := by
      cases value <;> exact kinds
    refine parses_peek cons fun token _ => parses_keyword_other (by rw [cons]; nofun) ?_
    exact parses_keyword cons fun c left => parses_returnStatement regular _ left
  | .cond span chain, regular, depth, enough, c, rest, kinds => by
    simp only [Stmt.isRegular, Bool.and_eq_true] at regular
    rw [Stmt.tokens, List.length_cons] at enough
    rw [Stmt.tokens, List.cons_append] at kinds
    have other (k : Keyword) (apart : .if ≠ k) : c.kinds.headD .eof ≠ .keyword k := by simpa [kinds] using apart
    refine parses_peek kinds fun token _ => parses_keyword_other (other _ nofun) (parses_keyword_other (other _ nofun) ?_)
    refine parses_keyword kinds fun c left => parses_remaining ?_
    have long : chain.branches.length ≤ c.kinds.length := by
      rw [left, List.length_append]
      exact Nat.le_trans chain.length_branches (Nat.le_add_right _ _)
    refine (parses_chain chain regular.2 regular.1 depth (by omega) _ long c rest left).bind fun c chain' left same => ?_
    refine parses_lastSpan fun _ => parses_pure left ?_
    rw [Stmt.erase, Stmt.erase, same]
  | .while span e body, regular, depth, enough, c, rest, kinds => by
    simp only [Stmt.isRegular, Bool.and_eq_true] at regular
    simp only [Stmt.tokens, List.cons_append, List.append_assoc, List.length_cons, List.length_append] at enough kinds
    have other (k : Keyword) (apart : .while ≠ k) : c.kinds.headD .eof ≠ .keyword k := by simpa [kinds] using apart
    refine parses_peek kinds fun token _ => parses_keyword_other (other _ nofun) (parses_keyword_other (other _ nofun) ?_)
    refine parses_keyword_other (other _ nofun) (parses_keyword kinds fun c left => ?_)
    refine (parses_test regular.1 left).bind fun c e' left same => ?_
    refine (parses_block body regular.2 depth (by omega) c _ left).bind fun c body' left same' => parses_pure left ?_
    rw [Stmt.erase, Stmt.erase, same, same']
  | .for span init e step body, regular, depth, enough, c, rest, kinds => by
    simp only [Stmt.isRegular, Bool.and_eq_true] at regular
    obtain ⟨⟨⟨⟨starts, first⟩, test⟩, next⟩, inside⟩ := regular
    simp only [Stmt.tokens, List.cons_append, List.append_assoc, List.length_cons, List.length_append] at enough kinds
    have other (k : Keyword) (apart : .for ≠ k) : c.kinds.headD .eof ≠ .keyword k := by simpa [kinds] using apart
    refine parses_peek kinds fun token _ => parses_keyword_other (other _ nofun) (parses_keyword_other (other _ nofun) ?_)
    refine parses_keyword_other (other _ nofun) (parses_keyword_other (other _ nofun) ?_)
    refine parses_keyword kinds fun c left => parses_expect left fun c left => ?_
    refine (parses_forInit starts first left).bind fun c init' left same => parses_expect left fun c left => ?_
    refine (parses_expression test left (Level.stops_cons rfl)).bind fun c e' left same' => ?_
    refine parses_expect left fun c left => ?_
    refine (parses_expression next left (Level.stops_cons rfl)).bind fun c step' left same'' => ?_
    refine parses_expect left fun c left => ?_
    refine (parses_block body inside depth (by omega) c _ left).bind fun c body' left same''' => parses_pure left ?_
    rw [Stmt.erase, Stmt.erase, same, same', same'', same''']
  | .expr e, regular, depth, _, c, rest, kinds => by
    rw [Stmt.isRegular] at regular
    rw [Stmt.tokens] at kinds
    exact parses_expressionStatement regular kinds
termination_by structural s => s

theorem parses_chain : (chain : IfChain) → chain.isRegular = true → (!chain.branches.isEmpty) = true → (depth : Nat) →
    chain.tokens.length ≤ depth → (n : Nat) → chain.branches.length ≤ n → (c : Cursor) → (rest : List TokenKind) →
    c.kinds = chain.tokens ++ .symbol .semicolon :: rest →
    Parses c (ifChain (blockWithin depth) n) (.symbol .semicolon :: rest) fun chain' => chain'.erase = chain.erase
  | .branch .., _, _, _, _, 0, long, _, _, _ => absurd long (Nat.not_succ_le_zero _)
  | .branch e body others, regular, _, depth, enough, n + 1, long, c, rest, kinds => by
    simp only [IfChain.isRegular, Bool.and_eq_true] at regular
    simp only [IfChain.tokens, List.cons_append, List.append_assoc, List.length_cons, List.length_append] at enough kinds
    refine (parses_test regular.1.1 kinds).bind fun c e' left same => ?_
    refine (parses_block body regular.1.2 depth (by omega) c _ left).bind fun c body' left same' => ?_
    cases others with
    | done =>
      refine parses_keyword_other (by rw [left]; nofun) (parses_pure left ?_)
      rw [IfChain.erase, IfChain.erase, same, same']
    | otherwise last =>
      have inside := regular.2
      rw [IfChain.isRegular] at inside
      have kinds : c.kinds = .keyword .else :: (last.tokens ++ .symbol .semicolon :: rest) := left
      refine parses_keyword kinds fun c left => ?_
      have other : c.kinds.headD .eof ≠ .keyword .if := by
        rw [left, last.headD_tokens]
        nofun
      refine parses_keyword_other other ?_
      have short : last.tokens.length ≤ depth := by
        rw [IfChain.tokens] at enough
        omega
      refine (parses_block last inside depth short c _ left).bind fun c last' left same'' => ?_
      refine parses_pure left ?_
      rw [IfChain.erase, IfChain.erase, IfChain.erase, IfChain.erase, same, same', same'']
    | branch e₂ body₂ others₂ =>
      refine parses_keyword left fun c left => parses_keyword left fun c left => ?_
      have more := parses_chain (.branch e₂ body₂ others₂) regular.2 rfl depth (by omega) n
        (Nat.le_of_succ_le_succ long) c rest left
      refine more.bind fun c chain' left same'' => parses_pure left ?_
      rw [IfChain.erase, IfChain.erase, same, same', same'']
  | .otherwise _, _, filled, _, _, _, _, _, _, _ | .done, _, filled, _, _, _, _, _, _, _ => nomatch filled
termination_by structural chain => chain

theorem parses_block : (b : Block) → b.isRegular = true → (depth : Nat) → b.tokens.length ≤ depth → (c : Cursor) →
    (rest : List TokenKind) → c.kinds = b.tokens ++ rest → Parses c (blockWithin depth) rest fun b' => b'.erase = b.erase
  | ⟨stmts, _⟩, regular, depth, enough, c, rest, kinds => by
    rw [Block.isRegular] at regular
    simp only [Block.tokens, List.cons_append, List.append_assoc, List.length_cons, List.length_append] at enough kinds
    obtain ⟨depth, rfl⟩ : ∃ n, depth = n + 1 := ⟨depth - 1, by omega⟩
    refine parses_expect kinds fun c left => parses_lastSpan fun start => parses_remaining ?_
    have long : stmts.length ≤ c.kinds.length := by
      rw [left, List.length_append]
      exact Nat.le_trans (length_le_stmtTokens stmts) (Nat.le_add_right _ _)
    refine (parses_stmts stmts regular depth (by omega) _ long c rest left).bind fun c stmts' left same => ?_
    refine parses_expect left fun c left => parses_lastSpan fun _ => parses_pure left ?_
    rw [Block.erase, Block.erase, same]
termination_by structural b => b

theorem parses_stmts : (stmts : List Stmt) → Stmt.areRegular stmts = true → (depth : Nat) →
    (Stmt.listTokens stmts).length ≤ depth → (n : Nat) → stmts.length ≤ n → (c : Cursor) → (rest : List TokenKind) →
    c.kinds = Stmt.listTokens stmts ++ .symbol .rightBrace :: rest →
    Parses c (statements (blockWithin depth) n) (.symbol .rightBrace :: rest) fun stmts' =>
      Stmt.eraseAll stmts' = Stmt.eraseAll stmts
  | [], _, _, _, 0, _, c, rest, kinds => parses_pure kinds rfl
  | [], _, _, _, n + 1, _, c, rest, kinds => by
    refine parses_sees (parses_atEnd ?_)
    rw [kinds]
    exact parses_pure kinds rfl
  | _ :: _, _, _, _, 0, long, _, _, _ => absurd long (Nat.not_succ_le_zero _)
  | s :: others, regular, depth, enough, n + 1, long, c, rest, kinds => by
    simp only [Stmt.areRegular, Bool.and_eq_true] at regular
    simp only [Stmt.listTokens, List.cons_append, List.append_assoc, List.length_cons, List.length_append] at enough kinds
    have brace : c.kinds.headD .eof ≠ .symbol .rightBrace := by
      rw [kinds]
      exact s.headD_tokens _ (.symbol .rightBrace) rfl nofun
    have ended : c.kinds.headD .eof ≠ .eof := by
      rw [kinds]
      exact s.headD_tokens _ .eof rfl nofun
    refine parses_sees (parses_atEnd ?_)
    rw [decide_eq_false brace, decide_eq_false ended]
    refine (parses_stmt s regular.1 depth (by omega) c _ kinds).bind fun c s' left same => ?_
    refine parses_accept left fun c left => ?_
    have more := parses_stmts others regular.2 depth (by omega) n (Nat.le_of_succ_le_succ long) c rest left
    refine more.bind fun c stmts' left same' => parses_pure left ?_
    rw [Stmt.eraseAll, Stmt.eraseAll, same, same']
termination_by structural stmts => stmts

end

theorem parses_body {b : Block} (regular : b.isRegular = true) (kinds : c.kinds = b.tokens ++ rest) :
    Parses c block rest fun b' => b'.erase = b.erase := by
  refine parses_remaining (parses_block b regular _ ?_ c rest kinds)
  rw [kinds, List.length_append]
  exact Nat.le_add_right _ _

theorem parses_params : (ps : List Param) → ps.all (·.ty.isNamed) = true → ps ≠ [] → (n : Nat) → ps.length ≤ n →
    (c : Cursor) → c.kinds = Param.listTokens ps ++ .symbol .rightParen :: rest →
    Parses c (params n) (.symbol .rightParen :: rest) fun ps' => ps'.map Param.erase = ps.map Param.erase
  | [], _, filled, _, _, _, _ => absurd rfl filled
  | _ :: _, _, _, 0, long, _, _ => absurd long (Nat.not_succ_le_zero _)
  | [p], named, _, n + 1, _, c, kinds => by
    rw [List.all_cons, Bool.and_eq_true] at named
    refine parses_identifier kinds fun c _ left => parses_expect left fun c left => ?_
    refine (parses_type named.1 left nofun).bind fun c ty left same => parses_lastSpan fun _ => ?_
    refine parses_accept_other (by rw [left]; nofun) (parses_pure left ?_)
    rw [same]
    rfl
  | p :: p' :: others, named, _, n + 1, long, c, kinds => by
    rw [List.all_cons, Bool.and_eq_true] at named
    rw [Param.listTokens, List.append_assoc] at kinds
    refine parses_identifier kinds fun c _ left => parses_expect left fun c left => ?_
    refine (parses_type named.1 left nofun).bind fun c ty left same => parses_lastSpan fun _ => ?_
    refine parses_accept left fun c left => ?_
    have more := parses_params (p' :: others) named.2 nofun n (Nat.le_of_succ_le_succ long) c left
    refine more.bind fun c ps left same' => parses_pure left ?_
    rw [List.map_cons, same', same]
    rfl

theorem length_le_paramTokens : (ps : List Param) → ps.length ≤ (Param.listTokens ps).length
  | [] => Nat.le_refl _
  | [_] => Nat.succ_le_succ (Nat.zero_le _)
  | _ :: p' :: rest => by
    have more := length_le_paramTokens (p' :: rest)
    rw [List.length_cons] at more ⊢
    rw [Param.listTokens, List.length_append, List.length_cons, List.length_cons]
    omega

variable {style : Style}

theorem parses_signature {f : Signature} (regular : f.isRegular = true)
    (kinds : c.kinds = style.signatureTokens f ++ rest) (noType : rest.headD .eof ≠ .symbol .colon)
    (noStar : rest.headD .eof ≠ .symbol .star) : Parses c signature rest fun f' => f'.erase = f.erase := by
  rw [Signature.isRegular, Bool.and_eq_true] at regular
  simp only [Style.signatureTokens, List.cons_append, List.append_assoc] at kinds
  simp only [signature, pure_bind]
  refine parses_identifier kinds fun c token left => parses_expect left fun c left => parses_sees ?_
  have close (ps : List Param) (same : ps.map Param.erase = f.params.map Param.erase) (c : Cursor)
      (left : c.kinds = .symbol .rightParen :: (style.returnTokens f.returns ++ rest)) :
      Parses c (do
        expect .rightParen .paramsClose
        if ← accept .colon then do
          let returns ← type
          return (⟨f.name, token.span, returns, ps, token.span.join (← lastSpan)⟩ : Signature)
        else return ⟨f.name, token.span, .void, ps, token.span.join (← lastSpan)⟩) rest
        fun f' => f'.erase = f.erase := by
    refine parses_expect left fun c left => ?_
    rw [Style.returnTokens] at left
    split at left
    · rename_i hidden
      refine parses_accept_other (left ▸ noType) (parses_lastSpan fun _ => parses_pure left ?_)
      rw [Signature.erase, Signature.erase, same, hidden.1]
    · refine parses_accept left fun c left => (parses_type regular.1 left noStar).bind fun c ty left here => ?_
      refine parses_lastSpan fun _ => parses_pure left ?_
      rw [Signature.erase, Signature.erase, same, here]
  cases params : f.params with
  | nil =>
    rw [params] at left
    rw [left]
    exact close [] (by rw [params]) c left
  | cons p others =>
    rw [params] at left regular
    have other : c.kinds.headD .eof ≠ .symbol .rightParen := by
      rw [left]
      cases others <;> rintro ⟨⟩
    rw [if_neg (by rw [decide_eq_true_eq]; exact other)]
    have long : (p :: others).length ≤ c.kinds.length := by
      rw [left, List.length_append]
      exact Nat.le_trans (length_le_paramTokens _) (Nat.le_add_right _ _)
    refine parses_remaining ((parses_params _ regular.2 (List.cons_ne_nil _ _) _ long c left).bind fun c ps left same => ?_)
    exact close ps (by rw [params]; exact same) c left

/-- Where fields may follow there is a name or the closing brace. -/
theorem headD_fieldTokens (fs : List Field) {s : Symbol} (other : s ≠ .rightBrace) :
    (fs.flatMap style.fieldTokens ++ .symbol .rightBrace :: rest).headD .eof ≠ .symbol s := by
  cases fs with
  | nil => exact fun same => other (TokenKind.symbol.inj same).symm
  | cons => nofun

/-- What follows a field is read, and nothing else. -/
theorem parses_afterField {p : Parser (List Field)} {good : List Field → Prop} {more : List TokenKind}
    (kinds : c.kinds = (style.afterField.map .symbol).toList ++ more) (semicolon : more.headD .eof ≠ .symbol .semicolon)
    (comma : more.headD .eof ≠ .symbol .comma) (next : ∀ c, c.kinds = more → Parses c p rest good) :
    Parses c (do if ← accept .semicolon then p else do let _ ← accept .comma; p) rest good := by
  cases after : style.afterField with
  | none =>
    rw [after] at kinds
    exact parses_accept_other (kinds ▸ semicolon) (parses_accept_other (kinds ▸ comma) (next c kinds))
  | some s =>
    rw [after] at kinds
    rcases style.separates s after with rfl | rfl
    · exact parses_accept kinds next
    · exact parses_accept_other (by rw [kinds]; nofun) (parses_accept kinds next)

theorem parses_fields (struct : String) : (fs : List Field) → fs.all (·.ty.isNamed) = true → (seen : List Field) →
    (seen.map (·.name) ++ fs.map (·.name)).Nodup → (n : Nat) → fs.length ≤ n → (c : Cursor) →
    c.kinds = fs.flatMap style.fieldTokens ++ .symbol .rightBrace :: rest →
    Parses c (fields struct n seen) (.symbol .rightBrace :: rest) fun fs' =>
      fs'.map Field.erase = seen.map Field.erase ++ fs.map Field.erase
  | [], _, seen, _, 0, _, c, kinds => parses_pure kinds (by rw [List.map_nil, List.append_nil])
  | [], _, seen, _, n + 1, _, c, kinds => by
    refine parses_sees (parses_atEnd ?_)
    rw [kinds]
    exact parses_pure kinds (by rw [List.map_nil, List.append_nil])
  | _ :: _, _, _, _, 0, long, _, _ => absurd long (Nat.not_succ_le_zero _)
  | field :: others, named, seen, distinct, n + 1, long, c, kinds => by
    rw [List.all_cons, Bool.and_eq_true] at named
    simp only [List.flatMap_cons, Style.fieldTokens, List.cons_append, List.append_assoc] at kinds
    simp only [fields]
    refine parses_sees (parses_atEnd ?_)
    rw [kinds]
    refine parses_identifier kinds fun c token left => ?_
    have apart : field.name ∉ seen.map (·.name) := fun member =>
      (List.nodup_append.mp distinct).2.2 _ member _ (List.mem_cons_self ..) rfl
    have new : ¬seen.any (·.name == field.name) = true := by
      intro found
      obtain ⟨known, member, same⟩ := List.any_eq_true.mp found
      exact apart (List.mem_map.mpr ⟨known, member, beq_iff_eq.mp same⟩)
    rw [if_neg new]
    refine parses_expect left fun c left => ?_
    have noStar : ((style.afterField.map TokenKind.symbol).toList ++
        (others.flatMap style.fieldTokens ++ .symbol .rightBrace :: rest)).headD .eof ≠ .symbol .star := by
      cases after : style.afterField with
      | none => exact headD_fieldTokens others (by rintro ⟨⟩)
      | some s => rcases style.separates s after with rfl | rfl <;> rintro ⟨⟩
    refine (parses_type named.1 left noStar).bind fun c ty left same => parses_lastSpan fun span => ?_
    refine parses_afterField left (headD_fieldTokens others (by rintro ⟨⟩))
      (headD_fieldTokens others (by rintro ⟨⟩)) fun c left => ?_
    have distinct' : ((seen ++ [(⟨field.name, ty, token.span.join span⟩ : Field)]).map (·.name) ++
        others.map (·.name)).Nodup := by
      rw [List.map_append, List.append_assoc]
      exact distinct
    refine (parses_fields struct others named.2 _ distinct' n (Nat.le_of_succ_le_succ long) c left).mono fun fs' read => ?_
    rw [read, List.map_append, List.append_assoc, same]
    rfl

theorem length_le_fieldTokens (fs : List Field) : fs.length ≤ (fs.flatMap style.fieldTokens).length := by
  induction fs with
  | nil => exact Nat.le_refl _
  | cons field others more =>
    rw [List.flatMap_cons, List.length_append, Style.fieldTokens, List.length_append, List.length_cons, List.length_cons]
    omega

structure Follows (rest : List TokenKind) : Prop where
  noColon : rest.headD .eof ≠ .symbol .colon
  noStar : rest.headD .eof ≠ .symbol .star

theorem parses_declaration {decl : Decl} (regular : decl.isRegular = true)
    (kinds : c.kinds = style.declTokens decl ++ rest) (follows : Follows rest) :
    Parses c declaration rest fun decl' => decl'.erase = decl.erase := by
  simp only [declaration]
  cases decl with
  | function f =>
    rw [Decl.isRegular, Bool.and_eq_true] at regular
    simp only [Style.declTokens, List.cons_append, List.append_assoc] at kinds
    refine parses_peek kinds fun token _ => parses_keyword kinds fun c left => ?_
    have brace := f.body.headD_tokens rest
    have read := parses_signature regular.1 left (by rw [brace]; rintro ⟨⟩) (by rw [brace]; rintro ⟨⟩)
    refine read.bind fun c f' left same => (parses_body regular.2 left).bind fun c body left same' => ?_
    refine parses_pure left ?_
    rw [Decl.erase, Decl.erase, FunctionDecl.erase, FunctionDecl.erase, same, same']
  | external f span =>
    rw [Decl.isRegular] at regular
    simp only [Style.declTokens, List.cons_append, List.append_assoc] at kinds
    refine parses_peek kinds fun token _ => parses_keyword_other (by rw [kinds]; rintro ⟨⟩) ?_
    refine parses_keyword kinds fun c left => ?_
    have finish (c : Cursor) (left : c.kinds = style.signatureTokens f ++ rest) :
        Parses c (do
          let signature ← signature
          return Decl.external signature (token.span.join signature.span)) rest
          fun decl' => decl'.erase = (Decl.external f span).erase := by
      refine (parses_signature regular left follows.noColon follows.noStar).bind fun c f' left same => ?_
      refine parses_pure left ?_
      rw [Decl.erase, Decl.erase, same]
    split at left
    · exact parses_keyword left finish
    · exact parses_keyword_other (by rw [left]; rintro ⟨⟩) (finish c left)
  | struct s =>
    rw [Decl.isRegular, Bool.and_eq_true] at regular
    simp only [Style.declTokens, List.cons_append, List.append_assoc] at kinds
    refine parses_peek kinds fun token _ => parses_keyword_other (by rw [kinds]; rintro ⟨⟩) ?_
    refine parses_keyword_other (by rw [kinds]; rintro ⟨⟩) (parses_keyword kinds fun c left => Parses.map ?_)
    refine parses_identifier left fun c _ left => parses_expect left fun c left => parses_remaining ?_
    have long : s.fields.length ≤ c.kinds.length := by
      rw [left, List.length_append]
      exact Nat.le_trans (length_le_fieldTokens s.fields) (Nat.le_add_right _ _)
    have read := parses_fields s.name s.fields regular.1 [] (of_decide_eq_true regular.2) _ long c left
    refine read.bind fun c fs left same => parses_expect left fun c left => parses_lastSpan fun _ => ?_
    refine parses_pure left ?_
    rw [Decl.erase, Decl.erase, StructDecl.erase, StructDecl.erase, same]
    rfl
  | importOf path span =>
    rw [Style.declTokens, List.cons_append] at kinds
    refine parses_peek kinds fun token _ => parses_keyword_other (by rw [kinds]; rintro ⟨⟩) ?_
    refine parses_keyword_other (by rw [kinds]; rintro ⟨⟩) (parses_keyword_other (by rw [kinds]; rintro ⟨⟩) ?_)
    refine parses_keyword kinds fun c left => parses_peekKind ?_
    rw [left]
    exact parses_reading left fun c token left _ => parses_pure left rfl
  | imported => cases regular

theorem headD_declTokens (decl : Decl) (more : List TokenKind) :
    ∃ keyword, (style.declTokens decl ++ more).headD .eof = .keyword keyword := by
  cases decl <;> exact ⟨_, rfl⟩

theorem documentTokens_cons (decl : Decl) (others : Document) : style.documentTokens (decl :: others) ++ [TokenKind.eof] =
    style.declTokens decl ++ (style.afterDecl ++ (style.documentTokens others ++ [TokenKind.eof])) := by
  simp only [Style.documentTokens, List.flatMap_cons, List.append_assoc]

/-- Between declarations there is a keyword, and the end behind the last one. -/
theorem headD_documentTokens (d : Document) (s : Symbol) :
    (style.documentTokens d ++ [TokenKind.eof]).headD .eof ≠ .symbol s := by
  cases d with
  | nil => nofun
  | cons decl others =>
    rw [documentTokens_cons]
    obtain ⟨keyword, head⟩ := headD_declTokens decl (style.afterDecl ++ (style.documentTokens others ++ [.eof]))
    rw [head]
    nofun

theorem follows_documentTokens (d : Document) : Follows (style.afterDecl ++ (style.documentTokens d ++ [TokenKind.eof])) := by
  rw [Style.afterDecl]
  split
  · exact ⟨nofun, nofun⟩
  · exact ⟨headD_documentTokens d _, headD_documentTokens d _⟩

theorem parses_declarations : (d : Document) → d.isRegular = true → (n : Nat) → d.length ≤ n → (c : Cursor) →
    c.kinds = style.documentTokens d ++ [.eof] →
    Parses c (declarations n) [.eof] fun d' => Document.erase d' = Document.erase d
  | [], _, 0, _, c, kinds => parses_pure kinds rfl
  | [], _, n + 1, _, c, kinds => by
    refine parses_atEnd ?_
    rw [kinds]
    exact parses_pure kinds rfl
  | _ :: _, _, 0, long, _, _ => absurd long (Nat.not_succ_le_zero _)
  | decl :: others, regular, n + 1, long, c, kinds => by
    rw [Document.isRegular, List.all_cons, Bool.and_eq_true] at regular
    rw [documentTokens_cons] at kinds
    obtain ⟨keyword, head⟩ := headD_declTokens decl (style.afterDecl ++ (style.documentTokens others ++ [.eof]))
    refine parses_atEnd ?_
    rw [kinds, head, if_neg (by simp)]
    refine (parses_declaration regular.1 kinds (follows_documentTokens others)).bind fun c decl' left same => ?_
    have more (c : Cursor) (left : c.kinds = style.documentTokens others ++ [.eof]) :
        Parses c (do return decl' :: (← declarations n)) [.eof] fun d' =>
          Document.erase d' = Document.erase (decl :: others) := by
      have read := parses_declarations others regular.2 n (Nat.le_of_succ_le_succ long) c left
      refine read.bind fun c d' left same' => parses_pure left ?_
      rw [Document.erase, Document.erase, same, same']
    rw [Style.afterDecl] at left
    split at left
    · exact parses_accept left more
    · exact parses_accept_other (left ▸ headD_documentTokens others _) (more c left)

theorem length_le_documentTokens (d : Document) : d.length ≤ (style.documentTokens d ++ [TokenKind.eof]).length := by
  induction d with
  | nil => exact Nat.zero_le _
  | cons decl others more =>
    have some : 0 < (style.declTokens decl).length := by
      cases decl <;> exact Nat.succ_pos _
    rw [documentTokens_cons, List.length_append, List.length_append, List.length_cons]
    omega

end Parser

/-- A regular document is read back from its tokens, up to spans, and only the end of the text is left. -/
theorem parsing_undoes_printing (style : Style) {d : Document} (regular : d.isRegular = true) {tokens : List Token}
    (printed : tokens.map (·.kind) = style.documentTokens d ++ [.eof]) :
    ∃ d' c, parseTokens tokens = .ok d' ∧ Document.erase d' = Document.erase d ∧
      Parser.document.run (.start tokens) = .ok (d', c) ∧ c.rest.map (·.kind) = [.eof] := by
  have long : d.length ≤ (Cursor.start tokens).rest.length := by
    rw [← Cursor.length_kinds, Cursor.kinds, Cursor.start, printed]
    exact Parser.length_le_documentTokens d
  obtain ⟨d', c, ran, left, same⟩ := Parser.parses_declarations d regular _ long (.start tokens) printed
  have read : Parser.document.run (.start tokens) = .ok (d', c) := ran
  refine ⟨d', c, ?_, same, read, left⟩
  rw [parseTokens, read]
  rfl

/-- `struct P { x: i64 }` and `function f(p: P*) { (*p).x = (1 + 2) * -3; return; }`. -/
def grouping : Document :=
  [.struct ⟨"P", [⟨"x", .int 64, default⟩], default⟩,
    .function ⟨⟨"f", default, .void, [⟨"p", .ptr (.struct "P"), default⟩], default⟩,
      ⟨[.expr (.assign default (.field default (.unary default .deref (.variable default "p")) "x")
          (.binary default .mul (.binary default .add (.int default 1) (.int default 2))
            (.unary default .neg (.int default 3)))),
        .ret default none], default⟩, default⟩]

def terse : Style := ⟨false, false, none, nofun, false⟩

def groupingTokens : List Token :=
  (terse.documentTokens grouping ++ [TokenKind.eof]).map fun kind => ⟨kind, "", default, default⟩

theorem parsing_undoes_printing_grouping :
    ∃ d' c, parseTokens groupingTokens = .ok d' ∧ Document.erase d' = Document.erase grouping ∧
      Parser.document.run (.start groupingTokens) = .ok (d', c) ∧ c.rest.map (·.kind) = [.eof] :=
  parsing_undoes_printing terse (by decide) (by rw [groupingTokens, List.map_map]; exact List.map_id _)

end StructLang
