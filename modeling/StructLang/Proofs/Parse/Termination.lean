import Mathlib
import StructLang.Proofs.Parse.Acceptance

namespace StructLang.Parser

variable {α : Type} {pool : List Token} {c c' : Cursor}

def levelParser : Level → Parser Expr
  | .expr => assignment expression
  | .comparison => comparison expression
  | .additive => additive expression
  | .term => term expression
  | .unary => unary expression
  | .access => operand expression
  | .primary => primary expression

namespace Rule

def parser : {α : Type} → Rule α → Parser α
  | _, .expression => Parser.expression
  | _, .level l => levelParser l
  | _, .joined chain lhs => do chainRest chain.operator? (levelParser chain.operands) (← remaining) lhs
  | _, .accesses e => do Parser.accesses Parser.expression (← remaining) e
  | _, .call callee calleeSpan => Parser.call Parser.expression callee calleeSpan
  | _, .arguments => do Parser.arguments Parser.expression (← remaining)
  | _, .structLiteral name nameSpan => Parser.structLiteral Parser.expression name nameSpan
  | _, .fieldInits => do Parser.fieldInits Parser.expression (← remaining)
  | _, .type => Parser.type
  | _, .stars ty => do Parser.stars (← remaining) ty
  | _, .letStatement start => Parser.letStatement start
  | _, .returnStatement start => Parser.returnStatement start
  | _, .test keyword => Parser.test keyword
  | _, .ifChain => do Parser.ifChain Parser.block (← remaining)
  | _, .ifStatement start => Parser.ifStatement Parser.block start
  | _, .whileStatement start => Parser.whileStatement Parser.block start
  | _, .forInit => Parser.forInit
  | _, .forStatement start => Parser.forStatement Parser.block start
  | _, .statement => Parser.statement Parser.block
  | _, .statements => do Parser.statements Parser.block (← remaining)
  | _, .block => Parser.block
  | _, .params => do Parser.params (← remaining)
  | _, .signature => Parser.signature
  | _, .fields struct seen => do Parser.fields struct (← remaining) seen
  | _, .structDecl start => Parser.structDecl start
  | _, .importDecl start => Parser.importDecl start
  | _, .declaration => Parser.declaration
  | _, .document => Parser.document

def consumes : {α : Type} → Rule α → Bool
  | _, .expression | _, .level _ | _, .call .. | _, .structLiteral .. | _, .type | _, .statement | _, .block
  | _, .declaration => true
  | _, _ => false

def readsAll : {α : Type} → Rule α → Bool
  | _, .document => true
  | _, _ => false

end Rule

theorem exists_serves_level (bound : Nat) (l : Level) :
    ∃ height, (0 < height ∧ height ≤ 10) ∧ ServesLevel pool l height (bound + 1) (levelParser l) := by
  have inner : ServesLevel pool .expr 7 bound expression := serves_whole bound
  cases l with
  | expr => exact ⟨7, by omega, serves_assignment inner⟩
  | comparison => exact ⟨6, by omega, serves_comparison inner⟩
  | additive => exact ⟨5, by omega, serves_additive inner⟩
  | term => exact ⟨4, by omega, serves_term inner⟩
  | unary => exact ⟨3, by omega, serves_unary inner⟩
  | access => exact ⟨2, by omega, serves_operand inner⟩
  | primary => exact ⟨1, by omega, serves_primary inner⟩

theorem ne_nil_of_forms {l : Level} {ts : List Token} {e : Expr} (forms : FormsExpr l ts e) : ts ≠ [] :=
  List.ne_nil_of_length_pos forms.length_pos

/-- One statement for all rules: ten units of fuel for each token are enough, and ten more. -/
theorem tracks_rule (rule : Rule α) (c : Cursor) {n : Nat} (fuel : 10 * c.rest.length + 10 ≤ n) :
    Tracks c.rest c (rule.run n) rule.parser fun ts _ => rule.consumes = true → ts ≠ [] := by
  have here : c.rest.length < c.rest.length + 1 := Nat.lt_succ_self _
  have inner (bound : Nat) : ServesLevel c.rest .expr 7 bound expression := serves_whole bound
  have blocks (bound : Nat) : Serves c.rest .block 1 bound block FormsBlock := serves_block bound
  have free {ts : List Token} : false = true → ts ≠ [] := by rintro ⟨⟩
  -- the keyword that a statement or a declaration is said to start at
  let first (kind : TokenKind) (span : Span) : Token := ⟨kind, "", span, default⟩
  cases rule with
  | expression => exact (serves_expression _ n c here (by omega)).mono fun _ _ forms _ => ne_nil_of_forms forms
  | level l =>
    obtain ⟨height, low, serves⟩ := exists_serves_level c.rest.length l
    exact (serves n c here (by omega)).mono fun _ _ forms _ => ne_nil_of_forms forms
  | joined chain lhs =>
    obtain ⟨height, low, serves⟩ := exists_serves_level c.rest.length chain.operands
    exact (serves_joined serves low _ (Nat.le_refl _) lhs n c here (by omega)).mono fun _ _ _ => free
  | accesses e => exact (serves_accesses (inner _) _ (Nat.le_refl _) e n c here (by omega)).mono fun _ _ _ => free
  | call callee span =>
    have serves := serves_call (t := first (.identifier callee) span) (inner _) rfl n c here (by omega)
    exact serves.mono fun _ _ forms _ => forms.1
  | arguments => exact (serves_arguments (inner _) _ here n c here (by omega)).mono fun _ _ _ => free
  | structLiteral name span =>
    exact (serves_structLiteral (t := first (.identifier name) span) (inner _) rfl n c here (by omega)).mono
      fun _ _ forms _ => forms.1
  | fieldInits => exact (serves_fieldInits (inner _) _ (Nat.le_refl _) n c here (by omega)).mono fun _ _ _ => free
  | type => exact (serves_type _ n c here (by omega)).mono fun _ _ spells _ => spells.ne_nil
  | stars ty => exact (serves_stars _ ty n c here (by omega)).mono fun _ _ _ => free
  | letStatement start =>
    exact (serves_letStatement (t := first (.keyword .let) start) _ rfl n c here (by omega)).mono fun _ _ _ => free
  | returnStatement start =>
    exact (serves_returnStatement (t := first (.keyword .return) start) _ rfl n c here (by omega)).mono fun _ _ _ => free
  | test keyword => exact (serves_test _ keyword n c here (by omega)).mono fun _ _ _ => free
  | ifChain => exact (serves_ifChain (blocks _) _ (Nat.le_refl _) n c here (by omega)).mono fun _ _ _ => free
  | ifStatement start =>
    exact (serves_ifStatement (t := first (.keyword .if) start) (blocks _) rfl n c here (by omega)).mono fun _ _ _ => free
  | whileStatement start =>
    exact (serves_whileStatement (t := first (.keyword .while) start) (blocks _) rfl n c here (by omega)).mono
      fun _ _ _ => free
  | forInit => exact (serves_forInit _ n c here (by omega)).mono fun _ _ _ => free
  | forStatement start =>
    exact (serves_forStatement (t := first (.keyword .for) start) (blocks _) rfl n c here (by omega)).mono fun _ _ _ => free
  | statement =>
    refine (serves_statement (blocks _) n c here (by omega)).mono fun _ _ forms _ => ?_
    simpa using forms.derived.ne_nil
  | statements => exact (serves_statements (blocks _) _ (Nat.le_refl _) n c here (by omega)).mono fun _ _ _ => free
  | block => exact (blocks _ n c here (by omega)).mono fun _ _ forms _ => by simpa using forms.derived.ne_nil
  | params => exact (serves_params _ n c here (by omega)).mono fun _ _ _ => free
  | signature => exact (serves_signature _ n c here (by omega)).mono fun _ _ _ => free
  | fields struct seen => exact (serves_fields struct _ seen n c here (by omega)).mono fun _ _ _ => free
  | structDecl start =>
    exact (serves_structDecl (t := first (.keyword .struct) start) _ rfl n c here (by omega)).mono fun _ _ _ => free
  | importDecl start =>
    exact (serves_importDecl (t := first (.keyword .imports) start) _ rfl n c here (by omega)).mono fun _ _ _ => free
  | declaration =>
    refine (serves_declaration _ n c here (by omega)).mono fun _ _ forms _ => ?_
    simpa using forms.1.derived.ne_nil
  | document => exact (serves_document _ n c here (by omega)).mono fun _ _ _ => free

theorem peek_of_readsAll {rule : Rule α} (all : rule.readsAll = true) {a : α} (ran : rule.parser c = .ok (a, c')) :
    c'.peek.kind = .eof := by
  cases rule with
  | document => exact peek_of_declarations _ (Nat.le_refl _) ran
  | _ => cases all

end StructLang.Parser

namespace StructLang

def Cursor.at (tokens : List Token) (position : Nat) (span : Span) : Cursor := ⟨span, tokens.drop position⟩

section Positions

variable {body ts : List Token} {last : Token} {position : Nat} {span : Span} {c' : Cursor}

theorem Cursor.last_mem_at (before : position ≤ body.length) : last ∈ (Cursor.at (body ++ [last]) position span).rest := by
  rw [Cursor.at, List.drop_append_of_le_length before]
  exact List.mem_append_right _ (List.mem_singleton_self last)

variable (passed : Parser.Passed (.at (body ++ [last]) position span) ts c') (ended : last.kind = .eof)
  (before : position ≤ body.length)
include passed ended before

/-- With the end ahead, a parser stops at a token of the list. -/
theorem Parser.Passed.stops :
    c' = .at (body ++ [last]) (position + ts.length) c'.last ∧ position + ts.length ≤ body.length := by
  have rest : (body ++ [last]).drop position = ts ++ c'.rest := passed.rest
  have left := List.length_pos_of_mem (passed.peek_mem (Cursor.last_mem_at before) ended)
  have count := congrArg List.length rest
  simp only [List.length_drop, List.length_append, List.length_singleton] at count
  refine ⟨?_, by omega⟩
  rw [Cursor.at, ← List.drop_drop, rest, List.drop_left]

theorem Parser.Passed.stops_at_eof (inside : ∀ t ∈ body, t.kind ≠ .eof) (atEnd : c'.peek.kind = .eof) :
    position + ts.length = body.length := by
  have rest : (Cursor.at (body ++ [last]) position span).rest = body.drop position ++ [last] :=
    List.drop_append_of_le_length before
  have read := passed.whole rest (fun t member => inside t (List.mem_of_mem_drop member)) ended atEnd
  rw [← read, List.length_drop]
  omega

end Positions

/-- Every rule, started at any token of a list that only the last token ends, gives an answer with fuel for ten times
the tokens, and the parser gives the same answer. It stops at a token that is not before the one it started at, further
on if it has read an expression, a type, a statement, a block or a declaration, and at the end if it has read a whole
document. -/
theorem parser_ends_in_bounds {α : Type} (rule : Parser.Rule α) {body : List Token} {last : Token}
    (inside : ∀ t ∈ body, t.kind ≠ .eof) (ended : last.kind = .eof) {position : Nat} (before : position ≤ body.length)
    (span : Span) {fuel : Nat} (enough : 10 * ((body ++ [last]).length + 1) ≤ fuel) :
    ∃ outcome position' span',
      rule.run fuel (.at (body ++ [last]) position span) = some (outcome, .at (body ++ [last]) position' span') ∧
      rule.parser (.at (body ++ [last]) position span) =
        outcome.map (·, Cursor.at (body ++ [last]) position' span') ∧
      position ≤ position' ∧ position' ≤ body.length ∧
      ∀ a, outcome = .ok a → (rule.consumes = true → position < position') ∧
        (rule.readsAll = true → position' = body.length) := by
  have count : (Cursor.at (body ++ [last]) position span).rest.length ≤ (body ++ [last]).length := by
    rw [Cursor.at, List.length_drop]
    omega
  obtain ⟨outcome, ts, c', ran, same, passed, judged⟩ :=
    Parser.tracks_rule rule (.at (body ++ [last]) position span) (n := fuel) (by omega) (List.Subset.refl _)
  obtain ⟨stop, within⟩ := passed.stops ended before
  refine ⟨outcome, position + ts.length, c'.last, stop ▸ ran, stop ▸ same, Nat.le_add_right .., within, ?_⟩
  rintro a rfl
  cases judged with
  | ok some =>
    constructor
    · exact fun reads => Nat.lt_add_of_pos_right (List.length_pos_iff.mpr (some reads))
    · exact fun all => passed.stops_at_eof ended before inside (Parser.peek_of_readsAll all same)

def unclosedCall : List Token × Token :=
  (([.symbol .leftBrace, .identifier "f", .symbol .leftParen, .int 1, .symbol .rightBrace] : List TokenKind).map
    fun kind => ⟨kind, "", default, default⟩, ⟨.eof, "", default, default⟩)

/-- Reading the block ends, without success, and reading the argument does not stand still. -/
theorem parser_ends_in_bounds_unclosedCall :
    (∃ e position' span', Parser.Rule.block.run 70 (.at (unclosedCall.1 ++ [unclosedCall.2]) 0 default) =
      some (.error e, .at (unclosedCall.1 ++ [unclosedCall.2]) position' span') ∧ position' ≤ 5) ∧
    ∃ e position' span', Parser.additive Parser.expression (.at (unclosedCall.1 ++ [unclosedCall.2]) 3 default) =
      .ok (e, .at (unclosedCall.1 ++ [unclosedCall.2]) position' span') ∧ 3 < position' := by
  have inside : ∀ t ∈ unclosedCall.1, t.kind ≠ .eof := by decide
  constructor
  · have fails : (Parser.block (.at (unclosedCall.1 ++ [unclosedCall.2]) 0 default)).isOk = false := by cbv
    obtain ⟨outcome, stop, span, ran, same, -, within, -⟩ :=
      @parser_ends_in_bounds _ .block unclosedCall.1 unclosedCall.2 inside rfl 0 (by decide) default 70 (by decide)
    rw [show Parser.block _ = _ from same] at fails
    cases outcome with
    | error e => exact ⟨e, stop, span, ran, within⟩
    | ok b => cases fails
  · have succeeds : (Parser.additive Parser.expression (.at (unclosedCall.1 ++ [unclosedCall.2]) 3 default)).isOk = true := by
      cbv
    obtain ⟨outcome, stop, span, -, same, -, -, read⟩ :=
      @parser_ends_in_bounds _ (.level .additive) unclosedCall.1 unclosedCall.2 inside rfl 3 (by decide) default 70 (by decide)
    rw [show Parser.additive Parser.expression _ = _ from same] at succeeds
    cases outcome with
    | error e => cases succeeds
    | ok e => exact ⟨e, stop, span, same, (read e rfl).1 rfl⟩

end StructLang
