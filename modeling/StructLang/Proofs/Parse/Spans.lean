import StructLang.Proofs.Parse.Grammar
import StructLang.Proofs.Parse.Reading

namespace StructLang

def Span.Within (inner outer : Span) : Prop := outer.start ≤ inner.start ∧ inner.stop ≤ outer.stop

instance (inner outer : Span) : Decidable (inner.Within outer) := inferInstanceAs (Decidable (_ ∧ _))

theorem Span.Within.refl (s : Span) : s.Within s := ⟨Nat.le_refl _, Nat.le_refl _⟩

theorem Span.Within.trans {a b c : Span} (first : a.Within b) (second : b.Within c) : a.Within c :=
  ⟨Nat.le_trans second.1 first.1, Nat.le_trans first.2 second.2⟩

def hull (ts : List Token) : Span := ⟨ts.head?.elim 0 (·.span.start), ts.getLast?.elim 0 (·.span.stop)⟩

/-- Tokens as they stand in a text: none is empty, and each starts after the ones before it. -/
structure InOrder (ts : List Token) : Prop where
  filled : ∀ t ∈ ts, t.span.start < t.span.stop
  ordered : ts.Pairwise fun a b => a.span.stop ≤ b.span.start

section Hulls

variable {ts ts' whole : List Token}

theorem InOrder.sublist (order : InOrder ts) (sub : ts'.Sublist ts) : InOrder ts' :=
  ⟨fun t member => order.filled t (sub.subset member), order.ordered.sublist sub⟩

theorem InOrder.left (order : InOrder (ts ++ ts')) : InOrder ts := order.sublist (List.sublist_append_left ..)

theorem InOrder.right (order : InOrder (ts ++ ts')) : InOrder ts' := order.sublist (List.sublist_append_right ..)

theorem InOrder.tail {t : Token} (order : InOrder (t :: ts)) : InOrder ts := order.sublist (List.sublist_cons_self ..)

theorem hull_singleton (t : Token) : hull [t] = t.span := rfl

theorem start_hull (starts : ts <+: whole) (some : ts ≠ []) : (hull whole).start = (hull ts).start := by
  obtain ⟨back, rfl⟩ := starts
  cases ts with
  | nil => exact absurd rfl some
  | cons t rest => rfl

theorem exists_last (some : ts ≠ []) : ∃ front t, ts = front ++ [t] :=
  ⟨ts.dropLast, ts.getLast some, (List.dropLast_concat_getLast some).symm⟩

theorem stop_hull (ends : ts <:+ whole) (some : ts ≠ []) : (hull whole).stop = (hull ts).stop := by
  obtain ⟨front, rfl⟩ := ends
  obtain ⟨others, t, rfl⟩ := exists_last some
  simp [hull]

theorem InOrder.token_within (order : InOrder ts) {t : Token} (member : t ∈ ts) : t.span.Within (hull ts) := by
  have filled := order.filled t member
  obtain ⟨front, back, rfl⟩ := List.mem_iff_append.mp member
  have ordered := List.pairwise_append.mp order.ordered
  constructor
  · cases front with
    | nil => exact Nat.le_refl _
    | cons first others =>
      have before := ordered.2.2 first List.mem_cons_self t List.mem_cons_self
      have size := order.filled first (by simp)
      change first.span.start ≤ t.span.start
      omega
  · by_cases none : back = []
    · subst none
      rw [stop_hull (List.suffix_append front [t]) (by simp)]
      exact Nat.le_refl _
    · obtain ⟨others, last, rfl⟩ := exists_last none
      have after := (List.pairwise_cons.mp ordered.2.1).1 last (by simp)
      have size := order.filled last (by simp)
      have ends : [last] <:+ front ++ t :: (others ++ [last]) := ⟨front ++ t :: others, by simp⟩
      rw [stop_hull ends (by simp), hull_singleton]
      omega

/-- Some of the tokens lie in the hull of all. -/
theorem InOrder.within (order : InOrder whole) (inside : ts ⊆ whole) (some : ts ≠ []) :
    (hull ts).Within (hull whole) := by
  constructor
  · cases ts with
    | nil => exact absurd rfl some
    | cons t rest => exact (order.token_within (inside List.mem_cons_self)).1
  · obtain ⟨front, last, rfl⟩ := exists_last some
    rw [stop_hull (List.suffix_append front [last]) (by simp)]
    exact (order.token_within (inside (by simp))).2

theorem InOrder.hull_lt (order : InOrder ts) (some : ts ≠ []) : (hull ts).start < (hull ts).stop := by
  obtain ⟨t, member⟩ := List.exists_mem_of_ne_nil ts some
  have filled := order.filled t member
  have within := order.token_within member
  exact Nat.lt_of_le_of_lt within.1 (Nat.lt_of_lt_of_le filled within.2)

/-- What comes first ends before anything behind it starts. -/
theorem InOrder.before {back : List Token} (order : InOrder (ts ++ back)) (inside : ts' ⊆ back) (some : ts ≠ [])
    (some' : ts' ≠ []) : (hull ts).stop ≤ (hull ts').start := by
  obtain ⟨front, t, rfl⟩ := exists_last some
  cases ts' with
  | nil => exact absurd rfl some'
  | cons t' rest =>
    rw [stop_hull (List.suffix_append front [t]) (by simp)]
    exact (List.pairwise_append.mp order.ordered).2.2 t (by simp) t' (inside List.mem_cons_self)

/-- What starts with some tokens and ends with others spans what is joined from both. -/
theorem InOrder.join_hull (order : InOrder whole) (starts : ts <+: whole) (ends : ts' <:+ whole) (some : ts ≠ [])
    (some' : ts' ≠ []) : (hull ts).join (hull ts') = hull whole := by
  have first := order.within starts.subset some
  have last := order.within ends.subset some'
  have start := start_hull starts some
  have stop := stop_hull ends some'
  have low : min (hull ts).start (hull ts').start = (hull whole).start := by
    have := last.1
    omega
  have high : max (hull ts).stop (hull ts').stop = (hull whole).stop := by
    have := first.2
    omega
  rw [Span.join, low, high]

end Hulls

open Grammar

def SpellsType (ts : List Token) (ty : Ty) : Prop := IsType (ts.map (·.kind)) ty

def Separates (symbols : List Symbol) (sep : List Token) : Prop := Optional symbols (sep.map (·.kind))

mutual

/-- The expression is read from the tokens. The dereference behind an arrow has the tokens of its operand. -/
inductive SpellsExpr : List Token → Expr → Prop
  | assign {t : Token} {ts ts' target value} (left : SpellsExpr ts target) (sign : t.kind = .symbol .equal)
      (right : SpellsExpr ts' value) : SpellsExpr (ts ++ t :: ts') (.assign (hull (ts ++ t :: ts')) target value)
  | binary {t : Token} {ts ts' lhs rhs} {op : BinaryOp} (left : SpellsExpr ts lhs) (sign : t.kind = .symbol op.symbol)
      (right : SpellsExpr ts' rhs) : SpellsExpr (ts ++ t :: ts') (.binary (hull (ts ++ t :: ts')) op lhs rhs)
  | unary {t : Token} {ts e} {op : UnaryOp} (sign : t.kind = .symbol op.symbol) (operand : SpellsExpr ts e) :
      SpellsExpr (t :: ts) (.unary (hull (t :: ts)) op e)
  | field {t t' : Token} {ts e name} (base : SpellsExpr ts e) (sign : t.kind = .symbol .dot)
      (named : t'.kind = .identifier name) : SpellsExpr (ts ++ [t, t']) (.field (hull (ts ++ [t, t'])) e name)
  | arrow {t t' : Token} {ts e name} (base : SpellsExpr ts e) (sign : t.kind = .symbol .arrow)
      (named : t'.kind = .identifier name) :
      SpellsExpr (ts ++ [t, t']) (.field (hull (ts ++ [t, t'])) (.unary (hull ts) .deref e) name)
  | index {t t' : Token} {ts ts' e i} (base : SpellsExpr ts e) (opens : t.kind = .symbol .leftBracket)
      (offset : SpellsExpr ts' i) (closes : t'.kind = .symbol .rightBracket) :
      SpellsExpr (ts ++ t :: ts' ++ [t']) (.index (hull (ts ++ t :: ts' ++ [t'])) e i)
  | int {t : Token} {value} (literal : t.kind = .int value) : SpellsExpr [t] (.int t.span value)
  | float {t : Token} {value} (literal : t.kind = .float value) : SpellsExpr [t] (.float t.span value)
  | string {t : Token} {value} (literal : t.kind = .string value) : SpellsExpr [t] (.string t.span value)
  | variable {t : Token} {name} (named : t.kind = .identifier name) : SpellsExpr [t] (.variable t.span name)
  | call {t t' t'' : Token} {ts callee args} (named : t.kind = .identifier callee) (opens : t'.kind = .symbol .leftParen)
      (passed : SpellsArgs ts args) (closes : t''.kind = .symbol .rightParen) :
      SpellsExpr (t :: t' :: ts ++ [t'']) (.call (hull (t :: t' :: ts ++ [t''])) callee t.span args)
  | struct {t t' t'' : Token} {ts name inits} (named : t.kind = .identifier name) (opens : t'.kind = .symbol .leftBrace)
      (fields : SpellsInits ts inits) (closes : t''.kind = .symbol .rightBrace) :
      SpellsExpr (t :: t' :: ts ++ [t'']) (.struct (hull (t :: t' :: ts ++ [t''])) name inits)
  | group {t t' : Token} {ts e} (opens : t.kind = .symbol .leftParen) (inner : SpellsExpr ts e)
      (closes : t'.kind = .symbol .rightParen) : SpellsExpr (t :: ts ++ [t']) (e.withSpan (hull (t :: ts ++ [t'])))

inductive SpellsArgs : List Token → List Expr → Prop
  | none : SpellsArgs [] []
  | one {ts e} (only : SpellsExpr ts e) : SpellsArgs ts [e]
  | more {t : Token} {ts ts' e e' rest} (first : SpellsExpr ts e) (comma : t.kind = .symbol .comma)
      (others : SpellsArgs ts' (e' :: rest)) : SpellsArgs (ts ++ t :: ts') (e :: e' :: rest)

inductive SpellsInit : List Token → FieldInit → Prop
  | field {t t' : Token} {ts name e} (named : t.kind = .identifier name) (colon : t'.kind = .symbol .colon)
      (value : SpellsExpr ts e) : SpellsInit (t :: t' :: ts) ⟨name, e, hull (t :: t' :: ts)⟩

inductive SpellsInits : List Token → List FieldInit → Prop
  | nil : SpellsInits [] []
  | cons {ts sep ts' init rest} (first : SpellsInit ts init) (separator : Separates [.comma] sep)
      (others : SpellsInits ts' rest) : SpellsInits (ts ++ sep ++ ts') (init :: rest)

end

inductive SpellsLet : List Token → Stmt → Prop
  | declared {t t' t'' : Token} {ts name ty} (keyword : t.kind = .keyword .let) (named : t'.kind = .identifier name)
      (colon : t''.kind = .symbol .colon) (type : SpellsType ts ty) :
      SpellsLet (t :: t' :: t'' :: ts) (.letIn (hull (t :: t' :: t'' :: ts)) name ty none)
  | initialised {t t' t'' u : Token} {ts ts' name ty e} (keyword : t.kind = .keyword .let)
      (named : t'.kind = .identifier name) (colon : t''.kind = .symbol .colon) (type : SpellsType ts ty)
      (sign : u.kind = .symbol .equal) (value : SpellsExpr ts' e) :
      SpellsLet (t :: t' :: t'' :: ts ++ u :: ts') (.letIn (hull (t :: t' :: t'' :: ts ++ u :: ts')) name ty (some e))

inductive SpellsForInit : List Token → Stmt → Prop
  | letIn {ts s} (declared : SpellsLet ts s) : SpellsForInit ts s
  | expr {ts e} (value : SpellsExpr ts e) : SpellsForInit ts (.expr e)

mutual

/-- The parentheses around tests and the keywords between branches belong to the whole statement only. -/
inductive SpellsStmt : List Token → Stmt → Prop
  | letIn {ts s} (declared : SpellsLet ts s) : SpellsStmt ts s
  | ret {t : Token} (keyword : t.kind = .keyword .return) : SpellsStmt [t] (.ret t.span none)
  | retValue {t : Token} {ts e} (keyword : t.kind = .keyword .return) (value : SpellsExpr ts e) :
      SpellsStmt (t :: ts) (.ret (hull (t :: ts)) (some e))
  | cond {t : Token} {ts chain} (keyword : t.kind = .keyword .if) (branches : SpellsChain ts chain) :
      SpellsStmt (t :: ts) (.cond (hull (t :: ts)) chain)
  | while {t t' t'' : Token} {ts ts' e b} (keyword : t.kind = .keyword .while) (opens : t'.kind = .symbol .leftParen)
      (test : SpellsExpr ts e) (closes : t''.kind = .symbol .rightParen) (body : SpellsBlock ts' b) :
      SpellsStmt (t :: t' :: ts ++ t'' :: ts') (.while (hull (t :: t' :: ts ++ t'' :: ts')) e b)
  | for {t t' u u' u'' : Token} {ts₁ ts₂ ts₃ ts₄ init e step b} (keyword : t.kind = .keyword .for)
      (opens : t'.kind = .symbol .leftParen) (first : SpellsForInit ts₁ init) (semicolon : u.kind = .symbol .semicolon)
      (test : SpellsExpr ts₂ e) (semicolon' : u'.kind = .symbol .semicolon) (next : SpellsExpr ts₃ step)
      (closes : u''.kind = .symbol .rightParen) (body : SpellsBlock ts₄ b) :
      SpellsStmt (t :: t' :: ts₁ ++ u :: ts₂ ++ u' :: ts₃ ++ u'' :: ts₄)
        (.for (hull (t :: t' :: ts₁ ++ u :: ts₂ ++ u' :: ts₃ ++ u'' :: ts₄)) init e step b)
  | expr {ts e} (value : SpellsExpr ts e) : SpellsStmt ts (.expr e)

inductive SpellsChain : List Token → IfChain → Prop
  | single {t t' : Token} {ts ts' e b} (opens : t.kind = .symbol .leftParen) (test : SpellsExpr ts e)
      (closes : t'.kind = .symbol .rightParen) (body : SpellsBlock ts' b) :
      SpellsChain (t :: ts ++ t' :: ts') (.branch e b .done)
  | withElse {t t' u : Token} {ts ts' ts'' e b b'} (opens : t.kind = .symbol .leftParen) (test : SpellsExpr ts e)
      (closes : t'.kind = .symbol .rightParen) (body : SpellsBlock ts' b) (keyword : u.kind = .keyword .else)
      (last : SpellsBlock ts'' b') : SpellsChain (t :: ts ++ t' :: ts' ++ u :: ts'') (.branch e b (.otherwise b'))
  | withElseIf {t t' u u' : Token} {ts ts' ts'' e b chain} (opens : t.kind = .symbol .leftParen)
      (test : SpellsExpr ts e) (closes : t'.kind = .symbol .rightParen) (body : SpellsBlock ts' b)
      (keyword : u.kind = .keyword .else) (keyword' : u'.kind = .keyword .if) (others : SpellsChain ts'' chain) :
      SpellsChain (t :: ts ++ t' :: ts' ++ u :: u' :: ts'') (.branch e b chain)

inductive SpellsBlock : List Token → Block → Prop
  | braces {t t' : Token} {ts stmts} (opens : t.kind = .symbol .leftBrace) (inside : SpellsStmts ts stmts)
      (closes : t'.kind = .symbol .rightBrace) : SpellsBlock (t :: ts ++ [t']) ⟨stmts, hull (t :: ts ++ [t'])⟩

inductive SpellsStmts : List Token → List Stmt → Prop
  | nil : SpellsStmts [] []
  | cons {ts sep ts' s rest} (first : SpellsStmt ts s) (separator : Separates [.semicolon] sep)
      (others : SpellsStmts ts' rest) : SpellsStmts (ts ++ sep ++ ts') (s :: rest)

end

inductive SpellsParam : List Token → Param → Prop
  | typed {t t' : Token} {ts name ty} (named : t.kind = .identifier name) (colon : t'.kind = .symbol .colon)
      (type : SpellsType ts ty) : SpellsParam (t :: t' :: ts) ⟨name, ty, hull (t :: t' :: ts)⟩

inductive SpellsParams : List Token → List Param → Prop
  | none : SpellsParams [] []
  | one {ts p} (only : SpellsParam ts p) : SpellsParams ts [p]
  | more {t : Token} {ts ts' p p' rest} (first : SpellsParam ts p) (comma : t.kind = .symbol .comma)
      (others : SpellsParams ts' (p' :: rest)) : SpellsParams (ts ++ t :: ts') (p :: p' :: rest)

inductive SpellsSignature : List Token → Signature → Prop
  | void {t t' t'' : Token} {ts name ps} (named : t.kind = .identifier name) (opens : t'.kind = .symbol .leftParen)
      (params : SpellsParams ts ps) (closes : t''.kind = .symbol .rightParen) :
      SpellsSignature (t :: t' :: ts ++ [t'']) ⟨name, t.span, .void, ps, hull (t :: t' :: ts ++ [t''])⟩
  | returning {t t' t'' u : Token} {ts ts' name ty ps} (named : t.kind = .identifier name)
      (opens : t'.kind = .symbol .leftParen) (params : SpellsParams ts ps) (closes : t''.kind = .symbol .rightParen)
      (colon : u.kind = .symbol .colon) (type : SpellsType ts' ty) :
      SpellsSignature (t :: t' :: ts ++ t'' :: u :: ts') ⟨name, t.span, ty, ps, hull (t :: t' :: ts ++ t'' :: u :: ts')⟩

inductive SpellsField : List Token → Field → Prop
  | typed {t t' : Token} {ts name ty} (named : t.kind = .identifier name) (colon : t'.kind = .symbol .colon)
      (type : SpellsType ts ty) : SpellsField (t :: t' :: ts) ⟨name, ty, hull (t :: t' :: ts)⟩

inductive SpellsFields : List Token → List Field → Prop
  | nil : SpellsFields [] []
  | cons {ts sep ts' f rest} (first : SpellsField ts f) (separator : Separates [.semicolon, .comma] sep)
      (others : SpellsFields ts' rest) : SpellsFields (ts ++ sep ++ ts') (f :: rest)

inductive SpellsDecl : List Token → Decl → Prop
  | function {t : Token} {ts ts' f b} (keyword : t.kind = .keyword .function) (signature : SpellsSignature ts f)
      (body : SpellsBlock ts' b) : SpellsDecl (t :: ts ++ ts') (.function ⟨f, b, hull (t :: ts ++ ts')⟩)
  | external {t : Token} {more ts f} (keyword : t.kind = .keyword .external)
      (keyword' : more = [] ∨ ∃ t', more = [t'] ∧ t'.kind = .keyword .function) (signature : SpellsSignature ts f) :
      SpellsDecl (t :: more ++ ts) (.external f (hull (t :: more ++ ts)))
  | struct {t t' t'' u : Token} {ts name fields} (keyword : t.kind = .keyword .struct)
      (named : t'.kind = .identifier name) (opens : t''.kind = .symbol .leftBrace) (inside : SpellsFields ts fields)
      (closes : u.kind = .symbol .rightBrace) :
      SpellsDecl (t :: t' :: t'' :: ts ++ [u]) (.struct ⟨name, fields, hull (t :: t' :: t'' :: ts ++ [u])⟩)
  | importOf {t t' : Token} {path} (keyword : t.kind = .keyword .imports) (literal : t'.kind = .string path) :
      SpellsDecl [t, t'] (.importOf path (hull [t, t']))

inductive SpellsDocument : List Token → Document → Prop
  | nil : SpellsDocument [] []
  | cons {ts sep ts' d rest} (first : SpellsDecl ts d) (separator : Separates [.semicolon] sep)
      (others : SpellsDocument ts' rest) : SpellsDocument (ts ++ sep ++ ts') (d :: rest)

theorem SpellsType.ne_nil {ts : List Token} {ty : Ty} (spells : SpellsType ts ty) : ts ≠ [] := by
  rintro rfl
  exact IsType.ne_nil spells rfl

theorem Expr.span_withSpan (e : Expr) (span : Span) : (e.withSpan span).span = span := by cases e <;> rfl

section Expressions

variable {ts : List Token} {e : Expr}

theorem SpellsExpr.ne_nil (spells : SpellsExpr ts e) : ts ≠ [] := by cases spells <;> simp

theorem SpellsExpr.span_eq (spells : SpellsExpr ts e) : e.span = hull ts := by
  cases spells with
  | group => exact Expr.span_withSpan ..
  | _ => rfl

end Expressions

section Statements

variable {ts : List Token}

theorem SpellsBlock.ne_nil {b : Block} (spells : SpellsBlock ts b) : ts ≠ [] := by
  cases spells
  simp

theorem SpellsBlock.span_eq {b : Block} (spells : SpellsBlock ts b) : b.span = hull ts := by
  cases spells
  rfl

theorem SpellsChain.ne_nil {chain : IfChain} (spells : SpellsChain ts chain) : ts ≠ [] := by cases spells <;> simp

theorem SpellsSignature.ne_nil {f : Signature} (spells : SpellsSignature ts f) : ts ≠ [] := by cases spells <;> simp

theorem SpellsSignature.span_eq {f : Signature} (spells : SpellsSignature ts f) : f.span = hull ts := by
  cases spells <;> rfl

end Statements

end StructLang
