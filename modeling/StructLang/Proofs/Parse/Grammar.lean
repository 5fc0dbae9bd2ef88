import StructLang.Ast
import StructLang.Token

namespace StructLang

/-- The levels of expressions; operators of later levels bind tighter. -/
inductive Level
  | expr | comparison | additive | term | unary | access | primary
  deriving DecidableEq, Repr

namespace Level

def operands : Level → Option Level
  | .expr => some .comparison
  | .comparison => some .additive
  | .additive => some .term
  | .term => some .unary
  | .unary => some .access
  | .access => some .primary
  | .primary => none

end Level

namespace BinaryOp

def symbol : BinaryOp → Symbol
  | .add => .plus
  | .sub => .minus
  | .mul => .star
  | .div => .slash
  | .eq => .equalEqual
  | .lt => .less
  | .gt => .greater
  | .le => .lessEqual
  | .ge => .greaterEqual

def level : BinaryOp → Level
  | .add | .sub => .additive
  | .mul | .div => .term
  | .eq | .lt | .gt | .le | .ge => .comparison

end BinaryOp

def UnaryOp.symbol : UnaryOp → Symbol
  | .neg => .minus
  | .deref => .star
  | .ref => .ampersand

namespace Grammar

def Optional (symbols : List Symbol) (ts : List TokenKind) : Prop :=
  ts = [] ∨ ∃ s ∈ symbols, ts = [.symbol s]

def typeWords : List String := ["i8", "i16", "i32", "i64", "f8", "f16", "f32", "f64", "void", "str"]

inductive Denotes : String → Ty → Prop
  | i8 : Denotes "i8" (.int 8)
  | i16 : Denotes "i16" (.int 16)
  | i32 : Denotes "i32" (.int 32)
  | i64 : Denotes "i64" (.int 64)
  | f8 : Denotes "f8" (.float 8)
  | f16 : Denotes "f16" (.float 16)
  | f32 : Denotes "f32" (.float 32)
  | f64 : Denotes "f64" (.float 64)
  | void : Denotes "void" .void
  | str : Denotes "str" (.ptr (.int 8))
  | struct {name} (other : name ∉ typeWords) : Denotes name (.struct name)

theorem denotes_ofName (name : String) : Denotes name (.ofName name) := by
  unfold Ty.ofName Ty.ofName?
  split
  · exact .i8
  · exact .i16
  · exact .i32
  · exact .i64
  · exact .f8
  · exact .f16
  · exact .f32
  · exact .f64
  · exact .void
  · exact .str
  · refine .struct ?_
    simp only [typeWords, List.mem_cons, List.not_mem_nil, or_false, not_or]
    exact ⟨‹_›, ‹_›, ‹_›, ‹_›, ‹_›, ‹_›, ‹_›, ‹_›, ‹_›, ‹_›⟩

inductive IsType : List TokenKind → Ty → Prop
  | name {name ty} (denotes : Denotes name ty) : IsType [.identifier name] ty
  | ptr {ts ty} (target : IsType ts ty) : IsType (ts ++ [.symbol .star]) (.ptr ty)

mutual

inductive IsExpr : Level → List TokenKind → Expr → Prop
  | assign {ts ts' target value span} (left : IsExpr .unary ts target) (place : target.isPlace = true)
      (right : IsExpr .expr ts' value) : IsExpr .expr (ts ++ .symbol .equal :: ts') (.assign span target value)
  | tighter {l l' ts e} (operands : l.operands = some l') (inner : IsExpr l' ts e) : IsExpr l ts e
  | binary {l ts ts' lhs rhs span} (op : BinaryOp) (operands : op.level.operands = some l)
      (left : IsExpr op.level ts lhs) (right : IsExpr l ts' rhs) :
      IsExpr op.level (ts ++ .symbol op.symbol :: ts') (.binary span op lhs rhs)
  | unary {ts e span} (op : UnaryOp) (operand : IsExpr .unary ts e) :
      IsExpr .unary (.symbol op.symbol :: ts) (.unary span op e)
  | field {ts e name span} (base : IsExpr .access ts e) :
      IsExpr .access (ts ++ [.symbol .dot, .identifier name]) (.field span e name)
  | arrow {ts e name span span'} (base : IsExpr .access ts e) :
      IsExpr .access (ts ++ [.symbol .arrow, .identifier name]) (.field span (.unary span' .deref e) name)
  | index {ts ts' e i span} (base : IsExpr .access ts e) (offset : IsExpr .expr ts' i) :
      IsExpr .access (ts ++ .symbol .leftBracket :: ts' ++ [.symbol .rightBracket]) (.index span e i)
  | int {value span} : IsExpr .primary [.int value] (.int span value)
  | float {value span} : IsExpr .primary [.float value] (.float span value)
  | string {value span} : IsExpr .primary [.string value] (.string span value)
  | variable {name span} : IsExpr .primary [.identifier name] (.variable span name)
  | call {ts callee args span span'} (passed : IsArgs ts args) :
      IsExpr .primary (.identifier callee :: .symbol .leftParen :: ts ++ [.symbol .rightParen])
        (.call span callee span' args)
  | struct {ts name inits span} (fields : IsInits ts inits) :
      IsExpr .primary (.identifier name :: .symbol .leftBrace :: ts ++ [.symbol .rightBrace]) (.struct span name inits)
  | group {ts e} (span : Span) (inner : IsExpr .expr ts e) :
      IsExpr .primary (.symbol .leftParen :: ts ++ [.symbol .rightParen]) (e.withSpan span)

inductive IsArgs : List TokenKind → List Expr → Prop
  | none : IsArgs [] []
  | one {ts e} (only : IsExpr .expr ts e) : IsArgs ts [e]
  | more {ts ts' e e' rest} (first : IsExpr .expr ts e) (others : IsArgs ts' (e' :: rest)) :
      IsArgs (ts ++ .symbol .comma :: ts') (e :: e' :: rest)

inductive IsInits : List TokenKind → List FieldInit → Prop
  | nil : IsInits [] []
  | cons {ts sep ts' name e span rest} (value : IsExpr .expr ts e) (separator : Optional [.comma] sep)
      (others : IsInits ts' rest) :
      IsInits (.identifier name :: .symbol .colon :: ts ++ sep ++ ts') (⟨name, e, span⟩ :: rest)

end

inductive IsLet : List TokenKind → Stmt → Prop
  | declared {ts name ty span} (type : IsType ts ty) :
      IsLet (.keyword .let :: .identifier name :: .symbol .colon :: ts) (.letIn span name ty none)
  | initialised {ts ts' name ty e span} (type : IsType ts ty) (value : IsExpr .expr ts' e) :
      IsLet (.keyword .let :: .identifier name :: .symbol .colon :: ts ++ .symbol .equal :: ts')
        (.letIn span name ty (some e))

inductive IsForInit : List TokenKind → Stmt → Prop
  | letIn {ts s} (declared : IsLet ts s) : IsForInit ts s
  | expr {ts e} (value : IsExpr .expr ts e) : IsForInit ts (.expr e)

mutual

inductive IsStmt : List TokenKind → Stmt → Prop
  | letIn {ts s} (declared : IsLet ts s) : IsStmt ts s
  | ret {span} : IsStmt [.keyword .return] (.ret span none)
  | retValue {ts e span} (value : IsExpr .expr ts e) : IsStmt (.keyword .return :: ts) (.ret span (some e))
  | cond {ts chain span} (branches : IsChain ts chain) : IsStmt (.keyword .if :: ts) (.cond span chain)
  | while {ts ts' e b span} (test : IsExpr .expr ts e) (body : IsBlock ts' b) :
      IsStmt (.keyword .while :: .symbol .leftParen :: ts ++ .symbol .rightParen :: ts') (.while span e b)
  | for {ts₁ ts₂ ts₃ ts₄ init e step b span} (first : IsForInit ts₁ init) (test : IsExpr .expr ts₂ e)
      (next : IsExpr .expr ts₃ step) (body : IsBlock ts₄ b) :
      IsStmt (.keyword .for :: .symbol .leftParen :: ts₁ ++ .symbol .semicolon :: ts₂ ++ .symbol .semicolon :: ts₃ ++
        .symbol .rightParen :: ts₄) (.for span init e step b)
  | expr {ts e} (value : IsExpr .expr ts e) : IsStmt ts (.expr e)

inductive IsChain : List TokenKind → IfChain → Prop
  | single {ts ts' e b} (test : IsExpr .expr ts e) (body : IsBlock ts' b) :
      IsChain (.symbol .leftParen :: ts ++ .symbol .rightParen :: ts') (.branch e b .done)
  | withElse {ts ts' ts'' e b b'} (test : IsExpr .expr ts e) (body : IsBlock ts' b) (last : IsBlock ts'' b') :
      IsChain (.symbol .leftParen :: ts ++ .symbol .rightParen :: ts' ++ .keyword .else :: ts'')
        (.branch e b (.otherwise b'))
  | withElseIf {ts ts' ts'' e b chain} (test : IsExpr .expr ts e) (body : IsBlock ts' b) (others : IsChain ts'' chain) :
      IsChain (.symbol .leftParen :: ts ++ .symbol .rightParen :: ts' ++ .keyword .else :: .keyword .if :: ts'')
        (.branch e b chain)

inductive IsBlock : List TokenKind → Block → Prop
  | braces {ts stmts span} (inside : IsStmts ts stmts) :
      IsBlock (.symbol .leftBrace :: ts ++ [.symbol .rightBrace]) ⟨stmts, span⟩

inductive IsStmts : List TokenKind → List Stmt → Prop
  | nil : IsStmts [] []
  | cons {ts sep ts' s rest} (first : IsStmt ts s) (separator : Optional [.semicolon] sep) (others : IsStmts ts' rest) :
      IsStmts (ts ++ sep ++ ts') (s :: rest)

end

inductive IsParams : List TokenKind → List Param → Prop
  | none : IsParams [] []
  | one {ts name ty span} (type : IsType ts ty) :
      IsParams (.identifier name :: .symbol .colon :: ts) [⟨name, ty, span⟩]
  | more {ts ts' name ty span p rest} (type : IsType ts ty) (others : IsParams ts' (p :: rest)) :
      IsParams (.identifier name :: .symbol .colon :: ts ++ .symbol .comma :: ts') (⟨name, ty, span⟩ :: p :: rest)

inductive IsSignature : List TokenKind → Signature → Prop
  | void {ts name ps span span'} (params : IsParams ts ps) :
      IsSignature (.identifier name :: .symbol .leftParen :: ts ++ [.symbol .rightParen]) ⟨name, span, .void, ps, span'⟩
  | returning {ts ts' name ty ps span span'} (params : IsParams ts ps) (type : IsType ts' ty) :
      IsSignature (.identifier name :: .symbol .leftParen :: ts ++ .symbol .rightParen :: .symbol .colon :: ts')
        ⟨name, span, ty, ps, span'⟩

inductive IsFields : List TokenKind → List Field → Prop
  | nil : IsFields [] []
  | cons {ts sep ts' name ty span rest} (type : IsType ts ty) (separator : Optional [.semicolon, .comma] sep)
      (others : IsFields ts' rest) :
      IsFields (.identifier name :: .symbol .colon :: ts ++ sep ++ ts') (⟨name, ty, span⟩ :: rest)

inductive IsDecl : List TokenKind → Decl → Prop
  | function {ts ts' f b span} (signature : IsSignature ts f) (body : IsBlock ts' b) :
      IsDecl (.keyword .function :: ts ++ ts') (.function ⟨f, b, span⟩)
  | external {ts f span} (signature : IsSignature ts f) : IsDecl (.keyword .external :: ts) (.external f span)
  | externalFunction {ts f span} (signature : IsSignature ts f) :
      IsDecl (.keyword .external :: .keyword .function :: ts) (.external f span)
  | struct {ts name fields span} (inside : IsFields ts fields) :
      IsDecl (.keyword .struct :: .identifier name :: .symbol .leftBrace :: ts ++ [.symbol .rightBrace])
        (.struct ⟨name, fields, span⟩)
  | importOf {path span} : IsDecl [.keyword .imports, .string path] (.importOf path span)

inductive IsDocument : List TokenKind → Document → Prop
  | nil : IsDocument [] []
  | cons {ts sep ts' d rest} (first : IsDecl ts d) (separator : Optional [.semicolon] sep)
      (others : IsDocument ts' rest) : IsDocument (ts ++ sep ++ ts') (d :: rest)

theorem IsType.ne_nil {ts : List TokenKind} {ty : Ty} (derived : IsType ts ty) : ts ≠ [] := by cases derived <;> simp

theorem IsExpr.ne_nil : {l : Level} → {ts : List TokenKind} → {e : Expr} → IsExpr l ts e → ts ≠ []
  | _, _, _, .tighter _ inner => inner.ne_nil
  | _, _, _, .assign .. | _, _, _, .binary .. | _, _, _, .unary .. | _, _, _, .field .. | _, _, _, .arrow ..
  | _, _, _, .index .. | _, _, _, .int | _, _, _, .float | _, _, _, .string | _, _, _, .variable | _, _, _, .call ..
  | _, _, _, .struct .. | _, _, _, .group .. => by simp

theorem IsStmt.ne_nil {ts : List TokenKind} {s : Stmt} (derived : IsStmt ts s) : ts ≠ [] := by
  cases derived with
  | letIn declared => cases declared <;> simp
  | expr value => exact value.ne_nil
  | _ => simp

theorem IsBlock.ne_nil {ts : List TokenKind} {b : Block} (derived : IsBlock ts b) : ts ≠ [] := by cases derived; simp

/-- A declaration has a keyword. -/
theorem IsDecl.ne_nil {ts : List TokenKind} {d : Decl} (derived : IsDecl ts d) : ts ≠ [] := by
  cases derived <;> simp

/-- An expression with an operator between operands denotes no place. -/
theorem IsExpr.operand_of_place {l l' : Level} {ts : List TokenKind} {e : Expr} (derived : IsExpr l ts e)
    (operands : l.operands = some l') (chain : l = .comparison ∨ l = .additive ∨ l = .term)
    (place : e.isPlace = true) : IsExpr l' ts e := by
  cases derived with
  | tighter operands' inner =>
    cases operands.symm.trans operands'
    exact inner
  | binary => cases place
  | _ => rcases chain with level | level | level <;> cases level

theorem IsExpr.unary_of_place {ts : List TokenKind} {e : Expr} (derived : IsExpr .comparison ts e)
    (place : e.isPlace = true) : IsExpr .unary ts e := by
  have additive := derived.operand_of_place rfl (by simp) place
  have term := additive.operand_of_place rfl (by simp) place
  exact term.operand_of_place rfl (by simp) place

end Grammar

end StructLang
