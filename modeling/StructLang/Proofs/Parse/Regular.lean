import StructLang.Proofs.Parse.Documents
import StructLang.Proofs.Parse.Grammar

namespace StructLang

def Ty.isNamed : Ty → Bool
  | .ptr target => target.isNamed
  | .int width | .float width => [8, 16, 32, 64].contains width
  | .struct name => (ofName? name).isNone
  | .void => true

mutual

def Expr.isRegular : Expr → Bool
  | .assign _ target value => target.isPlace && target.isRegular && value.isRegular
  | .binary _ _ lhs rhs => lhs.isRegular && rhs.isRegular
  | .unary _ _ operand => operand.isRegular
  | .call _ _ _ args => Expr.areRegular args
  | .field _ base _ => base.isRegular
  | .index _ base offset => base.isRegular && offset.isRegular
  | .struct _ _ inits => FieldInit.areRegular inits
  | .variable .. | .int .. | .float .. | .string .. => true
termination_by structural e => e

def Expr.areRegular : List Expr → Bool
  | [] => true
  | e :: rest => e.isRegular && Expr.areRegular rest
termination_by structural es => es

def FieldInit.isRegular : FieldInit → Bool
  | ⟨_, value, _⟩ => value.isRegular
termination_by structural init => init

def FieldInit.areRegular : List FieldInit → Bool
  | [] => true
  | init :: rest => init.isRegular && FieldInit.areRegular rest
termination_by structural inits => inits

end

def Stmt.isInit : Stmt → Bool
  | .letIn .. | .expr _ => true
  | _ => false

mutual

def Stmt.isRegular : Stmt → Bool
  | .letIn _ _ ty none => ty.isNamed
  | .letIn _ _ ty (some e) => ty.isNamed && e.isRegular
  | .ret _ none => true
  | .ret _ (some e) => e.isRegular
  | .cond _ chain => !chain.branches.isEmpty && chain.isRegular
  | .while _ test body => test.isRegular && body.isRegular
  | .for _ init test step body =>
    init.isInit && init.isRegular && test.isRegular && step.isRegular && body.isRegular
  | .expr e => e.isRegular
termination_by structural st => st

def IfChain.isRegular : IfChain → Bool
  | .branch test body rest => test.isRegular && body.isRegular && rest.isRegular
  | .otherwise body => body.isRegular
  | .done => true
termination_by structural chain => chain

def Block.isRegular : Block → Bool
  | ⟨stmts, _⟩ => Stmt.areRegular stmts
termination_by structural b => b

def Stmt.areRegular : List Stmt → Bool
  | [] => true
  | st :: rest => st.isRegular && Stmt.areRegular rest
termination_by structural stmts => stmts

end

def Signature.isRegular (f : Signature) : Bool := f.returns.isNamed && f.params.all (·.ty.isNamed)

def Decl.isRegular : Decl → Bool
  | .function f => f.signature.isRegular && f.body.isRegular
  | .external f _ => f.isRegular
  | .struct s => s.fields.all (·.ty.isNamed) && decide (s.fields.map (·.name)).Nodup
  | .importOf .. => true
  | .imported .. => false

def Document.isRegular (d : Document) : Bool := d.all Decl.isRegular

theorem Expr.isRegular_withSpan (span : Span) (e : Expr) : (e.withSpan span).isRegular = e.isRegular := by
  cases e <;> rfl

namespace Grammar

theorem Denotes.isNamed {name : String} {ty : Ty} (denotes : Denotes name ty) : ty.isNamed = true := by
  cases denotes with
  | struct other =>
    cases known : Ty.ofName? name with
    | none => rw [Ty.isNamed, known, Option.isNone_none]
    | some ty =>
      unfold Ty.ofName? at known
      split at known <;> first | exact absurd (by decide) other | cases known
  | _ => rfl

theorem IsType.isNamed {ts : List TokenKind} {ty : Ty} (derived : IsType ts ty) : ty.isNamed = true := by
  induction derived with
  | name denotes => exact denotes.isNamed
  | ptr _ target => exact target

mutual

theorem IsExpr.isRegular {l : Level} {ts : List TokenKind} {e : Expr} : IsExpr l ts e → e.isRegular = true
  | .assign left place right => by rw [Expr.isRegular, place, left.isRegular, right.isRegular]; rfl
  | .tighter _ inner => inner.isRegular
  | .binary _ _ left right => by rw [Expr.isRegular, left.isRegular, right.isRegular]; rfl
  | .unary _ operand => by rw [Expr.isRegular, operand.isRegular]
  | .field base => by rw [Expr.isRegular, base.isRegular]
  | .arrow base => by rw [Expr.isRegular, Expr.isRegular, base.isRegular]
  | .index base offset => by rw [Expr.isRegular, base.isRegular, offset.isRegular]; rfl
  | .int | .float | .string | .variable => rfl
  | .call passed => by rw [Expr.isRegular, passed.areRegular]
  | .struct fields => by rw [Expr.isRegular, fields.areRegular]
  | .group span inner => by rw [Expr.isRegular_withSpan, inner.isRegular]
termination_by structural derived => derived

theorem IsArgs.areRegular {ts : List TokenKind} {args : List Expr} : IsArgs ts args → Expr.areRegular args = true
  | .none => rfl
  | .one only => by rw [Expr.areRegular, only.isRegular]; rfl
  | .more first others => by rw [Expr.areRegular, first.isRegular, others.areRegular]; rfl
termination_by structural derived => derived

theorem IsInits.areRegular {ts : List TokenKind} {inits : List FieldInit} :
    IsInits ts inits → FieldInit.areRegular inits = true
  | .nil => rfl
  | .cons value _ others => by
    rw [FieldInit.areRegular, FieldInit.isRegular, value.isRegular, others.areRegular]
    rfl
termination_by structural derived => derived

end

theorem IsLet.isRegular {ts : List TokenKind} {s : Stmt} (declared : IsLet ts s) :
    s.isInit = true ∧ s.isRegular = true := by
  cases declared with
  | declared type => exact ⟨rfl, type.isNamed⟩
  | initialised type value => exact ⟨rfl, by rw [Stmt.isRegular, type.isNamed, value.isRegular]; rfl⟩

theorem IsForInit.isRegular {ts : List TokenKind} {s : Stmt} (first : IsForInit ts s) :
    s.isInit = true ∧ s.isRegular = true := by
  cases first with
  | letIn declared => exact declared.isRegular
  | expr value => exact ⟨rfl, value.isRegular⟩

theorem IsChain.branches {ts : List TokenKind} {chain : IfChain} (derived : IsChain ts chain) :
    chain.branches.isEmpty = false := by
  cases derived <;> rfl

mutual

theorem IsStmt.isRegular {ts : List TokenKind} {s : Stmt} : IsStmt ts s → s.isRegular = true
  | .letIn declared => declared.isRegular.2
  | .ret => rfl
  | .retValue value => by rw [Stmt.isRegular, value.isRegular]
  | .cond branches => by rw [Stmt.isRegular, branches.branches, branches.isRegular]; rfl
  | .while test body => by rw [Stmt.isRegular, test.isRegular, body.isRegular]; rfl
  | .for first test next body => by
    rw [Stmt.isRegular, first.isRegular.1, first.isRegular.2, test.isRegular, next.isRegular, body.isRegular]
    rfl
  | .expr value => by rw [Stmt.isRegular, value.isRegular]
termination_by structural derived => derived

theorem IsChain.isRegular {ts : List TokenKind} {chain : IfChain} : IsChain ts chain → chain.isRegular = true
  | .single test body => by rw [IfChain.isRegular, test.isRegular, body.isRegular]; rfl
  | .withElse test body last => by
    rw [IfChain.isRegular, IfChain.isRegular, test.isRegular, body.isRegular, last.isRegular]
    rfl
  | .withElseIf test body others => by
    rw [IfChain.isRegular, test.isRegular, body.isRegular, others.isRegular]
    rfl
termination_by structural derived => derived

theorem IsBlock.isRegular {ts : List TokenKind} {b : Block} : IsBlock ts b → b.isRegular = true
  | .braces inside => by rw [Block.isRegular, inside.areRegular]
termination_by structural derived => derived

theorem IsStmts.areRegular {ts : List TokenKind} {stmts : List Stmt} : IsStmts ts stmts → Stmt.areRegular stmts = true
  | .nil => rfl
  | .cons first _ others => by rw [Stmt.areRegular, first.isRegular, others.areRegular]; rfl
termination_by structural derived => derived

end

theorem IsParams.areNamed {ts : List TokenKind} {ps : List Param} (derived : IsParams ts ps) :
    ps.all (·.ty.isNamed) = true := by
  induction derived with
  | none => rfl
  | one type => rw [List.all_cons, type.isNamed, List.all_nil, Bool.and_true]
  | more type _ others => rw [List.all_cons, type.isNamed, others, Bool.and_true]

theorem IsSignature.isRegular {ts : List TokenKind} {f : Signature} (derived : IsSignature ts f) :
    f.isRegular = true := by
  cases derived with
  | void params => rw [Signature.isRegular, params.areNamed]; rfl
  | returning params type => rw [Signature.isRegular, params.areNamed, type.isNamed]; rfl

theorem IsFields.areNamed {ts : List TokenKind} {fields : List Field} (derived : IsFields ts fields) :
    fields.all (·.ty.isNamed) = true := by
  induction derived with
  | nil => rfl
  | cons type _ _ others => rw [List.all_cons, type.isNamed, others, Bool.and_true]

theorem IsDecl.isRegular {ts : List TokenKind} {d : Decl} (derived : IsDecl ts d) (plain : d.Plain) :
    d.isRegular = true := by
  cases derived with
  | function signature body => rw [Decl.isRegular, signature.isRegular, body.isRegular]; rfl
  | external signature => exact signature.isRegular
  | externalFunction signature => exact signature.isRegular
  | struct inside => rw [Decl.isRegular, inside.areNamed, Bool.true_and]; exact decide_eq_true plain
  | importOf => rfl

theorem IsDocument.isRegular {ts : List TokenKind} {d : Document} (derived : IsDocument ts d)
    (plain : ∀ decl ∈ d, decl.Plain) : d.isRegular = true := by
  induction derived with
  | nil => rfl
  | cons first _ _ others =>
    obtain ⟨here, later⟩ := List.forall_mem_cons.mp plain
    rw [Document.isRegular, List.all_cons, first.isRegular here, Bool.true_and]
    exact others later

end Grammar

end StructLang
