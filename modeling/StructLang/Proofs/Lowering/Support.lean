import StructLang.Proofs.Lowering.Bodies

namespace StructLang

def BinaryOp.Works (op : BinaryOp) : Ty → Prop
  | .int _ | .float _ => True
  | .ptr _ => op.isComparison = true
  | .void | .struct _ => False

def Expr.HasValue (Γ : Context) : Expr → Prop
  | .call _ callee _ _ => ∀ f, Γ.functions callee = some f → f.returns ≠ .void
  | _ => True

mutual

def Expr.Supported (Γ : Context) : Expr → Prop
  | .int .. | .float .. | .string .. | .variable .. => True
  | .assign _ target value =>
    (value.Supported Γ ∧ value.HasValue Γ) ∧ target.Supported Γ ∧ target.HasValue Γ
  | .binary _ op lhs rhs =>
    (lhs.Supported Γ ∧ lhs.HasValue Γ) ∧ (rhs.Supported Γ ∧ rhs.HasValue Γ) ∧
      ∀ ty, HasType .strict Γ lhs ty → op.Works ty
  | .unary _ .neg operand =>
    (operand.Supported Γ ∧ operand.HasValue Γ) ∧
      ∀ ty, HasType .strict Γ operand ty → ty.isInt = true ∨ ty.isFloat = true
  | .unary _ .ref operand | .unary _ .deref operand | .field _ operand _ =>
    operand.Supported Γ ∧ operand.HasValue Γ
  | .call _ _ _ args => Expr.allSupported Γ args
  | .index _ base offset => (base.Supported Γ ∧ base.HasValue Γ) ∧ offset.Supported Γ ∧ offset.HasValue Γ
  | .struct _ _ inits => FieldInit.allSupported Γ inits
termination_by structural e => e

def Expr.allSupported (Γ : Context) : List Expr → Prop
  | [] => True
  | e :: rest => (e.Supported Γ ∧ e.HasValue Γ) ∧ Expr.allSupported Γ rest
termination_by structural es => es

def FieldInit.allSupported (Γ : Context) : List FieldInit → Prop
  | [] => True
  | first :: rest => first.Supported Γ ∧ FieldInit.allSupported Γ rest
termination_by structural inits => inits

def FieldInit.Supported (Γ : Context) : FieldInit → Prop
  | ⟨_, value, _⟩ => value.Supported Γ ∧ value.HasValue Γ
termination_by structural init => init

end

abbrev Expr.Valued (Γ : Context) (e : Expr) : Prop := e.Supported Γ ∧ e.HasValue Γ

def Stmt.after (Γ : Context) : Stmt → Context
  | .letIn _ name ty _ => Γ.bind name ty
  | _ => Γ

def Block.isLeft (b : Block) : Bool := !b.stmts.foldl Stmt.finishes false

mutual

def Stmt.Supported (Γ : Context) : Stmt → Prop
  | .letIn _ _ _ none => True
  | .letIn _ _ _ (some e) => e.Valued Γ
  | .ret _ none => Γ.returns = .void
  | .ret _ (some e) => e.Valued Γ ∧ Γ.returns ≠ .void
  | .cond _ chain => chain.Supported Γ
  | .while _ test body => test.Valued Γ ∧ body.Supported Γ
  | .for _ init test step body =>
    init.Supported Γ ∧ test.Valued (init.after Γ) ∧ body.Supported (init.after Γ) ∧
      -- A step that cannot be reached from the body is not lowered.
      (body.isLeft = true → step.Supported (init.after Γ))
  | .expr e => e.Supported Γ
termination_by structural st => st

def IfChain.Supported (Γ : Context) : IfChain → Prop
  | .branch test body rest => test.Valued Γ ∧ body.Supported Γ ∧ rest.Supported Γ
  | .otherwise body => body.Supported Γ
  | .done => True
termination_by structural chain => chain

def Block.Supported (Γ : Context) : Block → Prop
  | ⟨body, _⟩ => Stmt.allSupported Γ body
termination_by structural b => b

def Stmt.allSupported (Γ : Context) : List Stmt → Prop
  | [] => True
  | st :: rest => st.Supported Γ ∧ Stmt.allSupported (st.after Γ) rest
termination_by structural body => body

end

theorem StmtTyped.after_eq {Γ Γ' : Context} {st : Stmt} (typed : StmtTyped .strict Γ st Γ') : Γ' = st.after Γ := by
  cases typed with
  | declare => rfl
  | initialise => rfl
  | ret => rfl
  | retValue => rfl
  | cond typed => exact ChainTyped.strict_eq _ typed
  | «while» _ typed => exact typed.strict_eq
  | «for» => rfl
  | expr => rfl

/-- An expression has one type at most. -/
theorem HasType.unique {o : Strictness} {Γ : Context} : (e : Expr) → {ty ty' : Ty} → HasType o Γ e ty →
    HasType o Γ e ty' → ty = ty'
  | .int .., _, _, .int, .int => rfl
  | .float .., _, _, .float, .float => rfl
  | .string .., _, _, .string, .string => rfl
  | .variable .., _, _, .variable bound, .variable bound' => Option.some.inj (bound.symm.trans bound')
  | .assign _ target _, _, _, .assign left _, .assign left' _ => unique target left left'
  | .binary _ op lhs _, _, _, typed, typed' => by
    obtain ⟨operand, left, -, rfl⟩ := HasType.binary_iff.mp typed
    obtain ⟨operand', left', -, rfl⟩ := HasType.binary_iff.mp typed'
    rw [unique lhs left left']
  | .unary _ .neg operand, _, _, .neg inner, .neg inner' => unique operand inner inner'
  | .unary _ .ref operand, _, _, .ref inner, .ref inner' => congrArg Ty.ptr (unique operand inner inner')
  | .unary _ .deref operand, _, _, .deref inner, .deref inner' => Ty.ptr.inj (unique operand inner inner')
  | .call .., _, _, .call known _ _, .call known' _ _ => by
    cases known.symm.trans known'
    rfl
  | .field _ base _, _, _, .field inner known found, .field inner' known' found' => by
    cases unique base inner inner'
    cases known.symm.trans known'
    cases found.symm.trans found'
    rfl
  | .index _ base _, _, _, .index pointer _, .index pointer' _ => Ty.ptr.inj (unique base pointer pointer')
  | .struct .., _, _, .struct _ _, .struct _ _ => rfl
termination_by structural e => e

theorem HasType.forall_iff {o : Strictness} {Γ : Context} {e : Expr} {ty : Ty} {P : Ty → Prop}
    (typed : HasType o Γ e ty) : (∀ ty, HasType o Γ e ty → P ty) ↔ P ty :=
  ⟨fun all => all ty typed, fun holds _ typed' => unique e typed typed' ▸ holds⟩

end StructLang
