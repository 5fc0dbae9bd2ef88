import StructLang.Proofs.Lowering.Blocks

namespace StructLang

open Lower

inductive Part
  | expr (want : Want) (e : Expr)
  | args (es : List Expr)
  /-- The fields of a struct literal, whose storage is `slot`. -/
  | inits (struct : String) (slot : Ir.Value) (fields : List FieldInit)
  | condition (e : Expr)
  | stmt (st : Stmt)
  /-- The rest of a conditional, which ends in the block `merge`. -/
  | chain (merge : Nat) (chain : IfChain)
  | block (b : Block)
  | stmts (body : List Stmt)

def Part.run (scope : Scope) : Part → Lower Unit
  | .expr want e => do let _ ← Lower.expr scope want e
  | .args es => do let _ ← exprs scope es
  | .inits struct slot fields => Lower.inits scope struct slot fields
  | .condition e => do let _ ← Lower.condition scope e
  | .stmt st => Lower.stmt scope true st
  | .chain merge rest => ifChain scope true merge rest
  | .block b => Lower.block scope true b
  | .stmts body => Lower.stmts scope true body

def Expr.place (e : Expr) : Want := if e.hasStorage then .address else .value

/-- The checker and the state of lowering when they get to a part. -/
structure Visit where
  part : Part
  checker : Checker
  state : FunctionState

namespace Visit

def Fails (scope : Scope) (v : Visit) (e : LoweringError) : Prop :=
  ∃ s, v.part.run scope v.state = .error e s

inductive Sub (scope : Scope) : Visit → Visit → Prop
  | assignValue {want span target value c s} :
      Sub scope ⟨.expr want (.assign span target value), c, s⟩ ⟨.expr .value value, c, s⟩
  | assignTarget {want span target value c s typed s₁}
      (evaluated : valueOf value (expr scope .value value) s = .ok typed s₁) :
      Sub scope ⟨.expr want (.assign span target value), c, s⟩ ⟨.expr target.place target, c, s₁⟩
  | left {want span op lhs rhs c s} :
      Sub scope ⟨.expr want (.binary span op lhs rhs), c, s⟩ ⟨.expr .value lhs, c, s⟩
  | right {want span op lhs rhs c s typed s₁} (evaluated : valueOf lhs (expr scope .value lhs) s = .ok typed s₁) :
      Sub scope ⟨.expr want (.binary span op lhs rhs), c, s⟩ ⟨.expr .value rhs, c, s₁⟩
  | referred {want span operand c s} :
      Sub scope ⟨.expr want (.unary span .ref operand), c, s⟩ ⟨.expr operand.place operand, c, s⟩
  | dereferenced {want span operand c s} :
      Sub scope ⟨.expr want (.unary span .deref operand), c, s⟩ ⟨.expr .value operand, c, s⟩
  | negated {want span operand c s} :
      Sub scope ⟨.expr want (.unary span .neg operand), c, s⟩ ⟨.expr .value operand, c, s⟩
  | passed {want span name nameSpan args c s} :
      Sub scope ⟨.expr want (.call span name nameSpan args), c, s⟩ ⟨.args args, c, s⟩
  | base {want span base name c s} :
      Sub scope ⟨.expr want (.field span base name), c, s⟩ ⟨.expr base.place base, c, s⟩
  | indexed {want span base offset c s} :
      Sub scope ⟨.expr want (.index span base offset), c, s⟩ ⟨.expr .value base, c, s⟩
  | offset {want span base offset c s typed s₁}
      (evaluated : valueOf base (expr scope .value base) s = .ok typed s₁) :
      Sub scope ⟨.expr want (.index span base offset), c, s⟩ ⟨.expr .value offset, c, s₁⟩
  | literal {want span name fields c s} :
      Sub scope ⟨.expr want (.struct span name fields), c, s⟩
        ⟨.inits name (s.function.alloca (.struct name)).1 fields, c,
          { s with function := (s.function.alloca (.struct name)).2 }⟩
  | firstArg {e rest c s} : Sub scope ⟨.args (e :: rest), c, s⟩ ⟨.expr .value e, c, s⟩
  | laterArgs {e rest c s typed s₁} (evaluated : valueOf e (expr scope .value e) s = .ok typed s₁) :
      Sub scope ⟨.args (e :: rest), c, s⟩ ⟨.args rest, c, s₁⟩
  | firstField {struct slot name value span rest c s} :
      Sub scope ⟨.inits struct slot (⟨name, value, span⟩ :: rest), c, s⟩ ⟨.expr .value value, c, s⟩
  | laterFields {struct slot first rest c s s₁} (initialised : Lower.init scope struct slot first s = .ok () s₁) :
      Sub scope ⟨.inits struct slot (first :: rest), c, s⟩ ⟨.inits struct slot rest, c, s₁⟩
  | tested {e c s} : Sub scope ⟨.condition e, c, s⟩ ⟨.expr .value e, c, s⟩
  | initialised {span name ty e c s} :
      Sub scope ⟨.stmt (.letIn span name ty (some e)), c, s⟩
        ⟨.expr .value e, c, { s with function := (s.function.alloca (.ofSource ty)).2 }⟩
  | returned {span e c s} : Sub scope ⟨.stmt (.ret span (some e)), c, s⟩ ⟨.expr .value e, c, s⟩
  | branches {span chain c s} :
      Sub scope ⟨.stmt (.cond span chain), c, s⟩
        ⟨.chain s.function.arena.length chain, c, { s with function := (s.function.create "if.end").2 }⟩
  | whileTest {span test body c s} :
      Sub scope ⟨.stmt (.while span test body), c, s⟩
        ⟨.condition test, c, { s with function := s.function.enterLoop }⟩
  | whileBody {span test body c s cond s₁}
      (evaluated : condition scope test { s with function := s.function.enterLoop } = .ok cond s₁) :
      Sub scope ⟨.stmt (.while span test body), c, s⟩
        ⟨.block body, c.condition test, inBody s₁ s.function.arena.length cond⟩
  | forInit {span init test step body c s} :
      Sub scope ⟨.stmt (.for span init test step body), c, s⟩ ⟨.stmt init, c.openBlock, s⟩
  | forTest {span init test step body c s s₁} (started : stmt scope true init s = .ok () s₁) :
      Sub scope ⟨.stmt (.for span init test step body), c, s⟩
        ⟨.condition test, (c.openBlock.stmt init).2, { s₁ with function := s₁.function.enterLoop }⟩
  | forBody {span init test step body c s s₁ cond s₂} (started : stmt scope true init s = .ok () s₁)
      (evaluated : condition scope test { s₁ with function := s₁.function.enterLoop } = .ok cond s₂) :
      Sub scope ⟨.stmt (.for span init test step body), c, s⟩
        ⟨.block body, (((c.openBlock.stmt init).2.condition test).expr step).2,
          inBody s₂ s₁.function.arena.length cond⟩
  | forStep {span init test step body c s s₁ cond s₂ s₃} (started : stmt scope true init s = .ok () s₁)
      (evaluated : condition scope test { s₁ with function := s₁.function.enterLoop } = .ok cond s₂)
      (done : block scope true body (inBody s₂ s₁.function.arena.length cond) = .ok () s₃)
      (reached : s₃.function.isTerminated = false) :
      Sub scope ⟨.stmt (.for span init test step body), c, s⟩
        ⟨.expr .value step, (c.openBlock.stmt init).2.condition test, s₃⟩
  | evaluated {e c s} : Sub scope ⟨.stmt (.expr e), c, s⟩ ⟨.expr .value e, c, s⟩
  | branchTest {merge test body rest c s} :
      Sub scope ⟨.chain merge (.branch test body rest), c, s⟩ ⟨.condition test, c, s⟩
  | branchBody {merge test body rest c s cond s₁} (evaluated : condition scope test s = .ok cond s₁) :
      Sub scope ⟨.chain merge (.branch test body rest), c, s⟩
        ⟨.block body, c.condition test, { s₁ with function := s₁.function.enterBranch cond }⟩
  | laterBranches {merge test body rest c s cond s₁ s₂} (evaluated : condition scope test s = .ok cond s₁)
      (done : block scope true body { s₁ with function := s₁.function.enterBranch cond } = .ok () s₂) :
      Sub scope ⟨.chain merge (.branch test body rest), c, s⟩
        ⟨.chain merge rest, ((c.condition test).block body).2,
          goOnIn (joined s₂ merge) (s₁.function.arena.length + 1)⟩
  | otherwise {merge body c s} : Sub scope ⟨.chain merge (.otherwise body), c, s⟩ ⟨.block body, c, s⟩
  | inside {body span c s} : Sub scope ⟨.block ⟨body, span⟩, c, s⟩ ⟨.stmts body, c.openBlock, s⟩
  | first {st rest c s} : Sub scope ⟨.stmts (st :: rest), c, s⟩ ⟨.stmt st, c, s⟩
  | later {st rest c s s₁} (done : stmt scope true st s = .ok () s₁) :
      Sub scope ⟨.stmts (st :: rest), c, s⟩ ⟨.stmts rest, (c.stmt st).2, s₁⟩

end Visit

def Part.Refuses : Part → LoweringError → Prop
  | .expr _ (.unary _ .neg _), e =>
    ∃ ty : Ty, e = .unsupported "-" ty ∧ ty.isInt = false ∧ ty.isFloat = false
  | .expr _ (.binary _ op _ _), e =>
    ∃ ty : Ty, e = .unsupported op.spelling ty ∧ ty.isInt = false ∧ ty.isFloat = false ∧
      (ty.isPtr = true → op.isComparison = false)
  | _, _ => False

def Part.Lacks (p : Part) (e : LoweringError) : Prop := (∃ what, e = .voidValue what) ∨ p.Refuses e

/-- Lowering a visited part fails for want of a value or an operation, or because a part of it fails. -/
def Visit.Origin (scope : Scope) (v : Visit) (e : LoweringError) : Prop :=
  v.part.Lacks e ∨ ∃ w, Sub scope v w ∧ w.Fails scope e

theorem Visit.Origin.void {scope : Scope} {v : Visit} {what : String} : v.Origin scope (.voidValue what) :=
  .inl (.inl ⟨what, rfl⟩)

theorem Lower.wp_self {α : Type} {x : Lower α} {s : FunctionState} :
    Wp x s (fun a s' => x s = .ok a s') fun e s' => x s = .error e s' := by
  unfold Wp
  cases x s <;> rfl

end StructLang
