import StructLang.Proofs.Document.Declarations

namespace StructLang

inductive Meaning
  | int (n : Int64)
  | truth (holds : Bool)
  | nothing
  deriving DecidableEq, Repr

namespace Meaning

def int? : Meaning → Option Int64
  | .int n => some n
  | _ => none

def holds? : Meaning → Option Bool
  | .int n => some (n != 0)
  | .truth holds => some holds
  | .nothing => none

end Meaning

/-- The locals of a call, the innermost first, with their values if they have been assigned. -/
abbrev Locals := List (String × Option Int64)

namespace Locals

def read (name : String) : Locals → Option Int64
  | [] => none
  | (x, value) :: rest => if x = name then value else read name rest

def assign (name : String) (n : Int64) : Locals → Option Locals
  | [] => none
  | (x, value) :: rest =>
    if x = name then some ((x, some n) :: rest) else (assign name n rest).map ((x, value) :: ·)

/-- What is left of the locals `inner` at the end of a block that was entered with the locals `outer`. -/
def leave (outer inner : Locals) : Locals := inner.drop (inner.length - outer.length)

end Locals

/-- Numbers wrap, and division is toward zero. It traps at zero, and where the quotient is no `i64`. -/
def BinaryOp.apply (a b : Int64) : BinaryOp → Option Meaning
  | .add => some (.int (a + b))
  | .sub => some (.int (a - b))
  | .mul => some (.int (a * b))
  | .div => if b = 0 ∨ (a = Int64.minValue ∧ b = -1) then none else some (.int (a / b))
  | .eq => some (.truth (a = b))
  | .lt => some (.truth (a < b))
  | .gt => some (.truth (b < a))
  | .le => some (.truth (a ≤ b))
  | .ge => some (.truth (b ≤ a))

abbrev Answers := String → List Int64 → Option Meaning

mutual

def Expr.eval (call : Answers) (l : Locals) : Expr → Option (Meaning × Locals)
  | .int _ n => some (.int n, l)
  | .variable _ name => do return (.int (← l.read name), l)
  | .assign _ (.variable _ name) value => do
    let (v, l) ← value.eval call l
    let n ← v.int?
    return (.int n, ← l.assign name n)
  | .binary _ op lhs rhs => do
    let (v, l) ← lhs.eval call l
    let a ← v.int?
    let (w, l) ← rhs.eval call l
    let b ← w.int?
    return (← op.apply a b, l)
  | .unary _ .neg operand => do
    let (v, l) ← operand.eval call l
    return (.int (-(← v.int?)), l)
  | .call _ name _ args => do
    let (ns, l) ← Expr.evalArgs call l args
    return (← call name ns, l)
  | _ => none
termination_by structural e => e

def Expr.evalArgs (call : Answers) (l : Locals) : List Expr → Option (List Int64 × Locals)
  | [] => some ([], l)
  | e :: rest => do
    let (v, l) ← e.eval call l
    let n ← v.int?
    let (ns, l) ← Expr.evalArgs call l rest
    return (n :: ns, l)
termination_by structural es => es

end

def Expr.number (call : Answers) (e : Expr) (l : Locals) : Option (Int64 × Locals) := do
  let (v, l) ← e.eval call l
  return (← v.int?, l)

def Expr.test (call : Answers) (e : Expr) (l : Locals) : Option (Bool × Locals) := do
  let (v, l) ← e.eval call l
  return (← v.holds?, l)

inductive Flow
  | next
  | returned (value : Option Int64)
  deriving DecidableEq, Repr

/-- A loop that comes to its end with fewer than `bound` rounds. -/
def iterate (test : Locals → Option (Bool × Locals)) (body : Locals → Option (Flow × Locals))
    (step : Locals → Option Locals) : Nat → Locals → Option (Flow × Locals)
  | 0, _ => none
  | bound + 1, l => do
    let (holds, l) ← test l
    if holds then
      let (flow, l) ← body l
      match flow with
      | .next => iterate test body step bound (← step l)
      | .returned value => return (.returned value, l)
    else return (.next, l)

mutual

def Stmt.exec (call : Answers) (bound : Nat) (l : Locals) : Stmt → Option (Flow × Locals)
  | .letIn _ name _ none => some (.next, (name, none) :: l)
  | .letIn _ name _ (some e) => do
    let (v, l) ← e.eval call l
    return (.next, (name, some (← v.int?)) :: l)
  | .ret _ none => some (.returned none, l)
  | .ret _ (some e) => do
    let (v, l) ← e.eval call l
    return (.returned (some (← v.int?)), l)
  | .cond _ chain => chain.exec call bound l
  | .while _ test body => iterate (test.test call) (fun l => body.exec call bound l) some bound l
  | .for _ init test step body => do
    let (flow, inner) ← init.exec call bound l
    match flow with
    | .returned value => return (.returned value, l.leave inner)
    | .next => do
      let (flow, inner) ← iterate (test.test call) (fun l => body.exec call bound l)
        (fun l => (step.eval call l).map (·.2)) bound inner
      return (flow, l.leave inner)
  | .expr e => do
    let (_, l) ← e.eval call l
    return (.next, l)
termination_by structural st => st

def IfChain.exec (call : Answers) (bound : Nat) (l : Locals) : IfChain → Option (Flow × Locals)
  | .branch test body rest => do
    let (holds, l) ← test.test call l
    if holds then body.exec call bound l else rest.exec call bound l
  | .otherwise body => body.exec call bound l
  | .done => some (.next, l)
termination_by structural chain => chain

def Block.exec (call : Answers) (bound : Nat) (l : Locals) : Block → Option (Flow × Locals)
  | ⟨body, _⟩ => do
    let (flow, inner) ← Stmt.execAll call bound l body
    return (flow, l.leave inner)
termination_by structural b => b

def Stmt.execAll (call : Answers) (bound : Nat) (l : Locals) : List Stmt → Option (Flow × Locals)
  | [] => some (.next, l)
  | st :: rest => do
    let (flow, l) ← st.exec call bound l
    match flow with
    | .next => Stmt.execAll call bound l rest
    | .returned value => return (.returned value, l)
termination_by structural body => body

end

def Flow.answer (returns : Ty) : Flow → Option Meaning
  | .returned (some n) => if returns = .int 64 then some (.int n) else none
  | .returned none | .next => if returns = .void then some .nothing else none

/-- The call of a function of the document, in which at most `depth` calls are active at a time and no
loop takes `bound` rounds or more. -/
def Document.call (d : Document) (bound : Nat) : Nat → Answers
  | 0, _, _ => none
  | depth + 1, name, args => do
    let f ← d.functions.find? (·.signature.name == name)
    if f.signature.params.length = args.length then
      let params := (f.signature.params.map (·.name)).zip (args.map some)
      let (flow, _) ← f.body.exec (d.call bound depth) bound params.reverse
      flow.answer f.signature.returns
    else none

section Inversion

variable {call : Answers} {l l' : Locals} {v : Meaning}

theorem Expr.number_of_eval {e : Expr} {n : Int64} (evaluated : e.eval call l = some (v, l')) (int : v.int? = some n) :
    e.number call l = some (n, l') := by
  simp [number, evaluated, int]

theorem Expr.eval_of_number {e : Expr} {n : Int64} (found : e.number call l = some (n, l')) :
    e.eval call l = some (.int n, l') := by
  obtain ⟨⟨v, l₁⟩, evaluated, found⟩ := Option.bind_eq_some_iff.mp found
  obtain ⟨m, int, found⟩ := Option.bind_eq_some_iff.mp found
  cases found
  cases v with
  | int n =>
    cases int
    exact evaluated
  | _ => cases int

theorem Expr.eval_of_test {e : Expr} {holds : Bool} (found : e.test call l = some (holds, l')) :
    ∃ v, e.eval call l = some (v, l') ∧ v.holds? = some holds := by
  obtain ⟨⟨v, l₁⟩, evaluated, found⟩ := Option.bind_eq_some_iff.mp found
  obtain ⟨holds, holding, found⟩ := Option.bind_eq_some_iff.mp found
  cases found
  exact ⟨v, evaluated, holding⟩

theorem Expr.eval_of_step {e : Expr} {flow : Flow}
    (ran : ((e.eval call l).map (·.2)).map (Flow.next, ·) = some (flow, l')) :
    ∃ v, e.eval call l = some (v, l') ∧ flow = .next := by
  obtain ⟨l₁, found, same⟩ := Option.map_eq_some_iff.mp ran
  obtain ⟨⟨v, l₂⟩, evaluated, rfl⟩ := Option.map_eq_some_iff.mp found
  cases same
  exact ⟨v, evaluated, rfl⟩

theorem Expr.eval_variable {span : Span} {name : String}
    (evaluated : (Expr.variable span name).eval call l = some (v, l')) :
    ∃ n, l.read name = some n ∧ v = .int n ∧ l' = l := by
  obtain ⟨n, found, evaluated⟩ := Option.bind_eq_some_iff.mp evaluated
  cases evaluated
  exact ⟨n, found, rfl, rfl⟩

theorem Expr.eval_assign {span span' : Span} {name : String} {value : Expr}
    (evaluated : (Expr.assign span (.variable span' name) value).eval call l = some (v, l')) :
    ∃ n l₁, value.number call l = some (n, l₁) ∧ l₁.assign name n = some l' ∧ v = .int n := by
  obtain ⟨⟨w, l₁⟩, first, evaluated⟩ := Option.bind_eq_some_iff.mp evaluated
  obtain ⟨n, int, evaluated⟩ := Option.bind_eq_some_iff.mp evaluated
  obtain ⟨l₂, assigned, evaluated⟩ := Option.bind_eq_some_iff.mp evaluated
  cases evaluated
  exact ⟨n, l₁, number_of_eval first int, assigned, rfl⟩

theorem Expr.eval_binary {span : Span} {op : BinaryOp} {lhs rhs : Expr}
    (evaluated : (Expr.binary span op lhs rhs).eval call l = some (v, l')) :
    ∃ x l₁ y, lhs.number call l = some (x, l₁) ∧ rhs.number call l₁ = some (y, l') ∧ op.apply x y = some v := by
  obtain ⟨⟨w, l₁⟩, left, evaluated⟩ := Option.bind_eq_some_iff.mp evaluated
  obtain ⟨x, int, evaluated⟩ := Option.bind_eq_some_iff.mp evaluated
  obtain ⟨⟨w', l₂⟩, right, evaluated⟩ := Option.bind_eq_some_iff.mp evaluated
  obtain ⟨y, int', evaluated⟩ := Option.bind_eq_some_iff.mp evaluated
  obtain ⟨v, applied, evaluated⟩ := Option.bind_eq_some_iff.mp evaluated
  cases evaluated
  exact ⟨x, l₁, y, number_of_eval left int, number_of_eval right int', applied⟩

theorem Expr.eval_neg {span : Span} {operand : Expr}
    (evaluated : (Expr.unary span .neg operand).eval call l = some (v, l')) :
    ∃ n, operand.number call l = some (n, l') ∧ v = .int (-n) := by
  obtain ⟨⟨w, l₁⟩, inner, evaluated⟩ := Option.bind_eq_some_iff.mp evaluated
  obtain ⟨n, int, evaluated⟩ := Option.bind_eq_some_iff.mp evaluated
  cases evaluated
  exact ⟨n, number_of_eval inner int, rfl⟩

theorem Expr.eval_call {span span' : Span} {name : String} {args : List Expr}
    (evaluated : (Expr.call span name span' args).eval call l = some (v, l')) :
    ∃ ns, Expr.evalArgs call l args = some (ns, l') ∧ call name ns = some v := by
  obtain ⟨⟨ns, l₁⟩, passed, evaluated⟩ := Option.bind_eq_some_iff.mp evaluated
  obtain ⟨v, answered, evaluated⟩ := Option.bind_eq_some_iff.mp evaluated
  cases evaluated
  exact ⟨ns, passed, answered⟩

theorem Expr.evalArgs_cons {e : Expr} {rest : List Expr} {ns : List Int64}
    (evaluated : Expr.evalArgs call l (e :: rest) = some (ns, l')) :
    ∃ n l₁ others, e.number call l = some (n, l₁) ∧ Expr.evalArgs call l₁ rest = some (others, l') ∧
      ns = n :: others := by
  obtain ⟨⟨w, l₁⟩, first, evaluated⟩ := Option.bind_eq_some_iff.mp evaluated
  obtain ⟨n, int, evaluated⟩ := Option.bind_eq_some_iff.mp evaluated
  obtain ⟨⟨others, l₂⟩, rest, evaluated⟩ := Option.bind_eq_some_iff.mp evaluated
  cases evaluated
  exact ⟨n, l₁, others, number_of_eval first int, rest, rfl⟩

theorem Stmt.exec_letIn {bound : Nat} {span : Span} {name : String} {ty : Ty} {e : Expr} {flow : Flow}
    (ran : (Stmt.letIn span name ty (some e)).exec call bound l = some (flow, l')) :
    ∃ n l₁, e.number call l = some (n, l₁) ∧ flow = .next ∧ l' = (name, some n) :: l₁ := by
  obtain ⟨⟨v, l₁⟩, evaluated, ran⟩ := Option.bind_eq_some_iff.mp ran
  obtain ⟨n, int, ran⟩ := Option.bind_eq_some_iff.mp ran
  cases ran
  exact ⟨n, l₁, Expr.number_of_eval evaluated int, rfl, rfl⟩

theorem Stmt.exec_ret {bound : Nat} {span : Span} {e : Expr} {flow : Flow}
    (ran : (Stmt.ret span (some e)).exec call bound l = some (flow, l')) :
    ∃ n, e.number call l = some (n, l') ∧ flow = .returned (some n) := by
  obtain ⟨⟨v, l₁⟩, evaluated, ran⟩ := Option.bind_eq_some_iff.mp ran
  obtain ⟨n, int, ran⟩ := Option.bind_eq_some_iff.mp ran
  cases ran
  exact ⟨n, Expr.number_of_eval evaluated int, rfl⟩

theorem Stmt.exec_expr {bound : Nat} {e : Expr} {flow : Flow} (ran : (Stmt.expr e).exec call bound l = some (flow, l')) :
    ∃ v, e.eval call l = some (v, l') ∧ flow = .next := by
  obtain ⟨⟨v, l₁⟩, evaluated, ran⟩ := Option.bind_eq_some_iff.mp ran
  cases ran
  exact ⟨v, evaluated, rfl⟩

end Inversion

mutual

def Expr.isNumber : Expr → Bool
  | .int .. | .variable .. => true
  | .assign _ (.variable ..) value => value.isNumber
  | .binary _ op lhs rhs => !op.isComparison && lhs.isNumber && rhs.isNumber
  | .unary _ .neg operand => operand.isNumber
  | .call _ _ _ args => Expr.areNumbers args
  | _ => false
termination_by structural e => e

def Expr.areNumbers : List Expr → Bool
  | [] => true
  | e :: rest => e.isNumber && Expr.areNumbers rest
termination_by structural es => es

end

def Expr.isTest : Expr → Bool
  | .binary _ _ lhs rhs => lhs.isNumber && rhs.isNumber
  | e => e.isNumber

mutual

def Stmt.isInteger : Stmt → Bool
  | .letIn _ _ ty none => ty = .int 64
  | .letIn _ _ ty (some e) => decide (ty = .int 64) && e.isNumber
  | .ret _ none => true
  | .ret _ (some e) => e.isNumber
  | .cond _ chain => chain.isInteger
  | .while _ test body => test.isTest && body.isInteger
  | .for _ init test step body => init.isInteger && test.isTest && step.isTest && body.isInteger
  | .expr e => e.isTest
termination_by structural st => st

def IfChain.isInteger : IfChain → Bool
  | .branch test body rest => test.isTest && body.isInteger && rest.isInteger
  | .otherwise body => body.isInteger
  | .done => true
termination_by structural chain => chain

def Block.isInteger : Block → Bool
  | ⟨body, _⟩ => Stmt.areInteger body
termination_by structural b => b

def Stmt.areInteger : List Stmt → Bool
  | [] => true
  | st :: rest => st.isInteger && Stmt.areInteger rest
termination_by structural body => body

end

def Signature.isInteger (f : Signature) : Bool :=
  f.params.all (fun p => decide (p.ty = .int 64)) && (decide (f.returns = .int 64) || decide (f.returns = .void))

def Document.isInteger (d : Document) : Bool :=
  (Document.signatures d).all (·.isInteger) && d.functions.all (·.body.isInteger)

end StructLang
