import StructLang.Proofs.Typing.Decision

namespace StructLang

section Expressions

variable {s t : Scope}

theorem Scope.structOf_congr (same : s.context = t.context) (name : String) (span : Span) :
    s.structOf name span = t.structOf name span := by
  have structs : s.structs.get? name = t.structs.get? name := congrFun (congrArg Context.structs same) name
  rw [structOf, structs, structOf]

mutual

theorem Expr.check_congr (o : Strictness) (same : s.context = t.context) : (e : Expr) → e.check o s = e.check o t
  | .assign _ target value => by
    rw [Expr.check, Expr.check_congr o same target, Expr.check_congr o same value, Expr.check]
  | .binary _ _ lhs rhs => by
    rw [Expr.check, Expr.check_congr o same lhs, Expr.check_congr o same rhs, Expr.check]
  | .unary _ _ operand => by
    rw [Expr.check, Expr.check_congr o same operand, Expr.check]
  | .call _ callee _ args => by
    have functions : s.functions.get? callee = t.functions.get? callee := congrFun (congrArg Context.functions same) callee
    simp only [Expr.check, functions, checkArgs_congr o same _ args]
  | .variable _ name => by
    have names : s.lookup name = t.lookup name := congrFun (congrArg Context.names same) name
    simp only [Expr.check, names]
  | .field _ base _ => by
    simp only [Expr.check, Expr.check_congr o same base, Scope.structOf_congr same]
  | .index _ base offset => by
    rw [Expr.check, Expr.check_congr o same base, Expr.check_congr o same offset, Expr.check]
  | .int .. => rfl
  | .float .. => rfl
  | .string .. => rfl
  | .struct _ name inits => by
    simp only [Expr.check, Scope.structOf_congr same, checkInits_congr o same _ inits]
termination_by structural e => e

theorem checkArgs_congr (o : Strictness) (same : s.context = t.context) (params : List Param) : (args : List Expr) →
    checkArgs o s params args = checkArgs o t params args
  | [] => rfl
  | arg :: args => by
    cases params with
    | nil => rfl
    | cons param params =>
      simp only [checkArgs, Expr.check_congr o same arg, checkArgs_congr o same params args]
termination_by structural args => args

theorem checkInits_congr (o : Strictness) (same : s.context = t.context) (d : StructDecl) : (inits : List FieldInit) →
    checkInits o s d inits = checkInits o t d inits
  | [] => rfl
  | init :: inits => by
    rw [checkInits, checkInit_congr o same d init, checkInits_congr o same d inits, checkInits]
termination_by structural inits => inits

theorem checkInit_congr (o : Strictness) (same : s.context = t.context) (d : StructDecl) : (init : FieldInit) →
    checkInit o s d init = checkInit o t d init
  | ⟨_, value, _⟩ => by
    simp only [checkInit, Expr.check_congr o same value]
termination_by structural init => init

end

end Expressions

namespace Scope.Same

variable {s t : Scope}

theorem bind (same : Same s t) (name : String) (ty : Ty) : Same (s.bind name ty) (t.bind name ty) := by
  refine ⟨by rw [context_bind, context_bind, same.context], ?_⟩
  have names : s.names.get? name = t.names.get? name := congrFun (congrArg Context.names same.context) name
  simp only [Scope.bind, same.frames, names]

theorem openBlock (same : Same s t) : Same s.openBlock t.openBlock :=
  ⟨same.context, by rw [Scope.openBlock, Scope.openBlock, same.frames]⟩

end Scope.Same

namespace Checker

/-- The checkers see the same, and have reported the same since their diagnostics were `first` and `second`. -/
structure InStep (first second : Diagnostics) (c c' : Checker) : Prop where
  options : c.options = c'.options
  scope : c.scope.Same c'.scope
  reports : ∃ new, c.diagnostics = first.append new ∧ c'.diagnostics = second.append new

namespace InStep

variable {first second : Diagnostics} {c c' : Checker}

theorem run {α : Type} (step : InStep first second c c') {check check' : Check α} (same : check = check') :
    (c.run check).1 = (c'.run check').1 ∧ InStep first second (c.run check).2 (c'.run check').2 := by
  subst same
  obtain ⟨new, reported, reported'⟩ := step.reports
  refine ⟨rfl, step.options, step.scope, new ++ check.reports, ?_, ?_⟩
  · simp [Checker.run, reported, Diagnostics.append]
  · simp [Checker.run, reported', Diagnostics.append]

theorem expr (step : InStep first second c c') (e : Expr) :
    (c.expr e).1 = (c'.expr e).1 ∧ InStep first second (c.expr e).2 (c'.expr e).2 :=
  step.run (by rw [step.options, e.check_congr _ step.scope.context])

theorem condition (step : InStep first second c c') (e : Expr) : InStep first second (c.condition e) (c'.condition e) :=
  (step.run (by rw [step.options, e.check_congr _ step.scope.context])).2

theorem valueOf (step : InStep first second c c') (ty : Ty) (e : Expr) :
    (c.valueOf ty e).1 = (c'.valueOf ty e).1 ∧ InStep first second (c.valueOf ty e).2 (c'.valueOf ty e).2 :=
  step.run (by rw [step.options, e.check_congr _ step.scope.context])

theorem bind (step : InStep first second c c') (name : String) (ty : Ty) :
    InStep first second (c.bind name ty) (c'.bind name ty) :=
  ⟨step.options, step.scope.bind name ty, step.reports⟩

theorem openBlock (step : InStep first second c c') : InStep first second c.openBlock c'.openBlock := by
  simp only [Checker.openBlock, step.options]
  split
  · exact ⟨rfl, step.scope.openBlock, step.reports⟩
  · exact step

theorem closeBlock (step : InStep first second c c') : InStep first second c.closeBlock c'.closeBlock := by
  simp only [Checker.closeBlock, step.options]
  split
  · exact ⟨rfl, step.scope.closeBlock, step.reports⟩
  · exact step

mutual

theorem stmt {c c' : Checker} (step : InStep first second c c') : (st : Stmt) →
    (c.stmt st).1 = (c'.stmt st).1 ∧ InStep first second (c.stmt st).2 (c'.stmt st).2
  | .letIn _ name ty none => by
    rw [Checker.stmt, Checker.stmt]
    exact ⟨rfl, step.bind name ty⟩
  | .letIn _ name ty (some init) => by
    rw [Checker.stmt, Checker.stmt]
    exact ⟨rfl, (step.valueOf ty init).2.bind name ty⟩
  | .ret _ none => by
    have returns : c.scope.returns = c'.scope.returns := congrArg Context.returns step.scope.context
    rw [Checker.stmt, Checker.stmt, returns]
    exact ⟨rfl, step⟩
  | .ret _ (some value) => by
    have returns : c.scope.returns = c'.scope.returns := congrArg Context.returns step.scope.context
    obtain ⟨result, after⟩ := step.valueOf c'.scope.returns value
    simp only [Checker.stmt, returns]
    exact ⟨congrArg (Option.map _) result, after⟩
  | .cond _ chain => by
    rw [Checker.stmt, Checker.stmt]
    exact ⟨rfl, ifChain step chain⟩
  | .while _ test body => by
    rw [Checker.stmt, Checker.stmt]
    exact ⟨rfl, (block (step.condition test) body).2⟩
  | .for _ init test next body => by
    rw [Checker.stmt, Checker.stmt]
    have tested := (stmt step.openBlock init).2.condition test
    exact ⟨rfl, (block (tested.expr next).2 body).2.closeBlock⟩
  | .expr e => by
    rw [Checker.stmt, Checker.stmt]
    exact step.expr e
termination_by structural st => st

theorem ifChain {c c' : Checker} (step : InStep first second c c') : (chain : IfChain) →
    InStep first second (c.ifChain chain) (c'.ifChain chain)
  | .branch test body rest => by
    rw [Checker.ifChain, Checker.ifChain]
    exact ifChain (block (step.condition test) body).2 rest
  | .otherwise body => by
    rw [Checker.ifChain, Checker.ifChain]
    exact (block step body).2
  | .done => by
    rw [Checker.ifChain, Checker.ifChain]
    exact step
termination_by structural chain => chain

theorem block {c c' : Checker} (step : InStep first second c c') : (b : Block) →
    (c.block b).1 = (c'.block b).1 ∧ InStep first second (c.block b).2 (c'.block b).2
  | ⟨body, _⟩ => by
    rw [Checker.block, Checker.block]
    obtain ⟨last, after⟩ := stmts step.openBlock (some .void) body
    exact ⟨last, after.closeBlock⟩
termination_by structural b => b

theorem stmts {c c' : Checker} (step : InStep first second c c') (last : Option Ty) : (body : List Stmt) →
    (c.stmts last body).1 = (c'.stmts last body).1 ∧ InStep first second (c.stmts last body).2 (c'.stmts last body).2
  | [] => by
    rw [Checker.stmts, Checker.stmts]
    exact ⟨rfl, step⟩
  | st :: rest => by
    obtain ⟨result, after⟩ := stmt step st
    simp only [Checker.stmts, result]
    exact stmts after _ rest
termination_by structural body => body

end

end InStep

/-- A function is checked alike wherever the options are the same and the same functions and structs are known. -/
theorem inStep_function {c c' : Checker} (options : c.options = c'.options)
    (functions : c.scope.functions.get? = c'.scope.functions.get?) (structs : c.scope.structs.get? = c'.scope.structs.get?)
    (f : FunctionDecl) : InStep c.diagnostics c'.diagnostics (c.function f).2 (c'.function f).2 := by
  have known : (c.scope.context.declare f.signature).functions = (c'.scope.context.declare f.signature).functions := by
    have same : c.scope.context.functions = c'.scope.context.functions := functions
    simp only [Context.declare, same]
  have entered : InStep c.diagnostics c'.diagnostics (c.entered f.signature) (c'.entered f.signature) := by
    refine ⟨options, ⟨?_, rfl⟩, [], ?_, ?_⟩
    · rw [context_entered, context_entered]
      exact Context.enter_congr known structs f.signature
    · simp [Checker.entered, Diagnostics.append]
    · simp [Checker.entered, Diagnostics.append]
  exact (entered.block f.body).2

/-- A function that is known already leaves the tables as they are. -/
theorem tables_function {c : Checker} {f : FunctionDecl}
    (known : c.scope.functions.get? f.signature.name = some f.signature) :
    (c.function f).2.options = c.options ∧ (c.function f).2.scope.functions.get? = c.scope.functions.get? ∧
      (c.function f).2.scope.structs.get? = c.scope.structs.get? := by
  have advance := c.advance_entered f
  refine ⟨advance.options, ?_, congrArg NameMap.get? advance.structs⟩
  rw [advance.functions]
  change (c.scope.functions.insert f.signature.name f.signature).get? = _
  funext name
  rw [NameMap.get?_insert]
  split
  · rename_i here
    rw [here, known]
  · rfl

theorem tables_functions (fs : List FunctionDecl) {c : Checker}
    (known : ∀ f ∈ fs, c.scope.functions.get? f.signature.name = some f.signature) :
    (fs.foldl (fun c f => (c.function f).2) c).options = c.options ∧
      (fs.foldl (fun c f => (c.function f).2) c).scope.functions.get? = c.scope.functions.get? ∧
      (fs.foldl (fun c f => (c.function f).2) c).scope.structs.get? = c.scope.structs.get? := by
  induction fs generalizing c with
  | nil => exact ⟨rfl, rfl, rfl⟩
  | cons f rest ih =>
    obtain ⟨options, functions, structs⟩ := tables_function (known f List.mem_cons_self)
    have others := ih (c := (c.function f).2) fun g member => by
      rw [functions]
      exact known g (List.mem_cons_of_mem _ member)
    rw [List.foldl_cons]
    exact ⟨others.1.trans options, others.2.1.trans functions, others.2.2.trans structs⟩

end Checker

end StructLang
