import Mathlib
import StructLang.Proofs.Document.Lowered
import StructLang.Proofs.Lowering.FunctionWide

namespace StructLang

open Lower

namespace Visit

/-- What a visit is made of without block scoping, apart from the step of a loop. -/
inductive WideSub (scope : Scope) : Visit → Visit → Prop
  | shared {v w} (shared : v.part.shared = true) (sub : v.Sub scope w) : WideSub scope v w
  | forInit {span init test step body c s} :
      WideSub scope ⟨.stmt (.for span init test step body), c, s⟩ ⟨.stmt init, c.openBlock, s⟩
  | forTest {span init test step body c s s₁} (started : stmt scope false init s = .ok () s₁) :
      WideSub scope ⟨.stmt (.for span init test step body), c, s⟩
        ⟨.condition test, (c.openBlock.stmt init).2, { s₁ with function := s₁.function.enterLoop }⟩
  | forBody {span init test step body c s s₁ cond s₂} (started : stmt scope false init s = .ok () s₁)
      (evaluated : condition scope test { s₁ with function := s₁.function.enterLoop } = .ok cond s₂) :
      WideSub scope ⟨.stmt (.for span init test step body), c, s⟩
        ⟨.block body, (((c.openBlock.stmt init).2.condition test).expr step).2,
          inBody s₂ s₁.function.arena.length cond⟩
  | branchTest {merge test body rest c s} :
      WideSub scope ⟨.chain merge (.branch test body rest), c, s⟩ ⟨.condition test, c, s⟩
  | branchBody {merge test body rest c s cond s₁} (evaluated : condition scope test s = .ok cond s₁) :
      WideSub scope ⟨.chain merge (.branch test body rest), c, s⟩
        ⟨.block body, c.condition test, { s₁ with function := s₁.function.enterBranch cond }⟩
  | laterBranches {merge test body rest c s cond s₁ s₂} (evaluated : condition scope test s = .ok cond s₁)
      (done : block scope false body { s₁ with function := s₁.function.enterBranch cond } = .ok () s₂) :
      WideSub scope ⟨.chain merge (.branch test body rest), c, s⟩
        ⟨.chain merge rest, ((c.condition test).block body).2,
          goOnIn (joined s₂ merge) (s₁.function.arena.length + 1)⟩
  | first {st rest c s} : WideSub scope ⟨.stmts (st :: rest), c, s⟩ ⟨.stmt st, c, s⟩
  | later {st rest c s s₁} (done : stmt scope false st s = .ok () s₁) :
      WideSub scope ⟨.stmts (st :: rest), c, s⟩ ⟨.stmts rest, (c.stmt st).2, s₁⟩

inductive Step (scope : Scope) (body : Block) : Visit → Visit → Prop
  | step {span init test step c s s₁ cond s₂ s₃} (started : stmt scope false init s = .ok () s₁)
      (evaluated : condition scope test { s₁ with function := s₁.function.enterLoop } = .ok cond s₂)
      (done : block scope false body (inBody s₂ s₁.function.arena.length cond) = .ok () s₃)
      (reached : s₃.function.isTerminated = false) :
      Step scope body ⟨.stmt (.for span init test step body), c, s⟩
        ⟨.expr .value step, (c.openBlock.stmt init).2.condition test, s₃⟩

/-- The part is well typed, and lowering knows the names that the checker knows and those that it is ahead by. -/
structure Follows (o : Strictness) (ahead : List (String × Ty)) (v : Visit) : Prop where
  options : v.checker.options = o
  names : v.state.types = known ahead v.checker.scope.lookup
  accepted : v.part.Accepted o v.checker.scope.context

variable {scope : Scope} {o : Strictness} {ahead : List (String × Ty)} {v w : Visit}

/-- Lowering knows the same names in the parts of a shared part. -/
theorem Sub.sameTypes (shared : v.part.shared = true) (sub : v.Sub scope w) : w.state.types = v.state.types := by
  cases sub with
  | assignTarget evaluated => exact (types_valueOf scope _ _).ok evaluated
  | right evaluated => exact (types_valueOf scope _ _).ok evaluated
  | offset evaluated => exact (types_valueOf scope _ _).ok evaluated
  | laterArgs evaluated => exact (types_valueOf scope _ _).ok evaluated
  | whileBody evaluated =>
    have tested := (types_condition scope _ _).ok evaluated
    exact tested
  | _ => first | rfl | cases shared

theorem Follows.shared (follows : v.Follows o ahead) (shared : v.part.shared = true) (sub : v.Sub scope w) :
    w.Follows o ahead := by
  obtain ⟨options, context⟩ := sub.sameContext shared
  refine ⟨options.trans follows.options, ?_, context ▸ sub.accepted shared follows.accepted⟩
  rw [sub.sameTypes shared, follows.names]
  exact congrArg (known ahead ·.names) context.symm

section Wide

variable (wide : o.blockScoping = false)
include wide

/-- After a statement both know what it declares. -/
theorem Follows.executed {st : Stmt} {Γ : Context} {c : Checker} {p q : Part} {s s' : FunctionState}
    (follows : Follows o [] ⟨p, c, s⟩) (typed : StmtTyped o c.scope.context st Γ)
    (executed : stmt scope false st s = .ok () s') (accepted : q.Accepted o Γ) :
    Follows o [] ⟨q, (c.stmt st).2, s'⟩ := by
  obtain ⟨rfl, names, -⟩ := follows
  refine ⟨(c.advance_stmt st).options, ?_, ((c.stmt_quiet_iff st Γ).mpr typed).2 ▸ accepted⟩
  rw [known_nil, Checker.lookup_stmt wide st, (types_stmt st).ok executed, names]
  rfl

/-- In a loop that starts with a statement of its own. -/
theorem Follows.started {init : Stmt} {test step : Expr} {body : Block} {span : Span} {c : Checker}
    {s s' : FunctionState} (follows : Follows o [] ⟨.stmt (.for span init test step body), c, s⟩)
    (started : stmt scope false init s = .ok () s') :
    Follows o [] ⟨.condition test, (c.openBlock.stmt init).2, s'⟩ ∧
      (Part.expr .value step).Accepted o (c.openBlock.stmt init).2.scope.context ∧
      (Part.block body).Accepted o (c.openBlock.stmt init).2.scope.context := by
  obtain ⟨Γ, typed, tested, others⟩ := follows.accepted.of_for
  have flat : c.openBlock = c := Checker.openBlock_wide (follows.options ▸ wide)
  have context := ((c.stmt_quiet_iff init Γ).mpr (follows.options ▸ typed)).2
  rw [flat]
  exact ⟨follows.executed wide typed started tested, context ▸ others⟩

theorem WideSub.follows (sub : v.WideSub scope w) (follows : v.Follows o []) : w.Follows o [] := by
  cases sub with
  | shared shared sub => exact follows.shared shared sub
  | @forInit _ _ _ _ _ c =>
    obtain ⟨options, names, accepted⟩ := follows
    obtain ⟨_, started, -⟩ := accepted.of_for
    rw [Checker.openBlock_wide (options ▸ wide)]
    exact ⟨options, names, _, started⟩
  | forTest started =>
    obtain ⟨⟨options, names, accepted⟩, -⟩ := follows.started wide started
    exact ⟨options, names, accepted⟩
  | forBody started evaluated =>
    obtain ⟨⟨options, names, -⟩, -, filled⟩ := follows.started wide started
    have tested := (types_condition scope _ _).ok evaluated
    exact ⟨options, tested.trans names, filled⟩
  | branchTest => exact ⟨follows.options, follows.names, follows.accepted.of_branch.1⟩
  | branchBody evaluated =>
    obtain ⟨-, _, typed, -⟩ := follows.accepted.of_branch
    have tested := (types_condition scope _ _).ok evaluated
    exact ⟨follows.options, tested.trans follows.names, _, typed⟩
  | @laterBranches merge test body rest c s cond s₁ s₂ evaluated done =>
    obtain ⟨rfl, names, accepted⟩ := follows
    obtain ⟨-, Γ, typed, others⟩ := accepted.of_branch
    have tested := (types_condition scope _ _).ok evaluated
    have filled := (types_block body).ok done
    have context := (((c.condition test).block_quiet_iff body Γ).mpr typed).2
    refine ⟨((c.condition test).advance_block body).options, ?_, context ▸ others⟩
    rw [types_joined, filled, known_nil, Checker.lookup_block (c := c.condition test) wide body]
    exact congrArg _ (tested.trans names)
  | first =>
    obtain ⟨_, first, -⟩ := follows.accepted.of_cons
    exact ⟨follows.options, follows.names, _, first⟩
  | later done =>
    obtain ⟨_, first, rest⟩ := follows.accepted.of_cons
    exact follows.executed wide first done rest

theorem Step.follows {body : Block} (step : v.Step scope body w) (follows : v.Follows o []) :
    w.Follows o body.declared := by
  cases step with
  | step started evaluated done =>
    obtain ⟨⟨options, names, -⟩, stepped, -⟩ := follows.started wide started
    have tested := (types_condition scope _ _).ok evaluated
    have filled := (types_block body).ok done
    refine ⟨options, filled.trans ?_, stepped⟩
    exact congrArg _ (tested.trans names)

end Wide

end Visit

/-- What the checker and lowering get to without block scoping, together with the declarations that lowering is ahead
by. -/
inductive Document.VisitedWide (d : Document) (o : Strictness) (name : String) : List (String × Ty) → Visit → Prop
  | body {before f after m s} (here : d.functions = before ++ f :: after)
      (lowered : ModuleLower.functions (d.check o).scope false before (d.declared name) = .ok () m)
      (entered : params 0 f.signature.params (entered m f) = .ok () s) :
      VisitedWide d o name [] ⟨.block f.body, (d.checkedUpTo o before).entered f.signature, s⟩
  | sub {v w} (visited : VisitedWide d o name [] v) (sub : v.WideSub (d.check o).scope w) : VisitedWide d o name [] w
  | step {body v w} (visited : VisitedWide d o name [] v) (step : v.Step (d.check o).scope body w) :
      VisitedWide d o name body.declared w
  | inStep {ahead v w} (visited : VisitedWide d o name ahead v) (shared : v.part.shared = true)
      (sub : v.Sub (d.check o).scope w) : VisitedWide d o name ahead w

theorem Document.VisitedWide.follows {d : Document} {o : Strictness} (wide : o.blockScoping = false)
    (accepted : (d.check o).diagnostics.hasErrors = false) {name : String} {ahead : List (String × Ty)} {v : Visit}
    (visited : d.VisitedWide o name ahead v) : v.Follows o ahead := by
  induction visited with
  | @body before f after m s here lowered entered =>
    obtain ⟨Γ, typed⟩ := functionTyped accepted here
    have options := (Checker.extends_functions before
      { Checker.start o .empty with scope := Scope.register .empty d }).options
    refine ⟨options, ?_, Γ, (Checker.context_entered ..).symm ▸ typed⟩
    rw [known_nil, Checker.lookup_entered, (types_params _ 0).ok entered]
    rfl
  | sub _ sub ih => exact sub.follows wide ih
  | step _ step ih => exact step.follows wide ih
  | inStep _ shared sub ih => exact ih.shared shared sub

/-- Without block scoping, wherever lowering gets to a variable of an accepted document, the checker has found it as well.
The slot that lowering takes has the type that the checker has found, or, in the step of a loop, the type of the last
declaration of the name in the body of the loop, if the body has one. -/
theorem function_wide_variable_types {d : Document} {o : Strictness} (wide : o.blockScoping = false)
    (accepted : (d.check o).diagnostics.hasErrors = false) (name : String) (ahead : List (String × Ty)) (v : Visit)
    (visited : d.VisitedWide o name ahead v) (want : Want) (span : Span) (x : String)
    (part : v.part = .expr want (.variable span x)) :
    ∃ ty slot, v.checker.scope.lookup x = some ty ∧ v.state.locals.get? x = some slot ∧
      slot.ty = (declared? ahead x).getD ty := by
  obtain ⟨-, names, accepted⟩ := visited.follows wide accepted
  rw [part] at accepted
  obtain ⟨ty, typed⟩ := accepted
  have found : v.checker.scope.lookup x = some ty := HasType.variable_iff.mp typed
  have types : (v.state.locals.get? x).map (·.ty) = (declared? ahead x).or (v.checker.scope.lookup x) :=
    congrFun names x
  rw [found] at types
  cases taken : v.state.locals.get? x with
  | none =>
    rw [taken] at types
    cases declared : declared? ahead x <;> rw [declared] at types <;> cases types
  | some slot =>
    refine ⟨ty, slot, found, rfl, ?_⟩
    rw [taken] at types
    cases declared : declared? ahead x <;> rw [declared] at types <;> cases types <;> rfl

/-- A declaration in a branch of a conditional is known after it. -/
theorem function_wide_variable_types_branch :
    ∃ (d : Document) (v : Visit) (slot : Typed), (d.check .lenient).diagnostics.hasErrors = false ∧
      d.VisitedWide .lenient "main" [] v ∧ v.part = .expr .value (.variable default "x") ∧
      v.checker.scope.lookup "x" = some (.float 64) ∧ v.state.locals.get? "x" = some slot ∧ slot.ty = .float 64 := by
  let branch : Stmt :=
    .cond default (.branch (.variable default "x") ⟨[.letIn default "x" (.float 64) none], default⟩ .done)
  let f : FunctionDecl := ⟨⟨"f", default, .void, [⟨"x", .int 64, default⟩], default⟩,
    ⟨[branch, .expr (.variable default "x")], default⟩, default⟩
  let d : Document := [.function f]
  have here : d.functions = [] ++ f :: [] := rfl
  have accepted : (d.check .lenient).diagnostics.hasErrors = false := by decide
  have runs (scope : Scope) (m : Ir.ModuleBuilder) :
      (match (do params 0 f.signature.params; stmt scope false branch : Lower Unit) (entered m f) with
        | .ok _ _ => true
        | .error _ _ => false) = true := by
    unfold f branch
    cbv
  have runs := runs (d.check .lenient).scope (d.declared "main")
  cases stored : params 0 f.signature.params (entered (d.declared "main") f) with
  | error e s => simp [stored, bind, EStateM.bind] at runs
  | ok _ s =>
    cases done : stmt (d.check .lenient).scope false branch s with
    | error e s => simp [stored, done, bind, EStateM.bind] at runs
    | ok _ s' =>
      have body := Document.VisitedWide.body (o := .lenient) here rfl stored
      have after := (((body.sub (.shared rfl .inside)).sub (.later done)).sub .first).sub (.shared rfl .evaluated)
      obtain ⟨ty, slot, found, taken, same⟩ :=
        function_wide_variable_types rfl accepted "main" [] _ after _ _ _ rfl
      have wide : ty = .float 64 := Option.some.inj (found.symm.trans (by dsimp only; decide))
      exact ⟨d, _, slot, accepted, after, rfl, found.trans (congrArg some wide), taken, same.trans wide⟩

/-- A loop whose step assigns to a variable that its body declares again. The checker takes it for the parameter, and
lowering for the new variable. -/
theorem step_variable_types_differ :
    ∃ d ahead v span slot, parse "function f(x: i64) { for (0; x < 3; x = 1) { let x: f64; } }" = .ok d ∧
      d.DistinctFunctions ∧ (d.check .lenient).diagnostics.hasErrors = false ∧
      d.VisitedWide .lenient "main" ahead v ∧ v.part = .expr .address (.variable span "x") ∧
      v.checker.scope.lookup "x" = some (.int 64) ∧ v.state.locals.get? "x" = some slot ∧ slot.ty = .float 64 := by
  let test : Expr := .binary ⟨29, 34⟩ .lt (.variable ⟨29, 30⟩ "x") (.int ⟨33, 34⟩ 3)
  let step : Expr := .assign ⟨36, 41⟩ (.variable ⟨36, 37⟩ "x") (.int ⟨40, 41⟩ 1)
  let body : Block := ⟨[.letIn ⟨45, 55⟩ "x" (.float 64) none], ⟨43, 58⟩⟩
  let f : FunctionDecl := ⟨⟨"f", ⟨9, 10⟩, .void, [⟨"x", .int 64, ⟨11, 17⟩⟩], ⟨9, 18⟩⟩,
    ⟨[.for ⟨21, 58⟩ (.expr (.int ⟨26, 27⟩ 0)) test step body], ⟨19, 60⟩⟩, ⟨0, 60⟩⟩
  let d : Document := [.function f]
  have here : d.functions = [] ++ f :: [] := rfl
  have accepted : (d.check .lenient).diagnostics.hasErrors = false := by decide
  have runs (scope : Scope) (m : Ir.ModuleBuilder) :
      (match params 0 f.signature.params (entered m f) with
        | .ok _ s =>
          match condition scope test { s with function := s.function.enterLoop } with
          | .ok cond s₁ =>
            match block scope false body (inBody s₁ s.function.arena.length cond) with
            | .ok _ s₂ => !s₂.function.isTerminated
            | .error _ _ => false
          | .error _ _ => false
        | .error _ _ => false) = true := by
    unfold f test body
    cbv
  have runs := runs (d.check .lenient).scope (d.declared "main")
  cases stored : params 0 f.signature.params (entered (d.declared "main") f) with
  | error e s => simp [stored] at runs
  | ok _ s =>
    cases tested : condition (d.check .lenient).scope test { s with function := s.function.enterLoop } with
    | error e s => simp [stored, tested] at runs
    | ok cond s₁ =>
      cases filled : block (d.check .lenient).scope false body (inBody s₁ s.function.arena.length cond) with
      | error e s => simp [stored, tested, filled] at runs
      | ok _ s₂ =>
        have reached : s₂.function.isTerminated = false := by simpa [stored, tested, filled] using runs
        have whole := Document.VisitedWide.body (o := .lenient) here rfl stored
        have loop := (whole.sub (.shared rfl .inside)).sub .first
        have target := (loop.step (.step rfl tested filled reached)).inStep rfl (.assignTarget rfl)
        have types := congrFun (target.follows rfl accepted).names "x"
        obtain ⟨slot, taken, same⟩ := Option.map_eq_some_iff.mp types
        exact ⟨d, _, _, _, slot, by cbv, by decide, accepted, target, rfl, by dsimp only; decide, taken, same⟩

end StructLang
