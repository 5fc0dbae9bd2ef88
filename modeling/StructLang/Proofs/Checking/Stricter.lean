import StructLang.Proofs.Checking.Walks
import StructLang.Proofs.Typing.Monotone

namespace StructLang

inductive Grown (extra : Diagnostic → Prop) : List Diagnostic → List Diagnostic → Prop
  | nil : Grown extra [] []
  | keep {d old new} (others : Grown extra old new) : Grown extra (d :: old) (d :: new)
  | add {d old new} (added : extra d) (others : Grown extra old new) : Grown extra old (d :: new)

namespace Grown

variable {extra extra' : Diagnostic → Prop} {old new old' new' : List Diagnostic}

theorem refl : (ds : List Diagnostic) → Grown extra ds ds
  | [] => .nil
  | _ :: rest => .keep (refl rest)

theorem of_all (all : ∀ d ∈ new, extra d) : Grown extra [] new := by
  induction new with
  | nil => exact .nil
  | cons d rest ih =>
    obtain ⟨first, others⟩ := List.forall_mem_cons.mp all
    exact .add first (ih others)

theorem append (first : Grown extra old new) (second : Grown extra old' new') :
    Grown extra (old ++ old') (new ++ new') := by
  induction first with
  | nil => exact second
  | keep _ ih => exact .keep ih
  | add added _ ih => exact .add added ih

theorem mono (grown : Grown extra old new) (weaker : ∀ d, extra d → extra' d) : Grown extra' old new := by
  induction grown with
  | nil => exact .nil
  | keep _ ih => exact .keep ih
  | add added _ ih => exact .add (weaker _ added) ih

theorem sublist (grown : Grown extra old new) : old.Sublist new := by
  induction grown with
  | nil => exact .slnil
  | keep _ ih => exact ih.cons_cons _
  | add _ _ ih => exact ih.cons _

theorem flatMap {α : Type} {items : List α} {old new : α → List Diagnostic}
    (each : ∀ a ∈ items, Grown extra (old a) (new a)) : Grown extra (items.flatMap old) (items.flatMap new) := by
  induction items with
  | nil => exact .nil
  | cons a rest ih =>
    obtain ⟨first, others⟩ := List.forall_mem_cons.mp each
    exact first.append (ih others)

end Grown

namespace Check

variable {α β : Type} {extra extra' : Diagnostic → Prop}

structure Grows (extra : Diagnostic → Prop) (old new : Check α) : Prop where
  result : old.result = new.result
  reports : Grown extra old.reports new.reports

theorem Grows.refl (check : Check α) : Grows extra check check := ⟨rfl, .refl _⟩

theorem Grows.mono {old new : Check α} (grows : Grows extra old new) (weaker : ∀ d, extra d → extra' d) :
    Grows extra' old new :=
  ⟨grows.result, grows.reports.mono weaker⟩

theorem Grows.attempt {old new : Check α} (grows : Grows extra old new) : Grows extra old.attempt new.attempt :=
  ⟨congrArg some grows.result, grows.reports⟩

theorem Grows.bind {old new : Check α} {next next' : α → Check β} (first : Grows extra old new)
    (second : ∀ a, Grows extra (next a) (next' a)) : Grows extra (old >>= next) (new >>= next') := by
  obtain ⟨result, reports⟩ := old
  obtain ⟨result', reports'⟩ := new
  obtain ⟨rfl, grown⟩ := first
  cases result with
  | none => exact ⟨rfl, grown⟩
  | some a => exact ⟨(second a).result, grown.append (second a).reports⟩

theorem Grows.bind_pure (a : α) {next next' : α → Check β} (grows : Grows extra (next a) (next' a)) :
    Grows extra (Check.pure a >>= next) (Check.pure a >>= next') := grows

theorem result_same (span : Span) (expected got : Ty) : (same span expected got).result = some () := by
  unfold same
  split <;> rfl

theorem result_bind {check : Check α} {next : α → Check β} {a : α} {b : β} (first : check.result = some a)
    (second : (next a).result = some b) : (check >>= next).result = some b := by
  simp [Bind.bind, Check.bind, first, second]

end Check

open Check

/-- What the options ask for in addition is reported about an expression: arguments that a call lacks, or what there is to
say about the fields of a struct literal and their values. -/
inductive Expr.Extra (o o' : Strictness) (s : Scope) : Expr → Diagnostic → Prop
  | missing {span callee calleeSpan args f} (lenient : o.missingArguments = false) (strict : o'.missingArguments = true)
      (known : s.functions.get? callee = some f) (few : args.length < f.params.length) :
      Extra o o' s (.call span callee calleeSpan args)
        ((TypeFault.missingArguments ((f.params.drop args.length).map (·.name))).at span)
  | fields {span name inits d r} (lenient : o.structLiterals = false) (strict : o'.structLiterals = true)
      (known : s.structs.get? name = some d) (reported : r ∈ (checkInits o' s d inits).reports) :
      Extra o o' s (.struct span name inits) r

section Expressions

variable {o o' : Strictness} (demands : o'.Demands o) (s : Scope)

theorem result_checkInits (o : Strictness) (d : StructDecl) : (inits : List FieldInit) →
    (checkInits o s d inits).result = some ()
  | [] => by
    unfold checkInits
    rfl
  | ⟨name, value, span⟩ :: inits => by
    unfold checkInits checkInit
    refine result_bind (a := ()) ?_ (result_checkInits o d inits)
    split
    · rfl
    · refine result_bind (a := (value.check o s).result) rfl ?_
      split
      · rfl
      · exact result_same ..

variable {extra : Diagnostic → Prop}

theorem grows_checkArgs (params : List Param) {args : List Expr}
    (each : ∀ arg ∈ args, Grows extra (arg.check o s) (arg.check o' s)) :
    Grows extra (checkArgs o s params args) (checkArgs o' s params args) := by
  induction args generalizing params with
  | nil =>
    unfold checkArgs
    exact .refl _
  | cons arg args ih =>
    obtain ⟨first, others⟩ := List.forall_mem_cons.mp each
    cases params with
    | nil =>
      unfold checkArgs
      exact .refl _
    | cons param params =>
      unfold checkArgs
      refine .bind first.attempt fun result => ?_
      split
      · exact .bind (.refl _) fun _ => ih _ others
      · exact .bind (.refl _) fun _ => ih _ others

theorem grows_checkInits (d : StructDecl) {inits : List FieldInit}
    (each : ∀ init ∈ inits, Grows extra (init.value.check o s) (init.value.check o' s)) :
    Grows extra (checkInits o s d inits) (checkInits o' s d inits) := by
  induction inits with
  | nil =>
    unfold checkInits
    exact .refl _
  | cons init inits ih =>
    obtain ⟨first, others⟩ := List.forall_mem_cons.mp each
    obtain ⟨name, value, span⟩ := init
    unfold checkInits checkInit
    refine .bind ?_ fun _ => ih others
    cases d.field? name with
    | none => exact .refl _
    | some entry =>
      refine .bind first.attempt fun result => ?_
      split
      · exact .refl _
      · exact .refl _

include demands

theorem grows_checkCount (f : Signature) (span : Span) (count : Nat)
    (added : o.missingArguments = false → o'.missingArguments = true → count < f.params.length →
      extra ((TypeFault.missingArguments ((f.params.drop count).map (·.name))).at span)) :
    Grows extra (f.checkCount o span count) (f.checkCount o' span count) := by
  unfold Signature.checkCount
  cases lenient : o.missingArguments with
  | true =>
    rw [demands.missingArguments lenient]
    exact .refl _
  | false =>
    rw [if_neg (by simp)]
    split
    · rename_i strict
      exact ⟨rfl, .add (added lenient strict.1 strict.2) .nil⟩
    · exact .refl _

theorem grows_check (e : Expr) :
    Grows (fun r => ∃ part : Expr, part.Part e ∧ part.Extra o o' s r) (e.check o s) (e.check o' s) := by
  induction e using Expr.induction_children with
  | step e ih =>
    have child (inner : Expr) (member : inner ∈ e.children) :
        Grows (fun r => ∃ part : Expr, part.Part e ∧ part.Extra o o' s r) (inner.check o s) (inner.check o' s) := by
      refine (ih inner member).mono ?_
      rintro r ⟨part, inside, added⟩
      exact ⟨part, .child inside member, added⟩
    cases e with
    | int | float | string | «variable» => exact .refl _
    | assign span target value =>
      unfold Expr.check
      exact .bind (child target (by simp [Expr.children])) fun _ =>
        .bind (child value (by simp [Expr.children])) fun _ => .refl _
    | binary span op lhs rhs =>
      unfold Expr.check
      exact .bind (child lhs (by simp [Expr.children])) fun _ => .bind (child rhs (by simp [Expr.children])) fun _ => .refl _
    | unary span op operand =>
      unfold Expr.check
      exact .bind (child operand (by simp [Expr.children])) fun _ => .refl _
    | field span base name =>
      unfold Expr.check
      exact .bind (child base (by simp [Expr.children])) fun _ => .refl _
    | index span base offset =>
      unfold Expr.check
      exact .bind (child base (by simp [Expr.children])).attempt fun _ =>
        .bind (child offset (by simp [Expr.children])).attempt fun _ => .refl _
    | call span callee calleeSpan args =>
      unfold Expr.check
      cases known : s.functions.get? callee with
      | none => exact .refl _
      | some f =>
        refine .bind (grows_checkArgs s _ child) fun _ => ?_
        refine .bind (grows_checkCount demands f span args.length ?_) fun _ => .refl _
        exact fun lenient strict few => ⟨_, .self, .missing lenient strict known few⟩
    | struct span name inits =>
      unfold Expr.check
      cases known : s.structs.get? name with
      | none =>
        unfold Scope.structOf
        rw [known]
        exact .refl _
      | some d =>
        have found : s.structOf name span = .pure d := by rw [Scope.structOf, known]
        rw [found]
        refine Grows.bind_pure d ?_
        cases lenient : o.structLiterals with
        | true =>
          have strict := demands.structLiterals lenient
          simp only [strict, if_true]
          refine .bind (grows_checkInits s d fun init member => ?_) fun _ => .refl _
          exact child init.value (List.mem_map_of_mem member)
        | false =>
          cases strict : o'.structLiterals with
          | false => exact .refl _
          | true =>
            have fields : Grows (fun r => ∃ part : Expr, part.Part (.struct span name inits) ∧ part.Extra o o' s r) (.pure ())
                (checkInits o' s d inits) :=
              ⟨(result_checkInits s o' d inits).symm,
                .of_all fun r reported => ⟨_, .self, .fields lenient strict known reported⟩⟩
            exact .bind fields fun _ => .refl (.pure (Ty.struct name))

theorem grown_stops (stops : List Stop) :
    Grown (fun r => ∃ stop ∈ stops, ∃ part : Expr, part.Part stop.expr ∧ part.Extra o o' stop.scope r)
      (stops.flatMap (Stop.reports o)) (stops.flatMap (Stop.reports o')) := by
  refine .flatMap fun stop member => ?_
  have grows : Grows _ (stop.check o) (stop.check o') := .bind (grows_check demands stop.scope stop.expr) fun _ => .refl _
  refine grows.reports.mono ?_
  rintro r ⟨part, inside, added⟩
  exact ⟨stop, member, part, inside, added⟩

end Expressions

/-- A checker and one with stricter options, but for the scopes of blocks. Both visit all expressions of the document
in the same scopes, and find the same types of whatever is part of them. The stricter one reports what the other one does,
and in between missing arguments and faults in the fields of struct literals. Both have the same tables in the end. -/
theorem stricter_checks_only_add (c : Checker) {o : Strictness} (scoping : o.blockScoping = c.options.blockScoping)
    (demands : o.Demands c.options) (d : Document) :
    let stops := (d.walk c.options.blockScoping c.scope).1
    let lenient := c.document d
    let strict := Checker.document { c with options := o } d
    lenient.diagnostics = c.diagnostics.append (stops.flatMap (Stop.reports c.options)) ∧
    strict.diagnostics = c.diagnostics.append (stops.flatMap (Stop.reports o)) ∧
    stops.map (·.expr) = d.functions.flatMap (·.body.exprs) ∧
    lenient.diagnostics.messages.Sublist strict.diagnostics.messages ∧
    Grown (fun r => ∃ stop ∈ stops, ∃ part : Expr, part.Part stop.expr ∧ part.Extra c.options o stop.scope r)
      lenient.diagnostics.messages strict.diagnostics.messages ∧
    (∀ stop ∈ stops, ∀ part : Expr, part.Part stop.expr →
      (part.check c.options stop.scope).result = (part.check o stop.scope).result) ∧
    lenient.scope = strict.scope := by
  intro stops lenient strict
  have first : lenient = c.after (d.walk c.options.blockScoping c.scope) := c.document_eq d
  have second : strict = Checker.after { c with options := o } (d.walk c.options.blockScoping c.scope) := by
    rw [← scoping]
    exact Checker.document_eq { c with options := o } d
  have reports : lenient.diagnostics = c.diagnostics.append (stops.flatMap (Stop.reports c.options)) := by
    rw [first]
    rfl
  have reports' : strict.diagnostics = c.diagnostics.append (stops.flatMap (Stop.reports o)) := by
    rw [second]
    rfl
  have grown : Grown (fun r => ∃ stop ∈ stops, ∃ part : Expr, part.Part stop.expr ∧ part.Extra c.options o stop.scope r)
      lenient.diagnostics.messages strict.diagnostics.messages := by
    rw [reports, reports']
    exact (Grown.refl c.diagnostics.messages).append (grown_stops demands stops)
  refine ⟨reports, reports', Document.map_expr_walk _ c.scope d, grown.sublist, grown, ?_, ?_⟩
  · intro stop _ part _
    exact (grows_check demands stop.scope part).result
  · rw [first, second]
    rfl

/-- `struct P { a: i64 } extern g(n: i64): i64 function f() { let p: P = P { b: x, a: g() }; y }`, where only `y` is
reported to begin with. -/
theorem stricter_checks_only_add_literal :
    ∃ d : Document, ∃ o : Strictness, o.blockScoping = Strictness.lenient.blockScoping ∧ o.Demands .lenient ∧
      ((Checker.start .lenient .empty).document d).diagnostics.messages = [TypeFault.unknownVariable.at ⟨88, 89⟩] ∧
      ((Checker.start o .empty).document d).diagnostics.messages =
        [TypeFault.unknownField.at ⟨72, 76⟩, (TypeFault.missingArguments ["n"]).at ⟨81, 84⟩,
          TypeFault.unknownVariable.at ⟨88, 89⟩] ∧
      ((Checker.start .lenient .empty).document d).diagnostics.messages.Sublist
        ((Checker.start o .empty).document d).diagnostics.messages ∧
      ((Checker.start .lenient .empty).document d).scope = ((Checker.start o .empty).document d).scope := by
  let g : Signature := ⟨"g", ⟨27, 28⟩, .int 64, [⟨"n", .int 64, ⟨29, 35⟩⟩], ⟨27, 41⟩⟩
  let literal : Expr := .struct ⟨68, 86⟩ "P"
    [⟨"b", .variable ⟨75, 76⟩ "x", ⟨72, 76⟩⟩, ⟨"a", .call ⟨81, 84⟩ "g" ⟨81, 82⟩ [], ⟨78, 84⟩⟩]
  let body : Block := ⟨[.letIn ⟨57, 86⟩ "p" (.struct "P") (some literal), .expr (.variable ⟨88, 89⟩ "y")], ⟨55, 91⟩⟩
  let d : Document := [.struct ⟨"P", [⟨"a", .int 64, ⟨11, 17⟩⟩], ⟨0, 19⟩⟩, .external g ⟨20, 41⟩,
    .function ⟨⟨"f", ⟨51, 52⟩, .void, [], ⟨51, 54⟩⟩, body, ⟨42, 91⟩⟩]
  let o : Strictness := ⟨true, true, false⟩
  have scoping : o.blockScoping = (Checker.start .lenient .empty).options.blockScoping := rfl
  have demands : o.Demands (Checker.start .lenient .empty).options := ⟨fun _ => rfl, fun _ => rfl⟩
  obtain ⟨_, _, _, sub, _, _, tables⟩ := stricter_checks_only_add (Checker.start .lenient .empty) scoping demands d
  exact ⟨d, o, scoping, demands, rfl, rfl, sub, tables⟩

end StructLang
