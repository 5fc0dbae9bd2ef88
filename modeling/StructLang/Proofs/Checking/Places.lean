import Mathlib
import StructLang.Proofs.Parse.Nesting
import StructLang.Proofs.Typing.Expressions

namespace StructLang

/-- Errors in a span, each of them alone or with a note at the same place behind it. -/
inductive Reported (outer : Span) : List Diagnostic → Prop
  | nil : Reported outer []
  | error {fault rest} (error : fault.severity = .error) (inside : fault.span.Within outer)
      (others : Reported outer rest) : Reported outer (fault :: rest)
  | hinted {fault note rest} (error : fault.severity = .error) (hint : note.severity = .note)
      (same : fault.span = note.span) (inside : fault.span.Within outer) (others : Reported outer rest) :
      Reported outer (fault :: note :: rest)

namespace Reported

variable {inner outer : Span} {reports more : List Diagnostic}

theorem append (first : Reported outer reports) (second : Reported outer more) : Reported outer (reports ++ more) := by
  induction first with
  | nil => exact second
  | error error inside _ ih => exact .error error inside ih
  | hinted error hint same inside _ ih => exact .hinted error hint same inside ih

theorem widen (reported : Reported inner reports) (within : inner.Within outer) : Reported outer reports := by
  induction reported with
  | nil => exact .nil
  | error error inside _ ih => exact .error error (inside.trans within) ih
  | hinted error hint same inside _ ih => exact .hinted error hint same (inside.trans within) ih

theorem inside (reported : Reported outer reports) : ∀ d ∈ reports, d.span.Within outer := by
  induction reported with
  | nil => simp
  | error _ inside _ ih => exact List.forall_mem_cons.mpr ⟨inside, ih⟩
  | hinted _ _ same inside _ ih => exact List.forall_mem_cons.mpr ⟨inside, List.forall_mem_cons.mpr ⟨same ▸ inside, ih⟩⟩

theorem exists_before_note (reported : Reported outer reports) {before after : List Diagnostic} {note : Diagnostic}
    (split : reports = before ++ note :: after) (hint : note.severity = .note) :
    ∃ (front : List Diagnostic) (fault : Diagnostic), before = front ++ [fault] ∧ fault.severity = .error ∧
      fault.span = note.span := by
  induction reported generalizing before with
  | nil => simp at split
  | @error fault rest error _ _ ih =>
    cases before with
    | nil =>
      cases split
      simp [error] at hint
    | cons _ before =>
      obtain ⟨rfl, rest⟩ := List.cons.inj split
      obtain ⟨front, last, rfl, found⟩ := ih rest
      exact ⟨fault :: front, last, rfl, found⟩
  | @hinted fault note' rest error _ same _ _ ih =>
    cases before with
    | nil =>
      cases split
      simp [error] at hint
    | cons _ before =>
      obtain ⟨rfl, rest⟩ := List.cons.inj split
      cases before with
      | nil =>
        cases rest
        exact ⟨[], fault, rfl, error, same⟩
      | cons _ before =>
        obtain ⟨rfl, rest'⟩ := List.cons.inj rest
        obtain ⟨front, last, rfl, found⟩ := ih rest'
        exact ⟨fault :: note' :: front, last, rfl, found⟩

end Reported

namespace Check

variable {α β : Type} {outer span : Span}

def InPlace (outer : Span) (check : Check α) : Prop := Reported outer check.reports

theorem InPlace.pure (a : α) : InPlace outer (Check.pure a) := Reported.nil

theorem InPlace.giveUp (fault : TypeFault) (inside : span.Within outer) :
    InPlace outer (Check.giveUp (fault.at span) : Check α) :=
  Reported.error rfl inside .nil

theorem InPlace.report (fault : TypeFault) (inside : span.Within outer) : InPlace outer (Check.report (fault.at span)) :=
  Reported.error rfl inside .nil

theorem InPlace.same (expected got : Ty) (inside : span.Within outer) : InPlace outer (Check.same span expected got) := by
  unfold Check.same
  split
  · exact .pure ()
  · exact .report _ inside

theorem InPlace.attempt {check : Check α} (inPlace : InPlace outer check) : InPlace outer check.attempt := inPlace

theorem InPlace.bind {check : Check α} {next : α → Check β} (first : InPlace outer check)
    (second : ∀ a, InPlace outer (next a)) : InPlace outer (check >>= next) := by
  obtain ⟨result, reports⟩ := check
  cases result with
  | none => exact first
  | some a => exact first.append (second a)

end Check

open Check

section Steps

variable {outer span : Span} (inside : span.Within outer)
include inside

theorem Scope.inPlace_structOf (s : Scope) (name : String) : InPlace outer (s.structOf name span) := by
  unfold structOf
  split
  · exact .pure _
  · exact .giveUp _ inside

theorem UnaryOp.inPlace_check (op : UnaryOp) (ty : Ty) : InPlace outer (op.check span ty) := by
  unfold UnaryOp.check
  split
  · exact .pure _
  · exact .pure _
  · exact .pure _
  · exact .giveUp _ inside

/-- The only check with a note. -/
theorem Ty.inPlace_checkStruct (ty : Ty) : InPlace outer (ty.checkStruct span) := by
  unfold checkStruct
  split
  · exact .pure _
  · exact Reported.hinted rfl rfl rfl inside .nil
  · exact .giveUp _ inside

theorem StructDecl.inPlace_checkField (d : StructDecl) (name : String) : InPlace outer (d.checkField name span) := by
  unfold checkField
  split
  · exact .pure _
  · exact .giveUp _ inside

theorem Signature.inPlace_checkCount (o : Strictness) (f : Signature) (count : Nat) :
    InPlace outer (f.checkCount o span count) := by
  unfold checkCount
  split
  · exact .report _ inside
  · exact .pure ()

end Steps

section Expressions

variable (o : Strictness) (s : Scope) {outer : Span}

theorem Ty.inPlace_checkIndexed {baseSpan indexSpan : Span} (first : baseSpan.Within outer)
    (second : indexSpan.Within outer) (base index : Ty) :
    InPlace outer (Ty.checkIndexed baseSpan indexSpan base index) := by
  rw [InPlace, checkIndexed_eq]
  refine Reported.append ?_ ?_
  · split
    · exact .nil
    · exact .error rfl first .nil
  · split
    · exact .nil
    · exact .error rfl second .nil

theorem inPlace_checkArgs (params : List Param) {args : List Expr}
    (each : ∀ arg ∈ args, arg.span.Within outer ∧ InPlace outer (arg.check o s)) :
    InPlace outer (checkArgs o s params args) := by
  induction args generalizing params with
  | nil =>
    unfold checkArgs
    exact .pure ()
  | cons arg args ih =>
    obtain ⟨⟨inside, first⟩, others⟩ := List.forall_mem_cons.mp each
    unfold checkArgs
    split
    · exact .report _ inside
    · refine InPlace.bind first.attempt fun result => ?_
      split
      · exact .bind (.pure ()) fun _ => ih _ others
      · exact .bind (.same _ _ inside) fun _ => ih _ others

theorem inPlace_checkInits (d : StructDecl) {inits : List FieldInit}
    (each : ∀ init ∈ inits, init.span.Within outer ∧ init.value.span.Within outer ∧
      InPlace outer (init.value.check o s)) :
    InPlace outer (checkInits o s d inits) := by
  induction inits with
  | nil =>
    unfold checkInits
    exact .pure ()
  | cons init inits ih =>
    obtain ⟨⟨field, inside, checked⟩, others⟩ := List.forall_mem_cons.mp each
    obtain ⟨name, value, span⟩ := init
    unfold checkInits checkInit
    refine .bind ?_ fun _ => ih others
    split
    · exact .report _ field
    · refine InPlace.bind checked.attempt fun result => ?_
      split
      · exact .pure ()
      · exact .same _ _ inside

/-- Every check that an expression makes is of a part of it, and reports at such a part. -/
theorem inPlace_check (e : Expr) : e.Nested → InPlace e.span (e.check o s) := by
  induction e using Expr.induction_children with
  | step e ih =>
    intro nested
    have inside := nested.inside
    have checked (child : Expr) (member : child ∈ e.children) : InPlace e.span (child.check o s) :=
      (ih child member (nested.children child member)).widen (inside child member)
    cases e with
    | int | float | string => exact .pure _
    | «variable» span name =>
      unfold Expr.check
      split
      · exact .pure _
      · exact .giveUp _ (.refl span)
    | assign span target value =>
      unfold Expr.check
      exact .bind (checked target (by simp [Expr.children])) fun _ =>
        .bind (checked value (by simp [Expr.children])) fun _ => .bind (.same _ _ (.refl span)) fun _ => .pure _
    | binary span op lhs rhs =>
      unfold Expr.check
      refine .bind (checked lhs (by simp [Expr.children])) fun _ => .bind (checked rhs (by simp [Expr.children])) fun _ => ?_
      split
      · exact .pure _
      · exact .giveUp _ (.refl span)
    | unary span op operand =>
      have member : operand ∈ (Expr.unary span op operand).children := by simp [Expr.children]
      unfold Expr.check
      exact .bind (checked operand member) fun ty => op.inPlace_check (inside operand member) ty
    | call span callee calleeSpan args =>
      unfold Expr.check
      split
      · exact .giveUp _ (nested.marks calleeSpan (by simp [Expr.marks]))
      · exact .bind (inPlace_checkArgs o s _ fun arg member => ⟨inside arg member, checked arg member⟩) fun _ =>
          .bind (Signature.inPlace_checkCount (.refl span) o ..) fun _ => .pure _
    | field span base name =>
      have member : base ∈ (Expr.field span base name).children := by simp [Expr.children]
      have within := inside base member
      unfold Expr.check
      exact .bind (checked base member) fun ty => .bind (ty.inPlace_checkStruct within) fun _ =>
        .bind (s.inPlace_structOf within _) fun d => d.inPlace_checkField within _
    | index span base offset =>
      have first : base ∈ (Expr.index span base offset).children := by simp [Expr.children]
      have second : offset ∈ (Expr.index span base offset).children := by simp [Expr.children]
      unfold Expr.check
      refine .bind (checked base first).attempt fun _ => .bind (checked offset second).attempt fun _ => ?_
      split
      · exact Ty.inPlace_checkIndexed (inside base first) (inside offset second) _ _
      · exact Reported.nil
    | struct span name inits =>
      unfold Expr.check
      refine .bind (s.inPlace_structOf (.refl span) _) fun d => ?_
      split
      · refine .bind (inPlace_checkInits o s d fun init member => ?_) fun _ => .pure _
        have value : init.value ∈ (Expr.struct span name inits).children := List.mem_map_of_mem member
        exact ⟨nested.marks _ (List.mem_map_of_mem member), inside _ value, checked _ value⟩
      · exact .bind (.pure ()) fun _ => .pure _

theorem exists_error_of_result {e : Expr} (none : (e.check o s).result = none) :
    ∃ fault ∈ (e.check o s).reports, fault.severity = .error := by
  have explained := explained_check o s e
  rcases explained.faulty with nil | ⟨fault, member, error⟩
  · have some := explained.result nil
    simp [none] at some
  · exact ⟨fault, member, by simpa [Diagnostic.isError] using error⟩

end Expressions

/-- An expression of a parsed document, whatever the state of the checker. What the checker adds to the diagnostics
lies in the expression; an error is among it if no type is found; and a note follows an error at the same place. -/
theorem expression_reports_are_in_place {text : String} {d : Document} (parsed : parse text = .ok d) {e : Expr}
    (contains : d.Contains e) (c : Checker) :
    ∃ new, (c.expr e).2.diagnostics.messages = c.diagnostics.messages ++ new ∧
      ((c.expr e).1 = none → ∃ fault ∈ new, fault.severity = .error) ∧
      (∀ r ∈ new, r.span.Within e.span) ∧
      ∀ before note after, new = before ++ note :: after → note.severity = .note →
        ∃ front fault, before = front ++ [fault] ∧ fault.severity = .error ∧ fault.span = note.span := by
  have reported := inPlace_check c.options c.scope e (contains.nested parsed)
  refine ⟨(e.check c.options c.scope).reports, rfl, exists_error_of_result _ _, reported.inside, ?_⟩
  intro before note after split hint
  exact reported.exists_before_note split hint

/-- An element of a field of a pointer, at a field behind a number: an error with a note, and another error at a
dereference that the text does not show. -/
theorem expression_reports_are_in_place_hinted :
    ∃ d e, parse "function f(p: P*) { g(p.a[(y)->b]) }" = .ok d ∧ d.Contains e ∧
      ∃ c : Checker, (c.expr e).1 = none ∧ ∃ new, (c.expr e).2.diagnostics.messages = c.diagnostics.messages ++ new ∧
        new.map (·.severity) = [.error, .note, .error] ∧ (∀ r ∈ new, r.span.Within e.span) ∧
        ∃ front fault, new.take 1 = front ++ [fault] ∧ fault.severity = .error ∧ fault.span = ⟨22, 23⟩ := by
  let e : Expr := .index ⟨22, 33⟩ (.field ⟨22, 25⟩ (.variable ⟨22, 23⟩ "p") "a")
    (.field ⟨26, 32⟩ (.unary ⟨26, 29⟩ .deref (.variable ⟨26, 29⟩ "y")) "b")
  let call : Expr := .call ⟨20, 34⟩ "g" ⟨20, 21⟩ [e]
  let f : FunctionDecl := ⟨⟨"f", ⟨9, 10⟩, .void, [⟨"p", .ptr (.struct "P"), ⟨11, 16⟩⟩], ⟨9, 17⟩⟩,
    ⟨[.expr call], ⟨18, 36⟩⟩, ⟨0, 36⟩⟩
  have parsed : parse "function f(p: P*) { g(p.a[(y)->b]) }" = .ok [.function f] := by cbv
  have contains : Document.Contains [.function f] e :=
    ⟨f, List.mem_singleton_self f, call, List.mem_singleton_self call, .child .self (List.mem_singleton_self e)⟩
  let c : Checker := ⟨.strict, (Scope.empty.bind "p" (.ptr (.struct "P"))).bind "y" (.int 64), .empty⟩
  obtain ⟨new, added, error, inside, hints⟩ := expression_reports_are_in_place parsed contains c
  have reports : new = [(TypeFault.notStruct (.ptr (.struct "P"))).at ⟨22, 23⟩, .note ⟨22, 23⟩ arrowHint,
      (TypeFault.notPointer (.int 64)).at ⟨26, 29⟩] := added.symm.trans rfl
  subst reports
  exact ⟨_, e, parsed, contains, c, rfl, _, added, rfl, inside, hints [_] (.note ⟨22, 23⟩ arrowHint) [_] rfl rfl⟩

end StructLang
