import Mathlib
import StructLang.Parse.Document
import StructLang.Proofs.Parts
import StructLang.Proofs.Typing.Expressions

namespace StructLang

namespace Check

variable {first second : Check Ty} {next : Ty → Ty → Check Ty}

theorem reports_stopped (stopped : first.result = none) :
    (first >>= fun a => second >>= fun b => next a b).reports = first.reports := by
  simp [Bind.bind, Check.bind, stopped]

theorem exists_reports {a : Ty} (found : first.result = some a) :
    ∃ own, (first >>= fun a => second >>= fun b => next a b).reports = first.reports ++ second.reports ++ own := by
  cases found' : second.result with
  | none => exact ⟨[], by simp [Bind.bind, Check.bind, found, found']⟩
  | some b => exact ⟨(next a b).reports, by simp [Bind.bind, Check.bind, found, found']⟩

/-- Two checks in a row report what either does, unless the first one has no result and the second one reports. -/
theorem reports_counted_iff :
    (∀ d, first.reports.count d + second.reports.count d ≤
      (first >>= fun a => second >>= fun b => next a b).reports.count d) ↔
      first.result ≠ none ∨ second.reports = [] := by
  cases found : first.result with
  | none =>
    rw [reports_stopped found]
    constructor
    · intro counted
      refine .inr (List.eq_nil_iff_forall_not_mem.mpr fun d member => ?_)
      have := counted d
      have := List.count_pos_iff.mpr member
      omega
    · rintro (some | nil)
      · exact absurd rfl some
      · simp [nil]
  | some a =>
    obtain ⟨own, reports⟩ := @exists_reports first second next a found
    simp [reports]

end Check

namespace Checker

def newReports (c : Checker) (e : Expr) : List Diagnostic :=
  (c.expr e).2.diagnostics.messages.drop c.diagnostics.messages.length

/-- Whatever is reported about either operand alone is reported about the whole, as often as about both together. -/
def KeepsReports (c : Checker) (left right whole : Expr) : Prop :=
  ∀ d, (c.newReports left).count d + (c.newReports right).count d ≤ (c.newReports whole).count d

theorem newReports_eq (c : Checker) (e : Expr) : c.newReports e = (e.check c.options c.scope).reports := by
  simp [newReports, expr, run, Diagnostics.append]

variable (c : Checker) (span : Span) (left right : Expr)

theorem keepsReports_index : c.KeepsReports left right (.index span left right) := by
  intro d
  simp only [newReports_eq, Expr.check_index]
  cases (left.check c.options c.scope).result <;> cases (right.check c.options c.scope).result <;>
    simp

theorem keepsReports_assign_iff :
    c.KeepsReports left right (.assign span left right) ↔ (c.expr left).1 ≠ none ∨ c.newReports right = [] := by
  simp only [KeepsReports, newReports_eq, Expr.check]
  exact Check.reports_counted_iff

theorem keepsReports_binary_iff (op : BinaryOp) :
    c.KeepsReports left right (.binary span op left right) ↔ (c.expr left).1 ≠ none ∨ c.newReports right = [] := by
  simp only [KeepsReports, newReports_eq, Expr.check]
  exact Check.reports_counted_iff

/-- An index hides nothing of what is to be reported about its operands. An assignment or a binary operation hides what
is to be reported about the right operand if the left one has no type, and nothing otherwise. -/
theorem operand_reports_are_kept_iff (op : BinaryOp) :
    c.KeepsReports left right (.index span left right) ∧
    (c.KeepsReports left right (.assign span left right) ↔ (c.expr left).1 ≠ none ∨ c.newReports right = []) ∧
    (c.KeepsReports left right (.binary span op left right) ↔ (c.expr left).1 ≠ none ∨ c.newReports right = []) :=
  ⟨c.keepsReports_index span left right, c.keepsReports_assign_iff span left right,
    c.keepsReports_binary_iff span left right op⟩

/-- Two unknown names, of which the first one is reported only. -/
theorem operand_reports_are_lost_unknownNames :
    ∃ d e left right, parse "function f() { x + y; }" = .ok d ∧ d.Contains e ∧ e = .binary ⟨15, 20⟩ .add left right ∧
      ¬(start .lenient .empty).KeepsReports left right e := by
  let left : Expr := .variable ⟨15, 16⟩ "x"
  let right : Expr := .variable ⟨19, 20⟩ "y"
  let e : Expr := .binary ⟨15, 20⟩ .add left right
  let f : FunctionDecl := ⟨⟨"f", ⟨9, 10⟩, .void, [], ⟨9, 12⟩⟩, ⟨[.expr e], ⟨13, 23⟩⟩, ⟨0, 23⟩⟩
  have parsed : parse "function f() { x + y; }" = .ok [.function f] := by cbv
  have contains : Document.Contains [.function f] e :=
    ⟨f, List.mem_singleton_self f, e, List.mem_singleton_self e, .self⟩
  refine ⟨_, e, left, right, parsed, contains, rfl, fun keeps => ?_⟩
  exact absurd (keeps (TypeFault.unknownVariable.at ⟨19, 20⟩)) (by decide)

end Checker

end StructLang
