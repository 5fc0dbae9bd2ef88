import Mathlib
import StructLang.Proofs.Document.Lowered

namespace StructLang

open Ir

noncomputable def Part.size : Part → Nat
  | .expr _ e => 2 * sizeOf e
  | .args es => 2 * sizeOf es
  | .inits _ _ fields => 2 * sizeOf fields
  | .condition e => 2 * sizeOf e + 1
  | .stmt st => 2 * sizeOf st
  | .chain _ rest => 2 * sizeOf rest
  | .block b => 2 * sizeOf b
  | .stmts body => 2 * sizeOf body

theorem Visit.Sub.size_lt {scope : Scope} {v w : Visit} (sub : v.Sub scope w) : w.part.size < v.part.size := by
  cases sub <;> simp [Part.size] <;> omega

inductive Document.Visited (d : Document) (name : String) : Visit → Prop
  | body {before f after m s} (here : d.functions = before ++ f :: after)
      (lowered : ModuleLower.functions (d.check .strict).scope true before (d.declared name) = .ok () m)
      (entered : Lower.params 0 f.signature.params (Lower.entered m f) = .ok () s) :
      Visited d name ⟨.block f.body, (d.checkedUpTo .strict before).entered f.signature, s⟩
  | sub {v w} (visited : Visited d name v) (sub : v.Sub (d.check .strict).scope w) : Visited d name w

namespace Document

variable {d : Document} {name : String}

/-- A failure starts at a visit that is made of visits without it. -/
theorem Visited.origin {v : Visit} (visited : d.Visited name v)
    (valid : ∀ v, d.Visited name v → v.Valid (d.check .strict).scope) {e : LoweringError}
    (fails : v.Fails (d.check .strict).scope e) :
    ∃ w, d.Visited name w ∧ w.Fails (d.check .strict).scope e ∧
      (∀ u, w.Sub (d.check .strict).scope u → ¬u.Fails (d.check .strict).scope e) ∧ w.part.Lacks e := by
  by_cases deeper : ∃ w, v.Sub (d.check .strict).scope w ∧ w.Fails (d.check .strict).scope e
  · obtain ⟨w, sub, fails⟩ := deeper
    have := sub.size_lt
    exact (visited.sub sub).origin valid fails
  · obtain ⟨s, failed⟩ := fails
    have lacks := ((valid v visited).run.error failed).2.resolve_right deeper
    exact ⟨v, visited, ⟨s, failed⟩, fun w sub fails => deeper ⟨w, sub, fails⟩, lacks⟩
termination_by v.part.size

/-- Every body is checked in the context of the document. -/
theorem context_body (distinct : d.DistinctFunctions) {before after : List FunctionDecl} {f : FunctionDecl}
    (here : d.functions = before ++ f :: after) :
    ((d.checkedUpTo .strict before).entered f.signature).scope.context = d.context.enter f.signature := by
  have subset : before ⊆ d.functions := here ▸ List.subset_append_left ..
  have member : f ∈ d.functions := by simp [here]
  obtain ⟨-, functions, structs⟩ := checkedUpTo_tables distinct subset
  have same : (d.checkedUpTo .strict before).scope.context.functions = d.context.functions := functions
  rw [Checker.context_entered, ← Context.declare_known (function_known distinct member)]
  refine Context.enter_congr ?_ ?_ _
  · simp only [Context.declare, same]
  · exact structs

section Accepted

variable (distinct : d.DistinctFunctions) (fields : d.DistinctFields)
  (typed : FunctionsTyped .strict d.context d.functions)

include distinct typed in
theorem typed_body {f : FunctionDecl} (member : f ∈ d.functions) :
    ∃ Γ, BlockTyped .strict (d.context.enter f.signature) f.body Γ :=
  FunctionsTyped.body typed (fun _ member => function_known distinct member) member

include distinct in
theorem tables_enter (f : Signature) : Tables (d.check .strict).scope (d.context.enter f) := by
  obtain ⟨names, same⟩ := d.context.sameTables_enter f
  obtain ⟨-, functions, structs⟩ := checkedUpTo_tables distinct (List.Subset.refl d.functions)
  rw [same, scope_check]
  exact ⟨functions, structs⟩

include distinct fields typed in
theorem visited_valid {v : Visit} (visited : d.Visited name v) : v.Valid (d.check .strict).scope := by
  induction visited with
  | sub _ sub ih => exact sub.valid ih
  | @body before f after m s here lowered entered =>
    have subset : before ⊆ d.functions := here ▸ List.subset_append_left ..
    have member : f ∈ d.functions := by simp [here]
    have context := context_body distinct here
    have written := ModuleLower.functions_run before (fun f member => function_known distinct (subset member))
      (tables_enter distinct) (fun f member => typed_body distinct typed (subset member))
      (lowered_declared distinct fields name) (c := fun _ => Checker.start .strict .empty)
    rw [lowered] at written
    obtain ⟨s', entered', ready, agrees⟩ := Lower.gives_entered written.declares f
    cases entered.symm.trans entered'
    obtain ⟨Γ, typed'⟩ := typed_body distinct typed member
    exact ⟨(checkedUpTo_tables distinct subset).1, context ▸ tables_enter distinct _, ready, context ▸ agrees,
      ⟨Γ, context ▸ typed'⟩, trivial⟩

end Accepted

end Document

/-- A visited expression has the type that the checker finds, as a value or at an address. -/
theorem Visit.Valid.sameType {scope : Scope} {v : Visit} (valid : v.Valid scope) {want : Lower.Want} {e : Expr}
    (part : v.part = .expr want e) :
    ∃ ty, (v.checker.expr e).1 = some ty ∧ ∀ result s, Lower.expr scope want e v.state = .ok result s →
      result.elim (ty = .void) fun typed => typed.ty = ty ∧ typed.value.ty = want.irTy ty := by
  obtain ⟨p, c, s⟩ := v
  obtain ⟨strict, tables, ready, agrees, typed, placed⟩ := valid
  cases part
  obtain ⟨ty, typed⟩ := typed
  refine ⟨ty, congrArg Check.result ((check_clean_iff c.options c.scope e ty).mpr (strict.symm ▸ typed)), ?_⟩
  intro result s' lowered
  have fits := ((Lower.gives_expr tables e want typed placed ready agrees (c := c)).ok lowered).2
  cases result with
  | none => exact fits
  | some typed => exact ⟨fits.same, fits.value⟩

/-- In a parsed document that is accepted and declares no function twice, the checker and lowering agree
on the types of all expressions, whatever has been written is well typed at every moment, and lowering
can only fail where a value or an operation is missing. -/
theorem lowering_agrees_with_checker {d : Document} (parsed : Parsed d) (distinct : d.DistinctFunctions)
    (accepted : (d.check .strict).diagnostics.hasErrors = false) (name : String) :
    (∀ v, d.Visited name v →
      (∀ want e, v.part = .expr want e → ∃ ty, (v.checker.expr e).1 = some ty ∧
        ∀ result s, Lower.expr (d.check .strict).scope want e v.state = .ok result s →
          result.elim (ty = .void) fun typed => typed.ty = ty ∧ typed.value.ty = want.irTy ty) ∧
      (∀ s, v.part.run (d.check .strict).scope v.state = .ok () s → s.function.build.Typed s.module.module) ∧
      ∀ e s, v.part.run (d.check .strict).scope v.state = .error e s → s.function.build.Typed s.module.module) ∧
    (∀ m, d.lower (d.check .strict).scope true name = .ok m → ∀ f ∈ m.functions, f.Typed m) ∧
    ∀ e, d.lower (d.check .strict).scope true name = .error e → (∃ fault, e = .invalid fault) ∨
      ∃ v, d.Visited name v ∧ v.Fails (d.check .strict).scope e ∧
        (∀ w, v.Sub (d.check .strict).scope w → ¬w.Fails (d.check .strict).scope e) ∧ v.part.Lacks e := by
  have fields := parsed.distinctFields
  have typed := (d.accepted_iff_functionsTyped .strict).mp accepted
  have valid v (visited : d.Visited name v) := Document.visited_valid distinct fields typed visited
  refine ⟨fun v visited => ⟨fun want e part => (valid v visited).sameType part, ?_, ?_⟩, ?_⟩
  · intro s ran
    exact ((valid v visited).run.ok ran).build
  · intro e s failed
    exact ((valid v visited).run.error failed).1.build
  · have run := ModuleLower.functions_run d.functions (fun f member => Document.function_known distinct member)
      (Document.tables_enter distinct) (fun f member => Document.typed_body distinct typed member)
      (Document.lowered_declared distinct fields name) (c := fun _ => Checker.start .strict .empty)
    rw [← ModuleLower.document_eq] at run
    unfold Document.lower
    cases result : ModuleLower.document (d.check .strict).scope true d (.start name) with
    | error e m =>
      rw [result] at run
      refine ⟨nofun, ?_⟩
      rintro e ⟨⟩
      refine run.imp id ?_
      rintro ⟨before, f, after, m, s, here, lowered, entered, fails⟩
      exact (Document.Visited.body here lowered entered).origin valid fails
    | ok _ m =>
      rw [result] at run
      dsimp only
      cases m.module.validate with
      | error fault =>
        refine ⟨nofun, ?_⟩
        rintro e ⟨⟩
        exact .inl ⟨fault, rfl⟩
      | ok _ =>
        refine ⟨?_, nofun⟩
        rintro m ⟨⟩
        exact run.typed

theorem lowering_agrees_with_checker_call :
    ∃ d m, parse "struct P { x: i64; } function get(p: P*): i64 { return (*p).x; }
        function main(): i64 { let p: P; p.x = 7; return get(&p); }" = .ok d ∧
      d.DistinctFunctions ∧ (d.check .strict).diagnostics.hasErrors = false ∧
      d.lower (d.check .strict).scope true "m" = .ok m ∧ ∀ f ∈ m.functions, f.Typed m := by
  have checked : (match parse "struct P { x: i64; } function get(p: P*): i64 { return (*p).x; }
        function main(): i64 { let p: P; p.x = 7; return get(&p); }" with
      | .ok d => decide d.DistinctFunctions && !(d.check .strict).diagnostics.hasErrors &&
        (d.lower (d.check .strict).scope true "m").isOk
      | .error _ => false) = true := by cbv
  revert checked
  generalize read : parse _ = result
  intro checked
  cases result with
  | error e => cases checked
  | ok d =>
    simp only [Bool.and_eq_true, decide_eq_true_eq, Bool.not_eq_true'] at checked
    obtain ⟨⟨distinct, accepted⟩, written⟩ := checked
    cases lowered : d.lower (d.check .strict).scope true "m" with
    | error e =>
      rw [lowered] at written
      cases written
    | ok m =>
      have agree := lowering_agrees_with_checker (.text read (.refl d)) distinct accepted "m"
      exact ⟨d, m, rfl, distinct, accepted, lowered, agree.2.1 m lowered⟩

end StructLang
