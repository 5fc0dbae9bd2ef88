import StructLang.Proofs.Scope

namespace StructLang

namespace Check

variable {α β : Type}

def Faulty (reports : List Diagnostic) : Prop := reports = [] ∨ ∃ d ∈ reports, d.isError = true

theorem Faulty.nil : Faulty [] := .inl rfl

theorem Faulty.error (fault : TypeFault) (span : Span) (rest : List Diagnostic) :
    Faulty (fault.at span :: rest) :=
  .inr ⟨fault.at span, by simp, rfl⟩

theorem Faulty.append {first second : List Diagnostic} (left : Faulty first) (right : Faulty second) :
    Faulty (first ++ second) := by
  rcases left with rfl | ⟨d, member, error⟩
  · simpa using right
  · exact .inr ⟨d, List.mem_append_left _ member, error⟩

/-- A check that gives up has reported, and what it reported holds an error. -/
structure Explained (check : Check α) : Prop where
  result : check.reports = [] → check.result.isSome = true
  faulty : Faulty check.reports

theorem Explained.pure (a : α) : Explained (Check.pure a) := ⟨fun _ => rfl, .nil⟩

theorem Explained.giveUp (fault : TypeFault) (span : Span) :
    Explained (Check.giveUp (fault.at span) : Check α) :=
  ⟨fun none => by simp [Check.giveUp] at none, .error fault span []⟩

theorem Explained.report (fault : TypeFault) (span : Span) : Explained (Check.report (fault.at span)) :=
  ⟨fun _ => rfl, .error fault span []⟩

theorem Explained.same (span : Span) (expected got : Ty) : Explained (Check.same span expected got) := by
  unfold Check.same
  split
  · exact .pure ()
  · exact .report _ span

theorem Explained.attempt {check : Check α} (explained : Explained check) : Explained check.attempt :=
  ⟨fun _ => rfl, explained.faulty⟩

theorem Explained.bind {check : Check α} {next : α → Check β} (first : Explained check)
    (second : ∀ a, Explained (next a)) : Explained (check >>= next) := by
  obtain ⟨result, reports⟩ := check
  cases result with
  | none => exact ⟨fun none => by simpa using first.result none, first.faulty⟩
  | some a =>
    refine ⟨fun none => (second a).result ?_, first.faulty.append (second a).faulty⟩
    exact (List.append_eq_nil_iff.mp none).2

theorem Explained.reports_nil_iff {check : Check α} (explained : Explained check) :
    check.reports = [] ↔ ∃ a, check = ⟨some a, []⟩ := by
  constructor
  · intro none
    obtain ⟨a, found⟩ := Option.isSome_iff_exists.mp (explained.result none)
    exact ⟨a, by rw [← found, ← none]⟩
  · rintro ⟨a, rfl⟩
    rfl

/-- A sequence of checks is clean if both are. -/
theorem bind_eq_clean_iff {check : Check α} {next : α → Check β} {b : β} :
    (check >>= next) = ⟨some b, []⟩ ↔ ∃ a, check = ⟨some a, []⟩ ∧ next a = ⟨some b, []⟩ := by
  obtain ⟨result, reports⟩ := check
  cases result with
  | none => simp [Bind.bind, Check.bind]
  | some a =>
    cases other : next a with
    | mk result' reports' => simp [Bind.bind, Check.bind, other, and_comm, and_assoc]

@[simp] theorem pure_eq_clean_iff {a b : α} : (Pure.pure a : Check α) = ⟨some b, []⟩ ↔ a = b := by
  simp [Pure.pure, Check.pure]

@[simp] theorem giveUp_ne_clean {d : Diagnostic} {b : α} : ¬ (giveUp d : Check α) = ⟨some b, []⟩ := by
  simp [giveUp]

@[simp] theorem same_eq_clean_iff {span : Span} {expected got : Ty} {u : Unit} :
    same span expected got = ⟨some u, []⟩ ↔ expected = got := by
  unfold same
  split <;> simp_all [report, Check.pure]

end Check

open Check

section Explained

variable (o : Strictness) (s : Scope)

theorem Scope.explained_structOf (name : String) (span : Span) : Explained (s.structOf name span) := by
  unfold structOf
  split
  · exact .pure _
  · exact .giveUp _ span

theorem UnaryOp.explained_check (op : UnaryOp) (span : Span) (ty : Ty) : Explained (op.check span ty) := by
  unfold UnaryOp.check
  split
  · exact .pure _
  · exact .pure _
  · exact .pure _
  · exact .giveUp _ span

theorem Ty.explained_checkStruct (span : Span) (ty : Ty) : Explained (ty.checkStruct span) := by
  unfold checkStruct
  split
  · exact .pure _
  · exact ⟨fun none => by simp at none, .error _ span _⟩
  · exact .giveUp _ span

theorem StructDecl.explained_checkField (d : StructDecl) (name : String) (span : Span) :
    Explained (d.checkField name span) := by
  unfold checkField
  split
  · exact .pure _
  · exact .giveUp _ span

theorem Ty.checkIndexed_eq (baseSpan indexSpan : Span) (base index : Ty) :
    Ty.checkIndexed baseSpan indexSpan base index =
      ⟨base.pointee?, (if base.isPtr then [] else [(TypeFault.notIndexable base).at baseSpan]) ++
        if index.isInt then [] else [(TypeFault.indexNotInt index).at indexSpan]⟩ := by
  cases base <;> cases index <;> rfl

theorem Ty.explained_checkIndexed (baseSpan indexSpan : Span) (base index : Ty) :
    Explained (Ty.checkIndexed baseSpan indexSpan base index) := by
  rw [checkIndexed_eq]
  refine ⟨fun none => ?_, .append ?_ ?_⟩
  · cases base <;> simp_all [Ty.isPtr, pointee?]
  · split
    · exact .nil
    · exact .error _ baseSpan []
  · split
    · exact .nil
    · exact .error _ indexSpan []

theorem Signature.explained_checkCount (f : Signature) (span : Span) (count : Nat) :
    Explained (f.checkCount o span count) := by
  unfold checkCount
  split
  · exact .report _ span
  · exact .pure ()

/-- An index is looked at even if what it is applied to gave up. -/
theorem Expr.check_index (span : Span) (base offset : Expr) :
    (Expr.index span base offset).check o s =
      match (base.check o s).result, (offset.check o s).result with
      | some baseTy, some offsetTy =>
        let indexed := Ty.checkIndexed base.span offset.span baseTy offsetTy
        ⟨indexed.result, (base.check o s).reports ++ ((offset.check o s).reports ++ indexed.reports)⟩
      | _, _ => ⟨none, (base.check o s).reports ++ (offset.check o s).reports⟩ := by
  rw [Expr.check]
  cases left : (base.check o s).result <;> cases right : (offset.check o s).result <;>
    simp [Bind.bind, Check.bind, attempt, left, right]

mutual

theorem explained_check : (e : Expr) → Explained (e.check o s)
  | .int .. | .float .. | .string .. => .pure _
  | .variable span name => by
    unfold Expr.check
    split
    · exact .pure _
    · exact .giveUp _ span
  | .assign span target value => by
    unfold Expr.check
    exact .bind (explained_check target) fun _ => .bind (explained_check value) fun _ =>
      .bind (.same ..) fun _ => .pure _
  | .binary span op lhs rhs => by
    unfold Expr.check
    refine .bind (explained_check lhs) fun _ => .bind (explained_check rhs) fun _ => ?_
    split
    · exact .pure _
    · exact .giveUp _ span
  | .unary span op operand => by
    unfold Expr.check
    exact .bind (explained_check operand) fun ty => op.explained_check _ ty
  | .call span callee calleeSpan args => by
    unfold Expr.check
    split
    · exact .giveUp _ calleeSpan
    · exact .bind (explained_checkArgs _ args) fun _ => .bind (Signature.explained_checkCount o ..) fun _ =>
        .pure _
  | .field span base name => by
    unfold Expr.check
    exact .bind (explained_check base) fun ty => .bind (ty.explained_checkStruct _) fun _ =>
      .bind (s.explained_structOf ..) fun d => d.explained_checkField ..
  | .index span base offset => by
    have first := explained_check base
    have second := explained_check offset
    rw [Expr.check_index]
    cases left : (base.check o s).result with
    | none =>
      refine ⟨fun none => ?_, first.faulty.append second.faulty⟩
      have reported := first.result (List.append_eq_nil_iff.mp none).1
      simp [left] at reported
    | some baseTy =>
      cases right : (offset.check o s).result with
      | none =>
        refine ⟨fun none => ?_, first.faulty.append second.faulty⟩
        have reported := second.result (List.append_eq_nil_iff.mp none).2
        simp [right] at reported
      | some offsetTy =>
        have indexed := Ty.explained_checkIndexed base.span offset.span baseTy offsetTy
        refine ⟨fun none => indexed.result ?_, first.faulty.append (second.faulty.append indexed.faulty)⟩
        exact (List.append_eq_nil_iff.mp (List.append_eq_nil_iff.mp none).2).2
  | .struct span name inits => by
    unfold Expr.check
    refine .bind (s.explained_structOf ..) fun d => ?_
    split
    · exact .bind (explained_checkInits d inits) fun _ => .pure _
    · exact .bind (.pure ()) fun _ => .pure _
termination_by structural e => e

theorem explained_checkArgs (params : List Param) : (args : List Expr) →
    Explained (checkArgs o s params args)
  | [] => by
    unfold checkArgs
    exact .pure ()
  | arg :: args => by
    unfold checkArgs
    split
    · exact .report _ arg.span
    · refine .bind (explained_check arg).attempt fun result => ?_
      split
      · exact .bind (.pure ()) fun _ => explained_checkArgs _ args
      · exact .bind (.same ..) fun _ => explained_checkArgs _ args
termination_by structural args => args

theorem explained_checkInits (d : StructDecl) : (inits : List FieldInit) →
    Explained (checkInits o s d inits)
  | [] => by
    unfold checkInits
    exact .pure ()
  | init :: inits => by
    unfold checkInits
    exact .bind (explained_checkInit d init) fun _ => explained_checkInits d inits
termination_by structural inits => inits

theorem explained_checkInit (d : StructDecl) : (init : FieldInit) → Explained (checkInit o s d init)
  | ⟨name, value, span⟩ => by
    unfold checkInit
    split
    · exact .report _ span
    · refine .bind (explained_check value).attempt fun result => ?_
      split
      · exact .pure ()
      · exact .same ..
termination_by structural init => init

end

end Explained

section Expressions

variable (o : Strictness) (s : Scope)

theorem structOf_clean_iff {name : String} {span : Span} {d : StructDecl} :
    s.structOf name span = ⟨some d, []⟩ ↔ s.context.structs name = some d := by
  change _ ↔ s.structs.get? name = some d
  unfold Scope.structOf
  cases s.structs.get? name <;> simp [Check.pure]

theorem checkStruct_clean_iff {span : Span} {ty : Ty} {name : String} :
    ty.checkStruct span = ⟨some name, []⟩ ↔ ty = .struct name := by
  cases ty <;> simp [Ty.checkStruct, Check.pure]

theorem checkField_clean_iff {d : StructDecl} {name : String} {span : Span} {ty : Ty} :
    d.checkField name span = ⟨some ty, []⟩ ↔
      ∃ index field, d.field? name = some (index, field) ∧ field.ty = ty := by
  unfold StructDecl.checkField
  cases d.field? name with
  | none => simp
  | some entry =>
    obtain ⟨index, field⟩ := entry
    simp [Check.pure, and_assoc]

theorem checkCount_clean_iff {f : Signature} {span : Span} {count : Nat} {u : Unit} :
    f.checkCount o span count = ⟨some u, []⟩ ↔ (o.missingArguments = true → f.params.length ≤ count) := by
  unfold Signature.checkCount
  split <;> simp_all [report, Check.pure]

/-- Where a check that gave up is passed over, it was not clean. -/
theorem attempt_bind_clean_iff {α : Type} {check : Check α} (explained : Explained check)
    {next : Option α → Check Unit} {u : Unit} :
    (check.attempt >>= next) = ⟨some u, []⟩ ↔
      ∃ a, check = ⟨some a, []⟩ ∧ next (some a) = ⟨some u, []⟩ := by
  obtain ⟨result, reports⟩ := check
  rw [bind_eq_clean_iff]
  constructor
  · rintro ⟨attempted, clean, rest⟩
    simp only [attempt, Check.mk.injEq, Option.some.injEq] at clean
    obtain ⟨rfl, rfl⟩ := clean
    cases result with
    | none => simpa using explained.result rfl
    | some a => exact ⟨a, rfl, rest⟩
  · rintro ⟨a, clean, rest⟩
    obtain ⟨rfl, rfl⟩ := Check.mk.inj clean
    exact ⟨some a, rfl, rest⟩

mutual

theorem check_clean_iff : (e : Expr) → (ty : Ty) →
    (e.check o s = ⟨some ty, []⟩ ↔ HasType o s.context e ty)
  | .int span value, ty => by simp [Expr.check, Check.pure, HasType.int_iff]
  | .float span value, ty => by simp [Expr.check, Check.pure, HasType.float_iff]
  | .string span value, ty => by simp [Expr.check, Check.pure, HasType.string_iff]
  | .variable span name, ty => by
    rw [HasType.variable_iff, Expr.check]
    change _ ↔ s.lookup name = some ty
    cases s.lookup name <;> simp [Check.pure]
  | .assign span target value, ty => by
    simp only [Expr.check, bind_eq_clean_iff, check_clean_iff target, check_clean_iff value,
      same_eq_clean_iff, pure_eq_clean_iff, HasType.assign_iff]
    constructor
    · rintro ⟨_, left, _, right, _, rfl, rfl⟩
      exact ⟨left, right⟩
    · rintro ⟨left, right⟩
      exact ⟨_, left, _, right, (), rfl, rfl⟩
  | .binary span op lhs rhs, ty => by
    simp only [Expr.check, bind_eq_clean_iff, check_clean_iff lhs, check_clean_iff rhs,
      HasType.binary_iff]
    constructor
    · rintro ⟨left, typed, right, typed', clean⟩
      split at clean
      · rename_i same
        exact ⟨left, typed, same ▸ typed', pure_eq_clean_iff.mp clean⟩
      · simp at clean
    · rintro ⟨operand, left, right, rfl⟩
      exact ⟨operand, left, operand, right, by simp⟩
  | .unary span op operand, ty => by
    simp only [Expr.check, bind_eq_clean_iff, check_clean_iff operand]
    cases op with
    | neg => simp [UnaryOp.check, Check.pure, HasType.neg_iff]
    | ref => simp [UnaryOp.check, Check.pure, HasType.ref_iff]
    | deref =>
      rw [HasType.deref_iff]
      constructor
      · rintro ⟨inner, typed, clean⟩
        cases inner <;> simp_all [UnaryOp.check, Check.pure]
      · intro typed
        exact ⟨_, typed, rfl⟩
  | .call span callee calleeSpan args, ty => by
    rw [HasType.call_iff, Expr.check]
    change _ ↔ ∃ f, s.functions.get? callee = some f ∧ _
    cases s.functions.get? callee with
    | none => simp
    | some f =>
      simp only [bind_eq_clean_iff, checkArgs_clean_iff _ args, checkCount_clean_iff, pure_eq_clean_iff,
        Option.some.injEq, exists_eq_left']
      constructor
      · rintro ⟨_, typed, _, enough, same⟩
        exact ⟨typed, fun all => Nat.le_antisymm typed.length_le (enough all), same⟩
      · rintro ⟨typed, complete, same⟩
        exact ⟨(), typed, (), fun all => Nat.le_of_eq (complete all).symm, same⟩
  | .field span base name, ty => by
    simp only [Expr.check, bind_eq_clean_iff, check_clean_iff base, HasType.field_iff,
      checkStruct_clean_iff, structOf_clean_iff, checkField_clean_iff]
    constructor
    · rintro ⟨_, inner, struct, rfl, d, known, index, field, found, same⟩
      exact ⟨struct, d, index, field, inner, known, found, same⟩
    · rintro ⟨struct, d, index, field, inner, known, found, same⟩
      exact ⟨_, inner, struct, rfl, d, known, index, field, found, same⟩
  | .index span base offset, ty => by
    rw [HasType.index_iff, ← check_clean_iff base, Expr.check_index]
    simp only [← check_clean_iff offset]
    generalize base.check o s = first
    generalize offset.check o s = second
    obtain ⟨left, reports⟩ := first
    obtain ⟨right, reports'⟩ := second
    cases left with
    | none => simp
    | some baseTy =>
      cases right with
      | none => simp
      | some offsetTy =>
        simp only [Ty.checkIndexed_eq, Check.mk.injEq, List.append_eq_nil_iff, Option.some.injEq]
        cases baseTy <;> cases offsetTy <;> simp [Ty.pointee?, Ty.isPtr, Ty.isInt, and_assoc, and_comm]
  | .struct span name inits, ty => by
    simp only [Expr.check, bind_eq_clean_iff, structOf_clean_iff, HasType.struct_iff]
    refine exists_congr fun d => and_congr_right fun _ => ?_
    cases o.structLiterals with
    | false => simp
    | true => simp [bind_eq_clean_iff, checkInits_clean_iff d inits]
termination_by structural e => e

theorem checkArgs_clean_iff (params : List Param) : (args : List Expr) → (u : Unit) →
    (checkArgs o s params args = ⟨some u, []⟩ ↔ ArgsTyped o s.context params args)
  | [], u => by simp [checkArgs, Check.pure, ArgsTyped.nil]
  | arg :: args, u => by
    rw [ArgsTyped.cons_iff]
    cases params with
    | nil => simp [checkArgs, report]
    | cons param params =>
      simp only [checkArgs, attempt_bind_clean_iff (explained_check o s arg), bind_eq_clean_iff,
        checkArgs_clean_iff params args, same_eq_clean_iff, check_clean_iff arg]
      constructor
      · rintro ⟨got, typed, _, rfl, rest⟩
        exact ⟨param, params, rfl, typed, rest⟩
      · rintro ⟨_, _, ⟨rfl, rfl⟩, typed, rest⟩
        exact ⟨_, typed, (), rfl, rest⟩
termination_by structural args => args

theorem checkInits_clean_iff (d : StructDecl) : (inits : List FieldInit) → (u : Unit) →
    (checkInits o s d inits = ⟨some u, []⟩ ↔ InitsTyped o s.context d inits)
  | [], u => by simp [checkInits, Check.pure, InitsTyped.nil]
  | init :: inits, u => by
    rw [InitsTyped.cons_iff, checkInits, bind_eq_clean_iff]
    simp only [checkInit_clean_iff d init, checkInits_clean_iff d inits]
    exact ⟨fun ⟨_, first, rest⟩ => ⟨first, rest⟩, fun ⟨first, rest⟩ => ⟨(), first, rest⟩⟩
termination_by structural inits => inits

theorem checkInit_clean_iff (d : StructDecl) : (init : FieldInit) → (u : Unit) →
    (checkInit o s d init = ⟨some u, []⟩ ↔
      ∃ index field, d.field? init.name = some (index, field) ∧ HasType o s.context init.value field.ty)
  | ⟨name, value, span⟩, u => by
    rw [checkInit]
    cases d.field? name with
    | none => simp [report]
    | some entry =>
      obtain ⟨index, field⟩ := entry
      simp only [attempt_bind_clean_iff (explained_check o s value), same_eq_clean_iff,
        check_clean_iff value, Option.some.injEq, Prod.mk.injEq]
      constructor
      · rintro ⟨got, typed, rfl⟩
        exact ⟨index, field, ⟨rfl, rfl⟩, typed⟩
      · rintro ⟨_, _, ⟨rfl, rfl⟩, typed⟩
        exact ⟨_, typed, rfl⟩
termination_by structural init => init

end

/-- An expression that is checked without a report has a type. -/
theorem check_reports_nil_iff (e : Expr) :
    (e.check o s).reports = [] ↔ ∃ ty, HasType o s.context e ty := by
  simp only [(explained_check o s e).reports_nil_iff, check_clean_iff]

end Expressions

end StructLang
