import StructLang.Check.Basic

namespace StructLang

namespace Scope

def structOf (s : Scope) (name : String) (span : Span) : Check StructDecl :=
  match s.structs.get? name with
  | some d => .pure d
  | none => .giveUp ((TypeFault.unknownStruct name).at span)

end Scope

def BinaryOp.resultTy (op : BinaryOp) (operand : Ty) : Ty :=
  if op.isComparison then .bool else operand

def UnaryOp.check (op : UnaryOp) (span : Span) (operand : Ty) : Check Ty :=
  match op, operand with
  | .neg, ty => .pure ty
  | .ref, ty => .pure (.ptr ty)
  | .deref, .ptr target => .pure target
  | .deref, other => .giveUp ((TypeFault.notPointer other).at span)

def Ty.checkStruct (span : Span) : Ty → Check String
  | .struct name => .pure name
  | .ptr target => ⟨none, [(TypeFault.notStruct (.ptr target)).at span, .note span arrowHint]⟩
  | other => .giveUp ((TypeFault.notStruct other).at span)

def StructDecl.checkField (d : StructDecl) (name : String) (span : Span) : Check Ty :=
  match d.field? name with
  | some (_, field) => .pure field.ty
  | none => .giveUp (TypeFault.unknownField.at span)

/-- The element of an indexed pointer; the index is checked even if there is none. -/
def Ty.checkIndexed (baseSpan indexSpan : Span) (base index : Ty) : Check Ty := do
  let element ← match base with
    | .ptr target => Check.attempt (.pure target)
    | other => Check.attempt (.giveUp ((TypeFault.notIndexable other).at baseSpan))
  unless index.isInt do Check.report ((TypeFault.indexNotInt index).at indexSpan)
  ⟨element, []⟩

def Signature.checkCount (options : Strictness) (f : Signature) (span : Span) (count : Nat) :
    Check Unit :=
  if options.missingArguments ∧ count < f.params.length then
    .report ((TypeFault.missingArguments ((f.params.drop count).map (·.name))).at span)
  else .pure ()

mutual

def Expr.check (options : Strictness) (scope : Scope) : Expr → Check Ty
  | .assign span target value => do
    let left ← target.check options scope
    let right ← value.check options scope
    Check.same span left right
    return left
  | .binary span op lhs rhs => do
    let left ← lhs.check options scope
    let right ← rhs.check options scope
    if left = right then return op.resultTy left
    else .giveUp ((TypeFault.mismatch left right).at span)
  | .unary _ op operand => do
    let ty ← operand.check options scope
    op.check operand.span ty
  | .call span callee calleeSpan args =>
    match scope.functions.get? callee with
    | none => .giveUp (TypeFault.unknownFunction.at calleeSpan)
    | some f => do
      checkArgs options scope f.params args
      f.checkCount options span args.length
      return f.returns
  | .variable span name =>
    match scope.lookup name with
    | some ty => .pure ty
    | none => .giveUp (TypeFault.unknownVariable.at span)
  | .field _ base name => do
    let ty ← base.check options scope
    let struct ← ty.checkStruct base.span
    let d ← scope.structOf struct base.span
    d.checkField name base.span
  | .index _ base offset => do
    let baseTy ← Check.attempt (base.check options scope)
    let offsetTy ← Check.attempt (offset.check options scope)
    match baseTy, offsetTy with
    | some baseTy, some offsetTy => Ty.checkIndexed base.span offset.span baseTy offsetTy
    | _, _ => ⟨none, []⟩
  | .int .. => .pure (.int 64)
  | .float .. => .pure (.float 64)
  | .string .. => .pure (.ptr (.int 8))
  | .struct span name inits => do
    let d ← scope.structOf name span
    if options.structLiterals then checkInits options scope d inits
    return .struct name
termination_by structural e => e

/-- Each argument against its parameter; the first argument without one ends the check. -/
def checkArgs (options : Strictness) (scope : Scope) (params : List Param) : List Expr → Check Unit
  | [] => .pure ()
  | arg :: args =>
    match params with
    | [] => .report (TypeFault.extraArgument.at arg.span)
    | param :: params => do
      match ← Check.attempt (arg.check options scope) with
      | none => Check.pure ()
      | some got => Check.same arg.span param.ty got
      checkArgs options scope params args
termination_by structural args => args

def checkInits (options : Strictness) (scope : Scope) (d : StructDecl) :
    List FieldInit → Check Unit
  | [] => .pure ()
  | init :: inits => do
    checkInit options scope d init
    checkInits options scope d inits
termination_by structural inits => inits

/-- The value of a field against its declaration; that of an unknown field is not checked. -/
def checkInit (options : Strictness) (scope : Scope) (d : StructDecl) : FieldInit → Check Unit
  | ⟨name, value, span⟩ =>
    match d.field? name with
    | none => .report (TypeFault.unknownField.at span)
    | some (_, field) => do
      match ← Check.attempt (value.check options scope) with
      | none => Check.pure ()
      | some got => Check.same value.span field.ty got
termination_by structural init => init

end

end StructLang
