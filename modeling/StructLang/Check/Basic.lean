import StructLang.Diagnostic
import StructLang.Scope

namespace StructLang

structure Strictness where
  /-- A call has to pass every argument. -/
  missingArguments : Bool
  /-- The fields of a struct literal are checked against the declaration. -/
  structLiterals : Bool
  /-- Each block has its own scope; otherwise a function has a single one. -/
  blockScoping : Bool
  deriving DecidableEq, Repr, Inhabited

namespace Strictness

def lenient : Strictness := ⟨false, false, false⟩

def strict : Strictness := ⟨true, true, true⟩

end Strictness

inductive TypeFault
  | mismatch (expected got : Ty)
  | notInt (got : Ty)
  | notPointer (got : Ty)
  | notStruct (got : Ty)
  | notIndexable (got : Ty)
  | indexNotInt (got : Ty)
  | unknownVariable
  | unknownFunction
  | unknownStruct (name : String)
  | unknownField
  | extraArgument
  | missingArguments (names : List String)
  deriving DecidableEq, Repr

def TypeFault.message : TypeFault → String
  | .mismatch expected got =>
    "unmatched types, expected " ++ expected.render ++ " and got " ++ got.render
  | .notInt got => "expected int type, got " ++ got.render
  | .notPointer got => "cannot dereference non-pointer type (" ++ got.render ++ ")"
  | .notStruct got => "must be struct for dot operator (" ++ got.render ++ ")"
  | .notIndexable got => "must be pointer to access values (" ++ got.render ++ ")"
  | .indexNotInt got => "must be an integer (" ++ got.render ++ ")"
  | .unknownVariable => "variable name not in scope"
  | .unknownFunction => "function name not in scope"
  | .unknownStruct name => "unknown structure '" ++ name ++ "'"
  | .unknownField => "field not found in structure"
  | .extraArgument => "extra argument"
  | .missingArguments names => "missing argument(s): " ++ ", ".intercalate names

def arrowHint : String := "did you mean to use '->'?"

def TypeFault.at (fault : TypeFault) (span : Span) : Diagnostic := .error span fault.message

structure Check (α : Type) where
  result : Option α
  reports : List Diagnostic

namespace Check

variable {α β : Type}

def pure (a : α) : Check α := ⟨some a, []⟩

def bind (check : Check α) (next : α → Check β) : Check β :=
  match check.result with
  | none => ⟨none, check.reports⟩
  | some a => ⟨(next a).result, check.reports ++ (next a).reports⟩

instance : Monad Check where
  pure := pure
  bind := bind

def report (d : Diagnostic) : Check Unit := ⟨some (), [d]⟩

def giveUp (d : Diagnostic) : Check α := ⟨none, [d]⟩

def attempt (check : Check α) : Check (Option α) := ⟨some check.result, check.reports⟩

def same (span : Span) (expected got : Ty) : Check Unit :=
  if expected = got then pure () else report ((TypeFault.mismatch expected got).at span)

end Check

end StructLang
