import StructLang.Ir.FunctionBuilder
import StructLang.Ir.ModuleBuilder
import StructLang.Ir.Validity
import StructLang.Scope

namespace StructLang

inductive LoweringError
  | unknownVariable (name : String)
  | unknownFunction (name : String)
  | unknownStruct (name : String)
  | unknownField (struct field : String)
  | fieldType (struct field : String) (expected found : Ir.Ty)
  | voidValue (what : String)
  | unsupported (operation : String) (ty : Ty)
  | invalid (error : Ir.ValidityError)
  deriving DecidableEq, Repr

def LoweringError.message : LoweringError → String
  | .unknownVariable name => "unknown variable '" ++ name ++ "'"
  | .unknownFunction name => "unknown function '" ++ name ++ "'"
  | .unknownStruct name => "unknown structure '" ++ name ++ "'"
  | .unknownField struct field => "structure '" ++ struct ++ "' has no field '" ++ field ++ "'"
  | .fieldType struct field expected found =>
    "field '" ++ field ++ "' of '" ++ struct ++ "' has type " ++ expected.render ++ ", got " ++ found.render
  | .voidValue what => "call to '" ++ what ++ "' produces no value"
  | .unsupported operation ty => "operator '" ++ operation ++ "' cannot be applied to " ++ ty.render
  | .invalid error => error.message

/-- A value with its source type, which tells what a pointer points to. -/
structure Typed where
  value : Ir.Value
  ty : Ty
  deriving DecidableEq, Repr

structure FunctionState where
  module : Ir.ModuleBuilder
  function : Ir.FunctionBuilder
  /-- The address and the source type of every local name. -/
  locals : NameMap Typed

/-- Lowering keeps what it has written to the module even when it fails. -/
abbrev Lower := EStateM LoweringError FunctionState

namespace Lower

inductive Want
  | value | address
  deriving DecidableEq, Repr

def build {α : Type} (step : Ir.FunctionBuilder → α × Ir.FunctionBuilder) : Lower α :=
  modifyGet fun s =>
    let (made, function) := step s.function
    (made, { s with function := function })

def write (step : Ir.FunctionBuilder → Ir.FunctionBuilder) : Lower Unit :=
  modify fun s => { s with function := step s.function }

def isTerminated : Lower Bool := return (← get).function.isTerminated

def terminate (t : Ir.Terminator) : Lower Unit := write (·.terminate t)

def branchTo (block : Nat) : Lower Unit := do
  unless ← isTerminated do terminate (.br block)

def continueIn (block : Nat) : Lower Unit := do
  write (·.append block)
  write (·.switchTo block)

def bindLocal (name : String) (slot : Ir.Value) (ty : Ty) : Lower Unit :=
  modify fun s => { s with locals := s.locals.insert name ⟨slot, ty⟩ }

def inScope (blockScoping : Bool) (body : Lower Unit) : Lower Unit := do
  let before := (← get).locals
  body
  if blockScoping then modify fun s => { s with locals := before }

end Lower

end StructLang
