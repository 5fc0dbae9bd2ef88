namespace StructLang

inductive Ty
  | ptr (target : Ty)
  | int (width : Nat)
  | float (width : Nat)
  | struct (name : String)
  | void
  deriving DecidableEq, Repr, Inhabited

namespace Ty

/-- The type of a comparison. No type name denotes it. -/
abbrev bool : Ty := .int 1

def ofName? : String → Option Ty
  | "i8" => some (.int 8)
  | "i16" => some (.int 16)
  | "i32" => some (.int 32)
  | "i64" => some (.int 64)
  | "f8" => some (.float 8)
  | "f16" => some (.float 16)
  | "f32" => some (.float 32)
  | "f64" => some (.float 64)
  | "void" => some .void
  | "str" => some (.ptr (.int 8))
  | _ => none

def ofName (name : String) : Ty := (ofName? name).getD (.struct name)

def pointee? : Ty → Option Ty
  | .ptr target => some target
  | _ => none

def structName? : Ty → Option String
  | .struct name => some name
  | _ => none

def isInt : Ty → Bool
  | .int _ => true
  | _ => false

def isFloat : Ty → Bool
  | .float _ => true
  | _ => false

def isPtr : Ty → Bool
  | .ptr _ => true
  | _ => false

def render : Ty → String
  | .ptr target => target.render ++ "*"
  | .int width => "i" ++ toString width
  | .float width => "f" ++ toString width
  | .struct name => name
  | .void => "void"

end Ty

end StructLang
