import StructLang.Ast
import StructLang.NameMap

namespace StructLang

/-- The binding that each name had when the block first bound it, the latest name first. -/
abbrev UndoLog := List (String × Option Ty)

structure Scope where
  names : NameMap Ty
  functions : NameMap Signature
  structs : NameMap StructDecl
  returns : Ty
  /-- One log for each open block, the innermost first. -/
  frames : List UndoLog

namespace Scope

def empty : Scope := ⟨.empty, .empty, .empty, .void, []⟩

instance : Inhabited Scope := ⟨empty⟩

def registerFunction (s : Scope) (f : Signature) : Scope :=
  { s with functions := s.functions.insert f.name f }

def registerStruct (s : Scope) (d : StructDecl) : Scope :=
  { s with structs := s.structs.insert d.name d }

def enterFunction (s : Scope) (f : Signature) : Scope :=
  { s with
    names := f.params.foldl (fun names p => names.insert p.name p.ty) .empty
    frames := []
    returns := f.returns }

def lookup (s : Scope) (name : String) : Option Ty := s.names.get? name

/-- Binds a name. The innermost open block notes the binding it replaced, the first time only. -/
def bind (s : Scope) (name : String) (ty : Ty) : Scope :=
  { s with
    names := s.names.insert name ty
    frames :=
      match s.frames with
      | [] => []
      | frame :: outer =>
        if frame.any (·.1 == name) then frame :: outer
        else ((name, s.names.get? name) :: frame) :: outer }

def openBlock (s : Scope) : Scope := { s with frames := [] :: s.frames }

def undo (names : NameMap Ty) (log : UndoLog) : NameMap Ty :=
  log.foldl (fun names (name, previous) => names.set name previous) names

def closeBlock (s : Scope) : Scope :=
  match s.frames with
  | [] => s
  | frame :: outer => { s with names := undo s.names frame, frames := outer }

end Scope

end StructLang
