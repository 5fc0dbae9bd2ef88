import StructLang.Check.Checker
import StructLang.Imports
import StructLang.Ir.Extent
import StructLang.Lowering.Document
import StructLang.Machine.Run

namespace StructLang

structure Release where
  version : String
  backend : String
  targets : List String

def release : Release := ⟨"0.1.0", "cranelift", ["x86_64", "aarch64"]⟩

inductive CompileError
  | load (error : LoadError)
  | rejected (count : Nat) (report : String)
  | lowering (error : LoweringError)
  | layout (error : Ir.LayoutError)
  | invalid (error : Ir.ValidityError)
  | selection (error : Machine.SelectionError)
  deriving DecidableEq, Repr

namespace CompileError

def invalidIr (detail : String) : String := "invalid IR: " ++ detail

def message : CompileError → String
  | .load (.read error) => error.message
  | .load (.importing error) => "import error: " ++ error.message
  | .rejected count report => report ++ toString count ++ " error(s) reported"
  | .lowering (.invalid error) => invalidIr error.message
  | .lowering error => "internal error: " ++ error.message
  | .layout error => invalidIr error.message
  | .invalid error => invalidIr error.message
  | .selection (.fault fault) => invalidIr fault.message
  | .selection (.missing feature) => "not implemented: " ++ feature.message
  | .selection .rejected => "backend error: the code is not well formed"

end CompileError

structure Compiler where
  options : Strictness
  /-- Whether reports are colored. -/
  color : Bool
  deriving DecidableEq, Repr

namespace Compiler

def default : Compiler := ⟨.lenient, false⟩

def document (c : Compiler) (d : Document) (source : Source) : Except CompileError Ir.Module :=
  let checked := d.check c.options
  if checked.diagnostics.hasErrors then
    .error (.rejected checked.diagnostics.errorCount (checked.diagnostics.render source c.color))
  else
    (d.lower checked.scope c.options.blockScoping (fileStem source.name)).mapError .lowering

def loaded (load : Load [] Document) : Except CompileError Document :=
  match load .fresh with
  | .ok d _ => .ok d
  | .error e _ => .error (.load e)

def source (c : Compiler) (t : FileTree) (text name : String) : Except CompileError Ir.Module := do
  c.document (← loaded (Load.source t text none)) ⟨name, text⟩

def file (c : Compiler) (t : FileTree) (path : String) : Except CompileError Ir.Module := do
  let text ← (t.read path).mapError fun e => .load (.importing (.unreadableFile path e))
  c.document (← loaded (Load.source t text (some path))) ⟨path, text⟩

end Compiler

end StructLang
