import StructLang.Source
import StructLang.Text.Blank

namespace StructLang

inductive Severity
  | note | warning | error
  deriving DecidableEq, Repr, Inhabited

namespace Severity

def rank : Severity → Nat
  | .note => 0
  | .warning => 1
  | .error => 2

def max (a b : Severity) : Severity := if a.rank < b.rank then b else a

def label : Severity → String
  | .note => "note"
  | .warning => "warning"
  | .error => "error"

def color : Severity → String
  | .note => "1;34"
  | .warning => "1;33"
  | .error => "1;31"

end Severity

structure Diagnostic where
  span : Span
  severity : Severity
  message : String
  deriving DecidableEq, Repr, Inhabited

namespace Diagnostic

def error (span : Span) (message : String) : Diagnostic := ⟨span, .error, message⟩

def note (span : Span) (message : String) : Diagnostic := ⟨span, .note, message⟩

def isError (d : Diagnostic) : Bool := d.severity = .error

def marker (column width : Nat) : List Char :=
  List.replicate (column - 1) ' ' ++ List.replicate (Nat.max width 1) '^'

def underline (line : List Char) (column width : Nat) : String :=
  String.ofList line ++ "\n" ++ String.ofList (marker column width)

def label (severity : Severity) (colored : Bool) : String :=
  if colored then "\x1b[" ++ severity.color ++ "m" ++ severity.label ++ ": \x1b[0m"
  else severity.label ++ ": "

def render (source : Source) (colored : Bool) (d : Diagnostic) : String :=
  let place := source.location d.span.start
  let line := source.line place.line
  let trimmed := Text.trimStart line
  let indent := line.length - trimmed.length
  label d.severity colored ++ source.name ++ ":" ++ toString place.line ++ ":" ++
    toString place.column ++ "\n" ++ underline trimmed (place.column - indent) d.span.size ++
    "  " ++ d.message ++ "\n"

end Diagnostic

structure Diagnostics where
  messages : List Diagnostic
  deriving DecidableEq, Repr, Inhabited

namespace Diagnostics

def empty : Diagnostics := ⟨[]⟩

def report (ds : Diagnostics) (d : Diagnostic) : Diagnostics := ⟨ds.messages ++ [d]⟩

def append (ds : Diagnostics) (more : List Diagnostic) : Diagnostics := ⟨ds.messages ++ more⟩

def size (ds : Diagnostics) : Nat := ds.messages.length

def isEmpty (ds : Diagnostics) : Bool := ds.messages.isEmpty

def hasErrors (ds : Diagnostics) : Bool := ds.messages.any Diagnostic.isError

def errorCount (ds : Diagnostics) : Nat := ds.messages.countP Diagnostic.isError

def mostSevere? (ds : Diagnostics) : Option Severity :=
  (ds.messages.map (·.severity)).foldl (fun found s => some ((found.getD s).max s)) none

def render (ds : Diagnostics) (source : Source) (colored : Bool) : String :=
  String.join (ds.messages.map (·.render source colored))

end Diagnostics

end StructLang
