import StructLang.Span
import StructLang.Text.Lines

namespace StructLang

structure Source where
  name : String
  text : String
  deriving DecidableEq, Repr, Inhabited

structure Location where
  line : Nat
  column : Nat
  deriving DecidableEq, Repr, Inhabited

namespace Source

/-- An offset belongs to the last line that starts at it or before it. -/
def location (source : Source) (offset : Nat) : Location :=
  let begun := (Text.lineStarts source.text.toList).filter (· ≤ offset)
  ⟨begun.length, offset - begun.getLastD 0 + 1⟩

/-- The text of a line without its end, empty for a line that does not exist. Line zero is read as
line one. -/
def line (source : Source) (number : Nat) : List Char :=
  (Text.lines source.text.toList).getD (number - 1) []

def slice (source : Source) (span : Span) : String :=
  String.ofList ((source.text.toList.drop span.start).take span.size)

end Source

end StructLang
