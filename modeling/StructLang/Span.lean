namespace StructLang

structure Span where
  start : Nat
  stop : Nat
  deriving DecidableEq, Repr, Inhabited

namespace Span

def join (a b : Span) : Span := ⟨min a.start b.start, max a.stop b.stop⟩

def size (s : Span) : Nat := s.stop - s.start

def isEmpty (s : Span) : Bool := s.size == 0

def render (s : Span) : String := toString s.start ++ ".." ++ toString s.stop

end Span

end StructLang
