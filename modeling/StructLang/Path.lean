namespace StructLang

structure Path where
  names : List String
  deriving DecidableEq, Repr, Inhabited

namespace Path

def root : Path := ⟨[]⟩

def parent (p : Path) : Path := ⟨p.names.dropLast⟩

def child (p : Path) (name : String) : Path := ⟨p.names ++ [name]⟩

def render (p : Path) : String := "/" ++ "/".intercalate p.names

def isAbove (p q : Path) : Bool := p.names.isPrefixOf q.names && p != q

def parts (text : String) : List String := (text.toList.splitOn '/').map String.ofList

def isAbsolute (text : String) : Bool := text.startsWith "/"

def isBlank (part : String) : Bool := part == "" || part == "."

def follow (p : Path) (part : String) : Path :=
  if isBlank part then p else if part == ".." then p.parent else p.child part

def resolve (base : Path) (text : String) : Path :=
  (parts text).foldl follow (if isAbsolute text then root else base)

end Path

/-- The name of a file without the part from its last dot on; a leading dot belongs to the name. A
text that names no file stands for itself. -/
def fileStem (text : String) : String :=
  match ((Path.parts text).filter (!Path.isBlank ·)).getLast? with
  | none | some ".." => text
  | some name =>
    match name.toList.reverse.dropWhile (· != '.') with
    | [] | [_] => name
    | _ :: stem => String.ofList stem.reverse

/-- The text of the directory that a text stands in, written as the text has it. A text without a
directory stands in the empty one. -/
def directoryOf? (text : String) : Option String :=
  match Path.parts text with
  | [] => none
  | first :: rest =>
    match dropBlank rest with
    | [] => if first == "" then none else some ""
    | inner =>
      match first, dropBlank inner.dropLast with
      | "", [] => some "/"
      | first, inner => some ("/".intercalate (first :: inner))
where
  dropBlank (parts : List String) : List String := (parts.reverse.dropWhile Path.isBlank).reverse

end StructLang
