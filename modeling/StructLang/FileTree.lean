import StructLang.Path

namespace StructLang

inductive File
  | text (content : String)
  | binary
  deriving DecidableEq, Repr, Inhabited

def File.ofBytes (bytes : ByteArray) : File :=
  match String.fromUTF8? bytes with
  | some content => .text content
  | none => .binary

inductive FileError
  | notFound
  | isDirectory
  | notDirectory
  | exists
  | notText
  deriving DecidableEq, Repr

def FileError.message : FileError → String
  | .notFound => "No such file or directory (os error 2)"
  | .isDirectory => "Is a directory (os error 21)"
  | .notDirectory => "Not a directory (os error 20)"
  | .exists => "File exists (os error 17)"
  | .notText => "stream did not contain valid UTF-8"

structure FileTree where
  files : List (Path × File)
  directories : List Path
  /-- The directory that relative paths start from. -/
  current : Path
  deriving DecidableEq, Repr, Inhabited

namespace FileTree

def file? (t : FileTree) (p : Path) : Option File := t.files.lookup p

def isDirectory (t : FileTree) (p : Path) : Bool :=
  p == .root || p == t.current || p.isAbove t.current ||
    t.directories.any (fun d => p == d || p.isAbove d) || t.files.any fun (f, _) => p.isAbove f

def has (t : FileTree) (p : Path) : Bool := (t.file? p).isSome || t.isDirectory p

/-- The directory that paths in a file start from: the one it stands in, or the place itself where that is
a directory. -/
def baseAt (t : FileTree) (p : Path) : Path := if t.isDirectory p then p else p.parent

def enter (t : FileTree) (p : Path) (part : String) : Except FileError Path :=
  if !t.isDirectory p then .error .notDirectory
  else if t.has (p.follow part) then .ok (p.follow part)
  else .error .notFound

def walkFrom (t : FileTree) (p : Path) (parts : List String) : Except FileError Path :=
  parts.foldlM t.enter p

def start (t : FileTree) (text : String) : Path := if Path.isAbsolute text then .root else t.current

def walk (t : FileTree) (text : String) : Except FileError Path :=
  if text.isEmpty then .error .notFound else t.walkFrom (t.start text) (Path.parts text)

def readAt (t : FileTree) (p : Path) : Except FileError String :=
  match t.file? p with
  | some (.text content) => .ok content
  | some .binary => .error .notText
  | none => .error (if t.isDirectory p then .isDirectory else .notFound)

def read (t : FileTree) (text : String) : Except FileError String := t.walk text >>= t.readAt

/-- The directory that holds what a text names, and the last name; a text that ends in dots names a
directory itself. -/
def locate (t : FileTree) (text : String) : Except FileError (Path × String) := do
  if text.isEmpty then throw .notFound
  let parts := (Path.parts text).reverse.dropWhile (· == "")
  let directory ← t.walkFrom (t.start text) parts.tail.reverse
  if !t.isDirectory directory then throw .notDirectory
  return (directory, parts.headD ".")

def isDots (name : String) : Bool := name == "." || name == ".."

def makeDirectory (t : FileTree) (text : String) : Except FileError FileTree := do
  let (directory, name) ← t.locate text
  if isDots name || t.has (directory.child name) then throw .exists
  return { t with directories := t.directories ++ [directory.child name] }

def ensureDirectory (t : FileTree) (text : String) : Except FileError FileTree :=
  match t.makeDirectory text with
  | .ok made => .ok made
  | .error e => if (t.walk text).toOption.any t.isDirectory then .ok t else .error e

def makeDirectoriesWithin (t : FileTree) : Nat → String → Except FileError FileTree
  | depth, text =>
    if text.isEmpty then .ok t
    else
      match t.ensureDirectory text, depth with
      | .error .notFound, depth + 1 =>
        match directoryOf? text with
        | none => .error .notFound
        | some above => do
          let t ← makeDirectoriesWithin t depth above
          t.ensureDirectory text
      | result, _ => result

def makeDirectories (t : FileTree) (text : String) : Except FileError FileTree :=
  t.makeDirectoriesWithin text.length text

def write (t : FileTree) (text : String) (content : File) : Except FileError FileTree := do
  let (directory, name) ← t.locate text
  if isDots name || text.endsWith "/" || t.isDirectory (directory.child name) then throw .isDirectory
  let p := directory.child name
  return { t with files := t.files.filter (·.1 != p) ++ [(p, content)] }

end FileTree

end StructLang
