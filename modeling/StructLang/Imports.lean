import StructLang.FileTree
import StructLang.Parse.Document

namespace StructLang

namespace Decl

def importPath? : Decl → Option String
  | .importOf path _ | .imported path _ _ => some path
  | _ => none

def attach (document : Document) : Decl → Decl
  | .importOf path span | .imported path span _ => .imported path span document
  | d => d

end Decl

inductive ImportError
  | unreadableFile (path : String) (error : FileError)
  | unreadable (path : Path) (error : FileError)
  | notFound (path : Path)
  | circular (chain : List Path)
  | faulty (path : Path) (error : ReadError)
  deriving DecidableEq, Repr

def ImportError.message : ImportError → String
  | .unreadableFile path error => "failed to read '" ++ path ++ "': " ++ error.message
  | .unreadable path error => "failed to read import '" ++ path.render ++ "': " ++ error.message
  | .notFound path => "import not found: '" ++ path.render ++ "'"
  | .circular chain => "circular import detected: " ++ " -> ".intercalate (chain.map Path.render)
  | .faulty path error => "in '" ++ path.render ++ "': " ++ error.message

inductive LoadError
  | read (error : ReadError)
  | importing (error : ImportError)
  deriving DecidableEq, Repr

/-- What loading keeps: the files loaded so far, and those being loaded, the outermost first. -/
structure Loader where
  loaded : List Path
  active : List Path
  deriving DecidableEq, Repr

structure Loader.At (files : List Path) extends Loader where
  active_eq : active = files

namespace Loader.At

variable {active : List Path} {p : Path}

def fresh : At [] := ⟨⟨[], []⟩, rfl⟩

def push (l : At active) (p : Path) : At (active ++ [p]) :=
  ⟨{ l.toLoader with active := l.active ++ [p] }, by rw [l.active_eq]⟩

def pop (l : At (active ++ [p])) : At active :=
  ⟨{ l.toLoader with active := l.active.dropLast }, by rw [l.active_eq, List.dropLast_concat]⟩

def mark (l : At active) (p : Path) : At active := ⟨{ l.toLoader with loaded := l.loaded.insert p }, l.active_eq⟩

end Loader.At

/-- Loading while the files `active` are being loaded. Whatever comes of it, they are the files being
loaded afterwards. -/
abbrev Load (active : List Path) := EStateM LoadError (Loader.At active)

namespace Load

variable {active : List Path}

def failed {α : Type} (e : ImportError) : Load active α := throw (.importing e)

def ofExcept {ε α : Type} (error : ε → LoadError) : (result : Except ε α) → Load active { a // result = .ok a }
  | .ok a => return ⟨a, rfl⟩
  | .error e => throw (error e)

def within {α : Type} (p : Path) (load : Load (active ++ [p]) α) : Load active α := fun l =>
  match load (l.push p) with
  | .ok a l => .ok a l.pop
  | .error e l => .error e l.pop

def expand (load : Path → Load active Document) (base : Path) : Document → Load active Document
  | [] => return []
  | d :: rest => do
    match d.importPath? with
    | none => return d :: (← expand load base rest)
    | some path => do
      let document ← load (base.resolve path)
      return d.attach document :: (← expand load base rest)

end Load

namespace FileTree

def idle (t : FileTree) (active : List Path) : Nat := (t.files.filter (·.1 ∉ active)).length

theorem file?_of_readAt {t : FileTree} {p : Path} {content : String} (read : t.readAt p = .ok content) :
    t.file? p = some (.text content) := by
  unfold readAt at read
  split at read
  · cases read
    assumption
  · cases read
  · cases read

/-- A file that is read has been idle. -/
theorem idle_lt {t : FileTree} {active : List Path} {p : Path} {content : String} (read : t.readAt p = .ok content)
    (new : p ∉ active) : t.idle (active ++ [p]) < t.idle active := by
  obtain ⟨front, back, files, -⟩ := List.lookup_eq_some_iff.mp (file?_of_readAt read)
  have fewer : t.files.filter (·.1 ∉ active ++ [p]) = (t.files.filter (·.1 ∉ active)).filter (·.1 ≠ p) := by
    rw [List.filter_filter]
    apply List.filter_congr
    simp [and_comm]
  rw [idle, idle, fewer, List.length_filter_lt_length_iff_exists]
  exact ⟨(p, .text content), by simp [files, new], by simp⟩

end FileTree

namespace Load

/-- Loads the file that an import names. A file that is opened is active then and was not before, so that
fewer files are idle. -/
def importAt (t : FileTree) (active : List Path) (target : Path) : Load active Document := do
  let loader ← get
  if !t.has target then failed (.notFound target)
  else if busy : target ∈ loader.active then failed (.circular (loader.active ++ [target]))
  else if target ∈ loader.loaded then return []
  else
    let ⟨content, read⟩ ← ofExcept (.importing ∘ .unreadable target) (t.readAt target)
    have := FileTree.idle_lt read (loader.active_eq ▸ busy)
    let document ← within target do
      let ⟨parsed, _⟩ ← ofExcept (.importing ∘ .faulty target) (parse content)
      expand (importAt t (active ++ [target])) (t.baseAt target) parsed
    modify (·.mark target)
    return document
termination_by t.idle active

def document (t : FileTree) (base : Path) (text : String) : Load active Document := do
  let ⟨parsed, _⟩ ← ofExcept .read (parse text)
  expand (importAt t active) base parsed

def rootOf (t : FileTree) (origin : Option String) : Option Path :=
  origin.bind fun path => (t.walk path).toOption

def baseOf (t : FileTree) (origin : Option String) : Path :=
  (origin.map fun path => t.baseAt (t.current.resolve path)).getD t.current

/-- A text with its imports. The file that it comes from counts as loaded. -/
def source (t : FileTree) (text : String) (origin : Option String) : Load active Document :=
  match rootOf t origin with
  | none => document t (baseOf t origin) text
  | some root => do
    modify (·.mark root)
    within root (document t (baseOf t origin) text)

def file (t : FileTree) (path : String) : Load active Document := do
  let ⟨text, _⟩ ← ofExcept (.importing ∘ .unreadableFile path) (t.read path)
  source t text (some path)

end Load

end StructLang
