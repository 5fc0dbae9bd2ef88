import StructLang.Compiler
import StructLang.Ir.Text

namespace StructLang

structure Invocation where
  source : Option String
  emitIr : Bool
  emitObject : Option String
  run : Bool
  strict : Bool
  deriving DecidableEq, Repr

inductive Request
  | help
  | compile (invocation : Invocation)
  deriving DecidableEq, Repr

def usage : String :=
  "usage: llgen <file.ll> [--emit-ir] [--emit-obj <path>] [--run] [--strict]"

inductive CommandError
  | usage
  | missingObjectPath
  | unknownOption (option : String)
  | manySources
  | compile (error : CompileError)
  | objectCode (error : CompileError)
  | directory (path : String) (error : FileError)
  | output (path : String) (error : FileError)
  | execution (error : Machine.RunError)
  deriving DecidableEq, Repr

def runErrorMessage : Machine.RunError → String
  | .selection error => (CompileError.selection error).message
  | .trap .divisionByZero => "division by zero"
  | .trap .divisionOverflow => "division overflow"
  | .trap .badAddress => "access outside of memory"
  | .trap .unreachable => "end of a function that returns a value"
  | .trap (.foreignCall name) => "call of external function '" ++ name ++ "'"
  | .outOfFuel => "step limit reached"

def CommandError.message : CommandError → String
  | .usage => StructLang.usage
  | .missingObjectPath => "--emit-obj requires a path"
  | .unknownOption option => "unknown option '" ++ option ++ "'"
  | .manySources => "multiple source paths provided"
  | .compile error => error.message
  | .objectCode error => "object generation failed: " ++ error.message
  | .directory path error => "failed to create output directory '" ++ path ++ "': " ++ error.message
  | .output path error => "failed to write output file '" ++ path ++ "': " ++ error.message
  | .execution error => "jit execution failed: " ++ runErrorMessage error

namespace CommandLine

def objectOption : String := "--emit-obj="

def readArgs (i : Invocation) : List String → Except CommandError Request
  | [] => if i.source.isSome then .ok (.compile i) else .error .usage
  | "--emit-ir" :: rest => readArgs { i with emitIr := true } rest
  | "--run" :: rest => readArgs { i with run := true } rest
  | "--strict" :: rest => readArgs { i with strict := true } rest
  | ["--emit-obj"] => .error .missingObjectPath
  | "--emit-obj" :: path :: rest => readArgs { i with emitObject := some path } rest
  | "--help" :: _ | "-h" :: _ => .ok .help
  | arg :: rest =>
    if arg.startsWith objectOption then
      readArgs { i with emitObject := some (arg.drop objectOption.length).toString } rest
    else if arg.startsWith "--" then .error (.unknownOption arg)
    else if i.source.isSome then .error .manySources
    else readArgs { i with source := some arg } rest

def request (args : List String) : Except CommandError Request :=
  readArgs ⟨none, false, none, false, false⟩ args

structure Progress where
  printed : String
  files : FileTree

/-- What a command printed before an error stays printed. -/
abbrev Command := EStateM CommandError Progress

def print (text : String) : Command Unit := modify fun p => { p with printed := p.printed ++ text }

def ofExcept {ε α : Type} (error : ε → CommandError) : Except ε α → Command α
  | .ok a => return a
  | .error e => throw (error e)

def change (error : FileError → CommandError) (f : FileTree → Except FileError FileTree) :
    Command Unit := do
  let files ← ofExcept error (f (← get).files)
  modify ({ · with files := files })

def writeObject (m : Ir.Module) (path : String) : Command Unit := do
  let _ ← ofExcept (.objectCode ∘ .selection) (Machine.select m)
  match directoryOf? path with
  | some directory =>
    unless directory.isEmpty do change (.directory directory) (·.makeDirectories directory)
  | none => pure ()
  change (.output path) (·.write path (.text m.render))
  print ("wrote object file " ++ path ++ "\n")

def perform (color : Bool) (fuel : Nat) (i : Invocation) : Command Unit := do
  let compiler : Compiler := ⟨if i.strict then .strict else .lenient, color⟩
  let m ← ofExcept .compile (compiler.file (← get).files (i.source.getD ""))
  if i.emitIr then print m.render
  i.emitObject.forM (writeObject m)
  if i.run then
    let code ← ofExcept .execution (Machine.runMain m fuel)
    print ("program exited with code " ++ toString code.toInt ++ "\n")

def command (color : Bool) (fuel : Nat) (args : List String) : Command Unit := do
  match ← ofExcept id (request args) with
  | .help => print (usage ++ "\n")
  | .compile i => perform color fuel i

structure Outcome where
  code : UInt32
  output : String
  errors : String
  files : FileTree

def run (color : Bool) (fuel : Nat) (files : FileTree) (args : List String) : Outcome :=
  match command color fuel args ⟨"", files⟩ with
  | .ok _ p => ⟨0, p.printed, "", p.files⟩
  | .error e p => ⟨1, p.printed, e.message ++ "\n", p.files⟩

end CommandLine

end StructLang
