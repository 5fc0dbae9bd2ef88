import StructLang.CommandLine

namespace StructLang.Program

/-- Adds what stands at a path, if anything does. Reading a directory fails with the code 21. -/
def look (t : FileTree) (p : Path) : IO FileTree := do
  try
    let bytes ← IO.FS.readBinFile p.render
    return { t with files := t.files ++ [(p, File.ofBytes bytes)] }
  catch e =>
    match e with
    | .inappropriateType _ 21 _ => return { t with directories := t.directories ++ [p] }
    | _ => return t

def stops (t : FileTree) (text : String) : List Path :=
  (List.range ((Path.parts text).length + 1)).map fun n =>
    ((Path.parts text).take n).foldl Path.follow (t.start text)

def importsOf (t : FileTree) (p : Path) : List Path :=
  match (t.readAt p).toOption.bind fun text => (parse text).toOption with
  | none => []
  | some d =>
    d.filterMap fun
      | .importOf text _ => some (p.parent.resolve text)
      | _ => none

/-- Looks at the given paths and at the files that are imported from there. -/
partial def gather (t : FileTree) (seen : List Path) : List Path → IO FileTree
  | [] => return t
  | p :: rest => do
    if seen.contains p then gather t seen rest
    else
      let t ← look t p
      gather t (p :: seen) (importsOf t p ++ rest)

def texts : Except CommandError Request → List String
  | .ok (.compile i) => i.source.toList ++ i.emitObject.toList
  | _ => []

def writeChanges (before after : FileTree) : IO Unit := do
  for directory in after.directories do
    unless before.directories.contains directory do IO.FS.createDirAll directory.render
  for (p, file) in after.files do
    match file with
    | .text content => unless before.file? p = some file do IO.FS.writeFile p.render content
    | .binary => pure ()

/-- More steps than a program can take in practice. -/
def stepLimit : Nat := 0x4000000000000000

end StructLang.Program

open StructLang Program in
def main (args : List String) : IO UInt32 := do
  let current := Path.root.resolve (← IO.currentDir).toString
  let empty : FileTree := ⟨[], [], current⟩
  let files ← gather empty [] ((texts (CommandLine.request args)).flatMap (stops empty))
  let stderr ← IO.getStderr
  let outcome := CommandLine.run (← stderr.isTty) stepLimit files args
  writeChanges files outcome.files
  IO.print outcome.output
  IO.eprint outcome.errors
  return outcome.code
