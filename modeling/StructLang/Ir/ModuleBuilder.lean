import StructLang.Ir.Basic
import StructLang.NameMap

namespace StructLang.Ir

structure ModuleBuilder where
  module : Module
  /-- The global of each string constant, by text. -/
  strings : NameMap String

namespace ModuleBuilder

def start (name : String) : ModuleBuilder := ⟨.empty name, .empty⟩

instance : Inhabited ModuleBuilder := ⟨start ""⟩

def put {α : Type} (p : α → Bool) (new : α) : List α → List α
  | [] => [new]
  | a :: rest => if p a then new :: rest else a :: put p new rest

def addStruct (b : ModuleBuilder) (l : Layout) : ModuleBuilder :=
  { b with module := { b.module with structs := put (·.name == l.name) l b.module.structs } }

def declare (b : ModuleBuilder) (name : String) (params : List Param) (returns : Ty) : ModuleBuilder :=
  if (b.module.function? name).isSome then b
  else
    { b with
      module :=
        { b.module with functions := b.module.functions ++ [.declaration name params returns] } }

def addFunction (b : ModuleBuilder) (f : Function) : ModuleBuilder :=
  { b with module := { b.module with functions := put (·.name == f.name) f b.module.functions } }

def intern (b : ModuleBuilder) (text : String) : Value × ModuleBuilder :=
  match b.strings.get? text with
  | some name => (.global name, b)
  | none =>
    let name := ".str." ++ toString b.module.globals.length
    (.global name,
      { module := { b.module with globals := b.module.globals ++ [⟨name, text⟩] }
        strings := b.strings.insert text name })

end ModuleBuilder

end StructLang.Ir
