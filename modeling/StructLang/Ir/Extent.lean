import StructLang.Ir.Basic

namespace StructLang.Ir

inductive LayoutError
  | unknownStruct (name : String)
  | containsItself (name : String)
  deriving DecidableEq, Repr

def LayoutError.message : LayoutError → String
  | .unknownStruct name => "unknown struct type '" ++ name ++ "'"
  | .containsItself name => "struct '" ++ name ++ "' contains itself by value"

structure Extent where
  size : UInt32
  align : UInt32
  deriving DecidableEq, Repr, Inhabited

def roundUp (n align : UInt32) : UInt32 :=
  if n % align = 0 then n else n + (align - n % align)

namespace Extent

def scalar (width : Nat) : Extent :=
  let bytes := UInt32.ofNat ((width + 7) / 8).nextPowerOfTwo
  ⟨bytes, bytes⟩

def place (before field : Extent) : Extent :=
  ⟨roundUp before.size field.align + field.size, max before.align field.align⟩

def close (e : Extent) : Extent := ⟨roundUp e.size e.align, e.align⟩

end Extent

namespace Module

def unentered (m : Module) (visiting : List String) : Nat := (m.structs.filter (·.name ∉ visiting)).length

/-- With every struct that is entered, fewer are left. -/
theorem unentered_lt {m : Module} {visiting : List String} {name : String} {layout : Layout}
    (known : m.struct? name = some layout) (new : name ∉ visiting) :
    m.unentered (name :: visiting) < m.unentered visiting := by
  have fewer : m.structs.filter (·.name ∉ name :: visiting) =
      (m.structs.filter (·.name ∉ visiting)).filter (·.name ≠ name) := by
    rw [List.filter_filter]
    apply List.filter_congr
    simp
  have named : layout.name = name := by simpa using List.find?_some known
  rw [unentered, unentered, fewer, List.length_filter_lt_length_iff_exists]
  exact ⟨layout, by simp [List.mem_of_find?_eq_some known, named, new], by simp [named]⟩

/-- The extent of a type; `visiting` holds the structs that it is nested in. A struct that is entered is not among
them. -/
def extent (m : Module) (visiting : List String) : Ty → Except LayoutError Extent
  | .void => .ok ⟨0, 1⟩
  | .int width | .float width => .ok (.scalar width)
  | .ptr => .ok ⟨8, 8⟩
  | .struct name =>
    if entered : name ∈ visiting then .error (.containsItself name)
    else
      match known : m.struct? name with
      | none => .error (.unknownStruct name)
      | some layout => do
        have := unentered_lt known entered
        let place (before : Extent) (field : String × Ty) : Except LayoutError Extent := do
          return before.place (← m.extent (name :: visiting) field.2)
        return (← layout.fields.foldlM place ⟨0, 1⟩).close
termination_by m.unentered visiting

def sizeOf (m : Module) (ty : Ty) : Except LayoutError UInt32 := do return (← m.extent [] ty).size

def alignOf (m : Module) (ty : Ty) : Except LayoutError UInt32 := do return (← m.extent [] ty).align

def offsetsFrom (extent : Ty → Except LayoutError Extent) (stop : UInt32) :
    List (String × Ty) → Except LayoutError (List UInt32)
  | [] => .ok []
  | (_, ty) :: rest => do
    let field ← extent ty
    let start := roundUp stop field.align
    return start :: (← offsetsFrom extent (start + field.size) rest)

def fieldOffsets (m : Module) (name : String) : Except LayoutError (List UInt32) :=
  match m.struct? name with
  | none => .error (.unknownStruct name)
  | some layout => offsetsFrom (m.extent [name]) 0 layout.fields

end Module

end StructLang.Ir
