import Mathlib
import StructLang.Ir.Extent

namespace StructLang.Ir

inductive Shape
  | void
  | int (width : Nat)
  | float (width : Nat)
  | ptr
  | struct (fields : List Shape)

structure Measure (ε : Type) where
  void : ε
  scalar : Nat → ε
  ptr : ε
  /-- Puts a field after the fields before it. -/
  place : ε → ε → ε
  /-- Ends a struct after its last field. -/
  close : ε → ε

namespace Measure

variable {ε : Type}

mutual

def of (a : Measure ε) : Shape → ε
  | .void => a.void
  | .int width | .float width => a.scalar width
  | .ptr => a.ptr
  | .struct fields => a.close (a.after a.void fields)
termination_by structural s => s

def after (a : Measure ε) (before : ε) : List Shape → ε
  | [] => before
  | s :: rest => a.after (a.place before (a.of s)) rest
termination_by structural fields => fields

end

def wrapping : Measure Extent := ⟨⟨0, 1⟩, .scalar, ⟨8, 8⟩, .place, .close⟩

end Measure

section Results

variable {α β ε : Type} {f : α → Except ε β}

theorem mapM_eq_ok_iff {xs : List α} {ys : List β} :
    xs.mapM f = .ok ys ↔ List.Forall₂ (fun x y => f x = .ok y) xs ys := by
  induction xs generalizing ys with
  | nil => simp [pure, Except.pure, eq_comm]
  | cons x xs ih =>
    rw [List.mapM_cons, List.forall₂_cons_left_iff]
    cases first : f x with
    | error e => simp [bind, Except.bind]
    | ok y =>
      cases others : xs.mapM f with
      | error e => simp [bind, Except.bind, ← ih, others]
      | ok rest => simp [bind, Except.bind, pure, Except.pure, ← ih, others, eq_comm]

theorem mapM_error {xs : List α} {e : ε} (failed : xs.mapM f = .error e) : ∃ x ∈ xs, f x = .error e := by
  induction xs with
  | nil => cases failed
  | cons x xs ih =>
    rw [List.mapM_cons] at failed
    cases first : f x with
    | error e' =>
      rw [first] at failed
      cases failed
      exact ⟨x, List.mem_cons_self, first⟩
    | ok y =>
      cases others : xs.mapM f with
      | error e' =>
        rw [first, others] at failed
        cases failed
        obtain ⟨x', member, here⟩ := ih others
        exact ⟨x', List.mem_cons_of_mem _ member, here⟩
      | ok rest =>
        rw [first, others] at failed
        cases failed

theorem exists_of_forall₂ {R : α → β → Prop} {xs : List α} {ys : List β} (all : List.Forall₂ R xs ys) {x : α}
    (member : x ∈ xs) : ∃ y ∈ ys, R x y := by
  induction all with
  | nil => cases member
  | @cons x' y xs ys first _ ih =>
    rcases List.mem_cons.mp member with rfl | later
    · exact ⟨y, List.mem_cons_self, first⟩
    · obtain ⟨y', member', related⟩ := ih later
      exact ⟨y', List.mem_cons_of_mem _ member', related⟩

end Results

namespace Extent

def offsets (stop : UInt32) : List Extent → List UInt32
  | [] => []
  | field :: rest => roundUp stop field.align :: offsets (roundUp stop field.align + field.size) rest

end Extent

namespace Module

def shape (m : Module) (visiting : List String) : Ty → Except LayoutError Shape
  | .void => .ok .void
  | .int width => .ok (.int width)
  | .float width => .ok (.float width)
  | .ptr => .ok .ptr
  | .struct name =>
    if entered : name ∈ visiting then .error (.containsItself name)
    else
      match known : m.struct? name with
      | none => .error (.unknownStruct name)
      | some layout => do
        have := unentered_lt known entered
        return .struct (← layout.fields.mapM fun field => m.shape (name :: visiting) field.2)
termination_by m.unentered visiting

def fieldShapes (m : Module) (name : String) : Except LayoutError (List Shape) :=
  match m.struct? name with
  | none => .error (.unknownStruct name)
  | some layout => layout.fields.mapM fun field => m.shape [name] field.2

def measure {ε : Type} (m : Module) (a : Measure ε) (ty : Ty) : Except LayoutError ε := (m.shape [] ty).map a.of

variable {m : Module} {visiting : List String} {name : String} {ty : Ty}

/-- Opening a struct is opening its fields. -/
theorem shape_struct (new : name ∉ visiting) {layout : Layout} (known : m.struct? name = some layout) :
    m.shape visiting (.struct name) =
      (layout.fields.mapM fun field => m.shape (name :: visiting) field.2).map Shape.struct := by
  rw [shape, dif_neg new]
  split
  · rename_i unknown
    cases unknown.symm.trans known
  · rename_i found
    cases found.symm.trans known
    rfl

theorem shape_unknown (new : name ∉ visiting) (unknown : m.struct? name = none) :
    m.shape visiting (.struct name) = .error (.unknownStruct name) := by
  rw [shape, dif_neg new]
  split
  · rfl
  · rename_i found
    cases found.symm.trans unknown

theorem shape_entered (entered : name ∈ visiting) :
    m.shape visiting (.struct name) = .error (.containsItself name) := by
  rw [shape, dif_pos entered]

/-- What a struct that can be opened is made of. -/
theorem shape_struct_ok {shape : Shape} (opened : m.shape visiting (.struct name) = .ok shape) :
    name ∉ visiting ∧ ∃ layout fields, m.struct? name = some layout ∧ shape = .struct fields ∧
      List.Forall₂ (fun field s => m.shape (name :: visiting) field.2 = .ok s) layout.fields fields := by
  by_cases entered : name ∈ visiting
  · rw [shape_entered entered] at opened
    cases opened
  · refine ⟨entered, ?_⟩
    cases known : m.struct? name with
    | none =>
      rw [shape_unknown entered known] at opened
      cases opened
    | some layout =>
      rw [shape_struct entered known] at opened
      cases fields : layout.fields.mapM fun field => m.shape (name :: visiting) field.2 with
      | error e =>
        rw [fields] at opened
        cases opened
      | ok shapes =>
        rw [fields] at opened
        cases opened
        exact ⟨layout, shapes, rfl, rfl, mapM_eq_ok_iff.mp fields⟩

theorem shape_eq_fieldShapes (m : Module) (name : String) :
    m.shape [] (.struct name) = (m.fieldShapes name).map Shape.struct := by
  have new : name ∉ [] := List.not_mem_nil
  unfold fieldShapes
  cases known : m.struct? name with
  | none => exact shape_unknown new known
  | some layout => exact shape_struct new known

theorem shape_of_fieldShapes {fields : List Shape} (opened : m.fieldShapes name = .ok fields) :
    m.shape [] (.struct name) = .ok (.struct fields) := by
  rw [shape_eq_fieldShapes, opened]
  rfl

section Computations

variable {extentOf : Ty → Except LayoutError Extent} {shapeOf : Ty → Except LayoutError Shape}
  (same : ∀ ty, extentOf ty = (shapeOf ty).map Measure.wrapping.of)
include same

theorem foldlM_place (fields : List (String × Ty)) (before : Extent) :
    fields.foldlM (fun before field => do return before.place (← extentOf field.2)) before =
      (fields.mapM fun field => shapeOf field.2).map (Measure.wrapping.after before) := by
  induction fields generalizing before with
  | nil => rfl
  | cons field fields ih =>
    rw [List.foldlM_cons, List.mapM_cons, same]
    cases shapeOf field.2 with
    | error e => rfl
    | ok s =>
      have later := ih (before.place (Measure.wrapping.of s))
      cases others : fields.mapM fun field => shapeOf field.2 <;> rw [others] at later <;> exact later

theorem offsetsFrom_eq (fields : List (String × Ty)) (stop : UInt32) :
    offsetsFrom extentOf stop fields =
      (fields.mapM fun field => shapeOf field.2).map fun shapes =>
        Extent.offsets stop (shapes.map Measure.wrapping.of) := by
  induction fields generalizing stop with
  | nil => rfl
  | cons field fields ih =>
    rw [offsetsFrom, List.mapM_cons, same]
    cases shapeOf field.2 with
    | error e => rfl
    | ok s =>
      have later := ih (roundUp stop (Measure.wrapping.of s).align + (Measure.wrapping.of s).size)
      have prepended := congrArg (· >>= fun rest => pure (roundUp stop (Measure.wrapping.of s).align :: rest)) later
      cases others : fields.mapM fun field => shapeOf field.2 <;> rw [others] at prepended <;> exact prepended

end Computations

/-- An extent is computed by opening the type and measuring the tree. -/
theorem extent_eq (m : Module) (visiting : List String) (ty : Ty) :
    m.extent visiting ty = (m.shape visiting ty).map Measure.wrapping.of := by
  induction left : m.unentered visiting using Nat.strongRecOn generalizing visiting ty with
  | ind n ih =>
    cases ty with
    | void => rw [extent, shape]; rfl
    | int width => rw [extent, shape]; rfl
    | float width => rw [extent, shape]; rfl
    | ptr => rw [extent, shape]; rfl
    | struct name =>
      by_cases entered : name ∈ visiting
      · rw [extent, dif_pos entered, shape_entered entered]
        rfl
      · rw [extent, dif_neg entered]
        split
        · rename_i unknown
          rw [shape_unknown entered unknown]
          rfl
        · rename_i layout known
          have inside ty := ih _ (left ▸ unentered_lt known entered) (name :: visiting) ty rfl
          have folded := foldlM_place inside layout.fields ⟨0, 1⟩
          rw [shape_struct entered known]
          simp only [folded]
          cases layout.fields.mapM fun field => m.shape (name :: visiting) field.2 <;> rfl

theorem measure_wrapping (m : Module) (ty : Ty) : m.measure .wrapping ty = m.extent [] ty := (m.extent_eq [] ty).symm

theorem sizeOf_eq (m : Module) (ty : Ty) : m.sizeOf ty = (m.measure .wrapping ty).map (·.size) := by
  rw [sizeOf, measure_wrapping]
  cases m.extent [] ty <;> rfl

theorem alignOf_eq (m : Module) (ty : Ty) : m.alignOf ty = (m.measure .wrapping ty).map (·.align) := by
  rw [alignOf, measure_wrapping]
  cases m.extent [] ty <;> rfl

theorem fieldOffsets_eq (m : Module) (name : String) :
    m.fieldOffsets name =
      (m.fieldShapes name).map fun shapes => Extent.offsets 0 (shapes.map Measure.wrapping.of) := by
  unfold fieldOffsets fieldShapes
  cases m.struct? name with
  | none => rfl
  | some layout => exact offsetsFrom_eq (m.extent_eq [name]) layout.fields 0

end Module

end StructLang.Ir
