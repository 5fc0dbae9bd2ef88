import StructLang.Proofs.Extent.Arrangement

namespace StructLang.Ir

open Relation

theorem exists_mem_zip {α β γ : Type} {R : α → β → Prop} {xs : List α} {ys : List β} {zs : List γ} {x : α} {z : γ}
    (all : List.Forall₂ R xs ys) (member : (x, z) ∈ xs.zip zs) : ∃ y, R x y ∧ (z, y) ∈ zs.zip ys := by
  induction all generalizing zs with
  | nil => simp at member
  | @cons x' y xs ys first _ ih =>
    cases zs with
    | nil => simp at member
    | cons z' zs =>
      rw [List.zip_cons_cons] at member ⊢
      rcases List.mem_cons.mp member with same | later
      · cases same
        exact ⟨y, first, List.mem_cons_self⟩
      · obtain ⟨y', related, member'⟩ := ih later
        exact ⟨y', related, List.mem_cons_of_mem _ member'⟩

namespace Module

def FieldAt (m : Module) (name : String) (offset : UInt32) (ty : Ty) : Prop :=
  ∃ layout offsets field, m.struct? name = some layout ∧ m.fieldOffsets name = .ok offsets ∧
    ((field, ty), offset) ∈ layout.fields.zip offsets

/-- The struct has a scalar of the type, as a field at `offset` of its own or of a struct inside of it, which begins at
`base`. -/
inductive LeafAt (m : Module) : String → Nat → UInt32 → Ty → Prop
  | scalar {name offset ty} (field : m.FieldAt name offset ty) (plain : ∀ inner, ty ≠ .struct inner) :
      LeafAt m name 0 offset ty
  | nested {name inner start base offset ty} (field : m.FieldAt name start (.struct inner))
      (leaf : LeafAt m inner base offset ty) : LeafAt m name (start.toNat + base) offset ty

def LeafByte (m : Module) (name : String) (k : Nat) : Prop :=
  ∃ base offset ty width, m.LeafAt name base offset ty ∧ m.sizeOf ty = .ok width ∧ base + offset.toNat ≤ k ∧
    k < base + offset.toNat + width.toNat

structure ValidLayout (m : Module) (name : String) (size : Nat) : Prop where
  exactly : ∃ align, m.measure .exact (.struct name) = .ok ⟨size, align⟩
  fits : size < 2 ^ 32

/-- Every scalar is less than `2 ^ 31` bytes away from the start of the struct that it is a field of. Structs that are
fields may be further away. -/
def Near (m : Module) (name : String) : Prop :=
  ∀ base offset ty, m.LeafAt name base offset ty → offset.toNat < 2 ^ 31

variable {m : Module} {name inner : String} {offset : UInt32} {ty : Ty} {fields : List Shape} {size : Nat}

theorem exists_fieldShapes {s : Shape} (opened : m.shape [] (.struct name) = .ok s) :
    ∃ fields, m.fieldShapes name = .ok fields ∧ s = .struct fields := by
  rw [shape_eq_fieldShapes] at opened
  cases shapes : m.fieldShapes name with
  | error e =>
    rw [shapes] at opened
    cases opened
  | ok fields =>
    rw [shapes] at opened
    cases opened
    exact ⟨fields, rfl, rfl⟩

theorem exists_fieldOffsets {visiting : List String} {s : Shape} (opened : m.shape visiting (.struct name) = .ok s) :
    ∃ offsets, m.fieldOffsets name = .ok offsets := by
  obtain ⟨fields, shapes, -⟩ := exists_fieldShapes (shape_anti opened (List.nil_subset _))
  exact ⟨_, by rw [fieldOffsets_eq, shapes]; rfl⟩

theorem LeafAt.exists_field {base : Nat} (leaf : m.LeafAt name base offset ty) :
    (∀ inner, ty ≠ .struct inner) ∧ ∃ layout ∈ m.structs, ty ∈ layout.fields.map (·.2) := by
  induction leaf with
  | scalar field plain =>
    obtain ⟨layout, offsets, label, known, -, member⟩ := field
    exact ⟨plain, layout, List.mem_of_find?_eq_some known, List.mem_map_of_mem (List.of_mem_zip member).1⟩
  | nested _ _ ih => exact ih

theorem LeafAt.exists_sizeOf {base : Nat} (leaf : m.LeafAt name base offset ty) : ∃ width, m.sizeOf ty = .ok width := by
  have plain := leaf.exists_field.1
  rw [sizeOf_eq, measure]
  cases ty with
  | struct inner => exact absurd rfl (plain inner)
  | void | int | float | ptr =>
    rw [shape]
    exact ⟨_, rfl⟩

/-- A field has a shape, and ends inside of the struct. -/
theorem FieldAt.bounds (field : m.FieldAt name offset ty) (opened : m.fieldShapes name = .ok fields)
    (fits : (Measure.exact.of (.struct fields)).size < 2 ^ 32) :
    ∃ s ∈ fields, m.shape [] ty = .ok s ∧
      offset.toNat + (Measure.exact.of s).size ≤ (Measure.exact.of (.struct fields)).size := by
  obtain ⟨layout, offsets, label, known, computed, member⟩ := field
  obtain ⟨layout', known', shapes⟩ := fieldShapes_ok opened
  cases known.symm.trans known'
  cases computed.symm.trans (arranges_of_fieldShapes opened fits).offsets
  obtain ⟨s, shape, member'⟩ := exists_mem_zip shapes member
  have inFields := (List.of_mem_zip member').2
  have inside := Nat.lt_of_le_of_lt (Measure.size_after_le_of fields) fits
  have measured := (Measure.fits_of s (Nat.lt_of_le_of_lt (Measure.size_le_of_mem inFields) fits)).2
  have part : (offset, Measure.wrapping.of s) ∈
      (Extent.offsets 0 (fields.map Measure.wrapping.of)).zip (fields.map Measure.wrapping.of) := by
    rw [List.zip_map_right]
    exact List.mem_map_of_mem (f := Prod.map id Measure.wrapping.of) member'
  obtain ⟨placed, -⟩ := Measure.placed_after Measure.is_void fields inside
  have stop := (placed.bounds part).2
  rw [measured.size] at stop
  exact ⟨s, inFields, shape, stop.trans (Measure.size_after_le_of fields)⟩

/-- A scalar ends inside of the struct. -/
theorem LeafAt.bounds {base : Nat} {width : UInt32} (leaf : m.LeafAt name base offset ty)
    (opened : m.fieldShapes name = .ok fields) (fits : (Measure.exact.of (.struct fields)).size < 2 ^ 32)
    (measured : m.sizeOf ty = .ok width) :
    base + offset.toNat + width.toNat ≤ (Measure.exact.of (.struct fields)).size := by
  induction leaf generalizing fields with
  | scalar field plain =>
    obtain ⟨s, member, shape, stop⟩ := field.bounds opened fits
    have exactly := (Measure.fits_of s (Nat.lt_of_le_of_lt (Measure.size_le_of_mem member) fits)).2.size
    rw [sizeOf_eq, measure, shape] at measured
    cases measured
    rw [Nat.zero_add]
    exact exactly ▸ stop
  | nested field leaf ih =>
    obtain ⟨s, member, shape, stop⟩ := field.bounds opened fits
    obtain ⟨inner, opened', rfl⟩ := exists_fieldShapes shape
    have smaller := Nat.lt_of_le_of_lt (Measure.size_le_of_mem member) fits
    have stop' := ih opened' smaller measured
    omega

theorem exists_fieldShapes_of_measure {extent : ExactExtent} (exactly : m.measure .exact (.struct name) = .ok extent) :
    ∃ fields, m.fieldShapes name = .ok fields ∧ Measure.exact.of (.struct fields) = extent := by
  rw [measure] at exactly
  cases opened : m.shape [] (.struct name) with
  | error e =>
    rw [opened] at exactly
    cases exactly
  | ok s =>
    obtain ⟨fields, shapes, rfl⟩ := exists_fieldShapes opened
    rw [opened] at exactly
    exact ⟨fields, shapes, Except.ok.inj exactly⟩

namespace ValidLayout

theorem exists_fieldShapes (valid : m.ValidLayout name size) :
    ∃ fields, m.fieldShapes name = .ok fields ∧ (Measure.exact.of (.struct fields)).size = size := by
  obtain ⟨align, exactly⟩ := valid.exactly
  obtain ⟨fields, opened, same⟩ := exists_fieldShapes_of_measure exactly
  exact ⟨fields, opened, congrArg ExactExtent.size same⟩

/-- In a struct of less than `2 ^ 31` bytes no scalar is far away. -/
theorem near_of_lt (valid : m.ValidLayout name size) (small : size < 2 ^ 31) : m.Near name := by
  obtain ⟨fields, opened, rfl⟩ := valid.exists_fieldShapes
  intro base offset ty leaf
  obtain ⟨width, measured⟩ := leaf.exists_sizeOf
  have bounds := leaf.bounds opened valid.fits measured
  omega

end ValidLayout

end Module

end StructLang.Ir
