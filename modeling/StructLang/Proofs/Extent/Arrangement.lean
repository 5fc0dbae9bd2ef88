import StructLang.Proofs.Extent.Exact
import StructLang.Proofs.Extent.Finite

namespace StructLang.Ir

open Relation

/-- Fields that begin at the first place that fits them, one after the other from `stop` on up to `last`. -/
inductive Placed : Nat → List Extent → List UInt32 → Nat → Prop
  | nil {stop} : Placed stop [] [] stop
  | cons {stop part parts offset offsets last}
      (least : IsLeast {k | part.align.toNat ∣ k ∧ stop ≤ k} offset.toNat)
      (rest : Placed (offset.toNat + part.size.toNat) parts offsets last) :
      Placed stop (part :: parts) (offset :: offsets) last

def fieldBytes (field : UInt32 × Extent) : Set Nat := Set.Ico field.1.toNat (field.1.toNat + field.2.size.toNat)

namespace Placed

variable {stop last : Nat} {parts : List Extent} {offsets : List UInt32}

theorem length_eq (placed : Placed stop parts offsets last) : offsets.length = parts.length := by
  induction placed with
  | nil => rfl
  | cons _ _ ih => exact congrArg Nat.succ ih

theorem le (placed : Placed stop parts offsets last) : stop ≤ last := by
  induction placed with
  | nil => exact Nat.le_refl _
  | cons least _ ih =>
    have above := least.1.2
    omega

theorem bounds (placed : Placed stop parts offsets last) {field : UInt32 × Extent} (member : field ∈ offsets.zip parts) :
    stop ≤ field.1.toNat ∧ field.1.toNat + field.2.size.toNat ≤ last := by
  induction placed with
  | nil => cases member
  | cons least rest ih =>
    have above := least.1.2
    rw [List.zip_cons_cons] at member
    rcases List.mem_cons.mp member with rfl | later
    · exact ⟨above, rest.le⟩
    · obtain ⟨further, inside⟩ := ih later
      exact ⟨by omega, inside⟩

theorem disjoint (placed : Placed stop parts offsets last) :
    (offsets.zip parts).Pairwise fun field field' => Disjoint (fieldBytes field) (fieldBytes field') := by
  induction placed with
  | nil => exact .nil
  | cons _ rest ih =>
    rw [List.zip_cons_cons]
    refine .cons (fun field member => ?_) ih
    exact Set.Ico_disjoint_Ico.mpr (min_le_left _ _ |>.trans ((rest.bounds member).1.trans (le_max_right _ _)))

end Placed

structure Arrangement where
  whole : Extent
  parts : List Extent
  offsets : List UInt32

structure Arrangement.Natural (a : Arrangement) : Prop where
  powers : ∀ e ∈ a.whole :: a.parts, e.align.toNat.isPowerOfTwo
  align : a.whole.align.toNat = (a.parts.map (·.align.toNat)).foldl max 1
  count : a.offsets.length = a.parts.length
  placed : ∃ last, Placed 0 a.parts a.offsets last ∧
    IsLeast {k | a.whole.align.toNat ∣ k ∧ last ≤ k} a.whole.size.toNat
  disjoint : (a.offsets.zip a.parts).Pairwise fun field field' => Disjoint (fieldBytes field) (fieldBytes field')
  inside : ∀ field ∈ a.offsets.zip a.parts, fieldBytes field ⊆ Set.Ico 0 a.whole.size.toNat

structure Module.Arranges (m : Module) (name : String) (a : Arrangement) : Prop where
  size : m.sizeOf (.struct name) = .ok a.whole.size
  align : m.alignOf (.struct name) = .ok a.whole.align
  parts : ∃ layout, m.struct? name = some layout ∧
    List.Forall₂ (fun field part => m.sizeOf field.2 = .ok part.size ∧ m.alignOf field.2 = .ok part.align)
      layout.fields a.parts
  offsets : m.fieldOffsets name = .ok a.offsets
  wholeFits : m.measure .checked (.struct name) = .ok (some a.whole)
  offsetsFit : Extent.offsets? 0 a.parts = some a.offsets

namespace Measure

def arrangement (fields : List Shape) : Arrangement :=
  ⟨wrapping.of (.struct fields), fields.map wrapping.of, Extent.offsets 0 (fields.map wrapping.of)⟩

theorem placed_after {e : Extent} {before : ExactExtent} (is : e.Is before) (fields : List Shape)
    (fits : (exact.after before fields).size < 2 ^ 32) :
    Placed before.size (fields.map wrapping.of) (Extent.offsets e.size (fields.map wrapping.of))
        (exact.after before fields).size ∧
      Extent.offsets? e.size (fields.map wrapping.of) = some (Extent.offsets e.size (fields.map wrapping.of)) := by
  induction fields generalizing e before with
  | nil => exact ⟨.nil, rfl⟩
  | cons s rest ih =>
    have small := Nat.lt_of_le_of_lt (size_le_after_of_mem List.mem_cons_self) fits
    obtain ⟨-, field⟩ := fits_of s small
    rw [after] at fits ⊢
    have placedFits := Nat.lt_of_le_of_lt (size_le_after _ rest) fits
    obtain ⟨⟨rounded, start⟩, added, next⟩ := is.place field (align_pos s) placedFits
    obtain ⟨others, othersFit⟩ := ih next fits
    have least := isLeast_ceiling before.size (align_pos s)
    simp only [List.map_cons, Extent.offsets, Extent.offsets?, rounded, Option.bind_eq_bind, Option.bind_some, added]
    constructor
    · refine .cons (by rw [start, field.align]; exact least) ?_
      rw [start, field.size]
      exact others
    · rw [othersFit]
      rfl

theorem align_after (before : ExactExtent) (fields : List Shape) :
    (exact.after before fields).align = (fields.map (exact.of · |>.align)).foldl max before.align := by
  induction fields generalizing before with
  | nil => rfl
  | cons s rest ih =>
    rw [after, ih]
    rfl

theorem natural_arrangement {fields : List Shape} (fits : (exact.of (.struct fields)).size < 2 ^ 32) :
    (arrangement fields).Natural := by
  have inside := Nat.lt_of_le_of_lt (size_after_le_of fields) fits
  have each s (member : s ∈ fields) : (wrapping.of s).Is (exact.of s) :=
    (fits_of s (Nat.lt_of_le_of_lt (size_le_of_mem member) fits)).2
  obtain ⟨-, whole⟩ := fits_of (.struct fields) fits
  obtain ⟨placed, -⟩ := placed_after is_void fields inside
  have least := isLeast_ceiling (exact.after exact.void fields).size (align_pos (.struct fields))
  have last : (exact.after exact.void fields).size ≤ (wrapping.of (.struct fields)).size.toNat := by
    rw [whole.size]
    exact size_after_le_of fields
  refine ⟨?_, ?_, placed.length_eq, ⟨_, placed, ?_⟩, placed.disjoint, fun field member => ?_⟩
  · intro e member
    rcases List.mem_cons.mp member with rfl | member
    · exact whole.align.symm ▸ isPowerOfTwo_of (.struct fields)
    · obtain ⟨s, here, rfl⟩ := List.mem_map.mp member
      exact (each s here).align.symm ▸ isPowerOfTwo_of s
  · have aligned : (fields.map wrapping.of).map (·.align.toNat) = fields.map (exact.of · |>.align) := by
      rw [List.map_map]
      exact List.map_congr_left fun s member => (each s member).align
    change (wrapping.of (.struct fields)).align.toNat = ((fields.map wrapping.of).map (·.align.toNat)).foldl max 1
    rw [aligned, whole.align, of]
    exact align_after exact.void fields
  · change IsLeast {k | (wrapping.of (.struct fields)).align.toNat ∣ k ∧ _} (wrapping.of (.struct fields)).size.toNat
    rw [whole.align, whole.size]
    rw [of] at least ⊢
    exact least
  · obtain ⟨-, stop⟩ := placed.bounds member
    exact Set.Ico_subset_Ico (Nat.zero_le _) (stop.trans last)

end Measure

namespace Module

variable {m : Module} {visiting visiting' : List String} {name inner : String} {ty : Ty}

/-- A type that can be opened inside of structs can be opened outside of them, to the same shape. -/
theorem shape_anti {s : Shape} (opened : m.shape visiting ty = .ok s) (fewer : visiting' ⊆ visiting) :
    m.shape visiting' ty = .ok s := by
  induction left : m.unentered visiting using Nat.strongRecOn generalizing visiting visiting' ty s with
  | ind n ih =>
    cases ty with
    | struct name =>
      obtain ⟨new, layout, fields, known, rfl, all⟩ := shape_struct_ok opened
      have outside : List.Forall₂ (fun field s => m.shape (name :: visiting') field.2 = .ok s) layout.fields fields :=
        all.imp fun field s inside =>
          ih _ (left ▸ unentered_lt known new) inside (List.cons_subset_cons name fewer) rfl
      rw [shape_struct (fun member => new (fewer member)) known, mapM_eq_ok_iff.mpr outside]
      rfl
    | void | int | float | ptr =>
      rw [shape] at opened ⊢
      exact opened

theorem fieldShapes_ok {fields : List Shape} (opened : m.fieldShapes name = .ok fields) :
    ∃ layout, m.struct? name = some layout ∧
      List.Forall₂ (fun field s => m.shape [] field.2 = .ok s) layout.fields fields := by
  obtain ⟨-, layout, shapes, known, same, all⟩ := shape_struct_ok (shape_of_fieldShapes opened)
  cases same
  exact ⟨layout, known, all.imp fun field s inside => shape_anti inside (List.nil_subset _)⟩

/-- Structs inside of a struct can be opened and are no larger. -/
theorem fieldShapes_of_reached {fields : List Shape} (opened : m.fieldShapes name = .ok fields)
    (reached : ReflTransGen m.Holds name inner) :
    ∃ fields', m.fieldShapes inner = .ok fields' ∧
      (Measure.exact.of (.struct fields')).size ≤ (Measure.exact.of (.struct fields)).size := by
  induction reached with
  | refl => exact ⟨fields, opened, Nat.le_refl _⟩
  | tail _ holds ih =>
    obtain ⟨shapes, opened', smaller⟩ := ih
    obtain ⟨layout, known, all⟩ := fieldShapes_ok opened'
    obtain ⟨layout', known', field, member⟩ := holds
    cases known.symm.trans known'
    obtain ⟨s, member', inside⟩ := exists_of_forall₂ all member
    rw [shape_eq_fieldShapes] at inside
    cases fields' : m.fieldShapes _ with
    | error e =>
      rw [fields'] at inside
      cases inside
    | ok shapes' =>
      rw [fields'] at inside
      cases inside
      exact ⟨shapes', rfl, (Measure.size_le_of_mem member').trans smaller⟩

theorem arranges_of_fieldShapes {fields : List Shape} (opened : m.fieldShapes name = .ok fields)
    (fits : (Measure.exact.of (.struct fields)).size < 2 ^ 32) : m.Arranges name (Measure.arrangement fields) := by
  have whole := shape_of_fieldShapes opened
  obtain ⟨layout, known, all⟩ := fieldShapes_ok opened
  obtain ⟨checks, -⟩ := Measure.fits_of (.struct fields) fits
  obtain ⟨-, offsetsFit⟩ :=
    Measure.placed_after Measure.is_void fields (Nat.lt_of_le_of_lt (Measure.size_after_le_of fields) fits)
  refine ⟨?_, ?_, ⟨layout, known, ?_⟩, ?_, ?_, offsetsFit⟩
  · rw [sizeOf_eq, measure, whole]
    rfl
  · rw [alignOf_eq, measure, whole]
    rfl
  · refine List.forall₂_map_right_iff.mpr (all.imp fun field s inside => ?_)
    rw [sizeOf_eq, alignOf_eq, measure, inside]
    exact ⟨rfl, rfl⟩
  · rw [fieldOffsets_eq, opened]
    rfl
  · rw [measure, whole]
    exact congrArg Except.ok checks

/-- A struct whose exact size fits in 32 bits has that size, and lies in memory as alignments demand, and so do the
structs inside of it: no sum overflows, each field stands at the first multiple of its alignment after the field before
it, the struct ends at the first multiple of its own alignment after the last field, and no two fields overlap. -/
theorem struct_arrangement_is_natural {m : Module} {name : String} {size : UInt32} {extent : ExactExtent}
    (found : m.sizeOf (.struct name) = .ok size) (exactly : m.measure .exact (.struct name) = .ok extent)
    (fits : extent.size < 2 ^ 32) :
    size.toNat = extent.size ∧
      ∀ inner, ReflTransGen m.Holds name inner → ∃ a, m.Arranges inner a ∧ a.Natural := by
  rw [measure, shape_eq_fieldShapes] at exactly
  cases opened : m.fieldShapes name with
  | error e =>
    rw [opened] at exactly
    cases exactly
  | ok fields =>
    rw [opened] at exactly
    cases exactly
    constructor
    · have computed := (arranges_of_fieldShapes opened fits).size
      cases found.symm.trans computed
      exact (Measure.fits_of (.struct fields) fits).2.size
    · intro inner reached
      obtain ⟨fields', opened', smaller⟩ := fieldShapes_of_reached opened reached
      have fits' := Nat.lt_of_le_of_lt smaller fits
      exact ⟨_, arranges_of_fieldShapes opened' fits', Measure.natural_arrangement fits'⟩

/-- A struct inside of another one, between a bit and a pointer, with fields that take up no bytes. -/
theorem struct_arrangement_is_natural_nested :
    ∃ m : Module, m.sizeOf (.struct "Outer") = .ok 24 ∧ m.measure .exact (.struct "Outer") = .ok ⟨24, 8⟩ ∧
      m.fieldOffsets "Outer" = .ok [0, 4, 12, 12, 16] ∧ (∃ a, m.Arranges "Outer" a ∧ a.Natural) ∧
      ∃ a, m.Arranges "Inner" a ∧ a.Natural := by
  let m : Module :=
    { Module.empty "m" with
      structs :=
        [⟨"Inner", [("tag", .int 8), ("value", .float 32)]⟩, ⟨"None", []⟩,
          ⟨"Outer", [("flag", .int 1), ("inner", .struct "Inner"), ("nothing", .void), ("none", .struct "None"),
            ("next", .ptr)]⟩] }
  have size : m.sizeOf (.struct "Outer") = .ok 24 := by unfold m; cbv
  have exactly : m.measure .exact (.struct "Outer") = .ok ⟨24, 8⟩ := by unfold m; cbv
  obtain ⟨-, natural⟩ := struct_arrangement_is_natural size exactly (by decide)
  have holds : m.Holds "Outer" "Inner" := ⟨_, rfl, "inner", by decide⟩
  exact ⟨m, size, exactly, by unfold m; cbv, natural "Outer" .refl, natural "Inner" (.single holds)⟩

end Module

end StructLang.Ir
