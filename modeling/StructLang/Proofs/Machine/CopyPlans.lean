import StructLang.Proofs.Extent.Leaves
import StructLang.Proofs.Machine.Copies
import StructLang.Proofs.Machine.Encoding

namespace StructLang.Machine

open Ir Relation

def scalarTypes : List Ir.Ty := [.int 1, .int 8, .int 16, .int 32, .int 64, .float 32, .float 64, .ptr]

theorem exists_scalarOf {ty : Ir.Ty} (scalar : ty ∈ scalarTypes) (m : Ir.Module) :
    ∃ s width, scalarOf ty = .ok s ∧ m.sizeOf ty = .ok width ∧ width.toNat = s.bytes := by
  simp only [Module.sizeOf_eq, Module.measure]
  simp only [scalarTypes, List.mem_cons, List.not_mem_nil, or_false] at scalar
  rcases scalar with rfl | rfl | rfl | rfl | rfl | rfl | rfl | rfl <;> rw [Module.shape] <;>
    exact ⟨_, _, rfl, rfl, by cbv⟩

theorem displacement_eq {offset : UInt32} (near : offset.toNat < 2 ^ 31) :
    displacement offset = offset.toNat.toUInt64 := by
  have positive : offset.toBitVec.msb = false := by
    rw [BitVec.msb_eq_false_iff_two_mul_lt, UInt32.toNat_toBitVec]
    omega
  apply UInt64.toBitVec_inj.mp
  simp [displacement, BitVec.signExtend_eq_setWidth_of_msb_false positive]

/-- From `2 ^ 31` on the offset is taken for a negative number. -/
theorem toNat_displacement_far {offset : UInt32} (far : 2 ^ 31 ≤ offset.toNat) :
    (displacement offset).toNat = 2 ^ 64 - 2 ^ 32 + offset.toNat := by
  have negative : offset.toBitVec.msb = true := by
    rw [BitVec.msb_eq_true_iff_two_mul_ge, UInt32.toNat_toBitVec]
    omega
  have bound := offset.toNat_lt
  have extended : displacement offset = ⟨offset.toBitVec.signExtend 64⟩ := by
    apply UInt64.toBitVec_inj.mp
    simp [displacement]
  rw [extended, UInt64.toNat_ofBitVec, BitVec.toNat_signExtend, if_pos negative, BitVec.toNat_setWidth,
    UInt32.toNat_toBitVec]
  omega

theorem toUInt64_eq (offset : UInt32) : offset.toUInt64 = offset.toNat.toUInt64 := by
  apply UInt64.toNat_inj.mp
  simp

/-- The leaf is what is copied for a scalar of the struct, if the struct begins at `base`. -/
def LeafOf (m : Ir.Module) (name : String) (base : Word) (leaf : Leaf) : Prop :=
  ∃ start offset ty, m.LeafAt name start offset ty ∧ scalarOf ty = .ok leaf.scalar ∧
    leaf.offset = base + start.toUInt64 + displacement offset

theorem exists_forall₂ {α β : Type} {R : α → β → Prop} {xs : List α} (each : ∀ x ∈ xs, ∃ y, R x y) :
    ∃ ys, List.Forall₂ R xs ys := by
  induction xs with
  | nil => exact ⟨[], .nil⟩
  | cons x xs ih =>
    obtain ⟨⟨y, first⟩, others⟩ := List.forall_mem_cons.mp each
    obtain ⟨ys, rest⟩ := ih others
    exact ⟨y :: ys, .cons first rest⟩

def FieldLeaf (m : Ir.Module) (base : Word) (offset : UInt32) (ty : Ir.Ty) (leaf : Leaf) : Prop :=
  match ty with
  | .struct inner => LeafOf m inner (base + offset.toUInt64) leaf
  | ty => scalarOf ty = .ok leaf.scalar ∧ leaf.offset = base + displacement offset

variable {m : Ir.Module} {name : String} {base : Word} {leaf : Leaf}

theorem fieldLeaf_of_plain {offset : UInt32} {ty : Ir.Ty} (plain : ∀ inner, ty ≠ .struct inner) :
    FieldLeaf m base offset ty leaf ↔ scalarOf ty = .ok leaf.scalar ∧ leaf.offset = base + displacement offset := by
  cases ty with
  | struct inner => exact absurd rfl (plain inner)
  | void | int | float | ptr => exact Iff.rfl

theorem leafOf_iff :
    LeafOf m name base leaf ↔ ∃ offset ty, m.FieldAt name offset ty ∧ FieldLeaf m base offset ty leaf := by
  have step (start : UInt32) (more : Nat) :
      base + (start.toNat + more).toUInt64 = base + start.toUInt64 + more.toUInt64 := by
    rw [toUInt64_eq, UInt64.add_assoc]
    congr 1
    exact UInt64.ofNat_add ..
  constructor
  · rintro ⟨_, offset, ty, here, scalar, place⟩
    cases here with
    | scalar field plain =>
      exact ⟨offset, ty, field, (fieldLeaf_of_plain plain).mpr ⟨scalar, by rw [place]; simp⟩⟩
    | nested field inner => exact ⟨_, _, field, _, offset, ty, inner, scalar, by rw [place, step]⟩
  · rintro ⟨offset, ty, field, contributed⟩
    by_cases nested : ∃ inner, ty = .struct inner
    · obtain ⟨inner, rfl⟩ := nested
      obtain ⟨more, offset', ty, here, scalar, place⟩ := contributed
      exact ⟨_, offset', ty, .nested field here, scalar, by rw [place, step]⟩
    · have plain (inner : String) (same : ty = .struct inner) : False := nested ⟨inner, same⟩
      obtain ⟨scalar, place⟩ := (fieldLeaf_of_plain plain).mp contributed
      exact ⟨0, offset, ty, .scalar field plain, scalar, by rw [place]; simp⟩

/-- The plan of a struct that can be opened where it is; with every struct that is entered fewer are left. -/
theorem exists_copyPlanWithin (depth : Nat) {visiting : List String} {shape : Shape}
    (opened : m.shape visiting (.struct name) = .ok shape) (enough : m.unentered visiting < depth)
    (scalars : ∀ start offset ty, m.LeafAt name start offset ty → ty ∈ scalarTypes) (base : Word) :
    ∃ plan, copyPlanWithin m depth base name = .ok plan ∧ ∀ leaf, leaf ∈ plan.leaves ↔ LeafOf m name base leaf := by
  induction depth generalizing visiting name shape base with
  | zero => omega
  | succ depth ih =>
    obtain ⟨new, layout, shapes, known, rfl, all⟩ := Module.shape_struct_ok opened
    have fewer := Module.unentered_lt known new
    obtain ⟨offsets, computed⟩ := Module.exists_fieldOffsets opened
    have each (entry : (String × Ir.Ty) × UInt32) (member : entry ∈ layout.fields.zip offsets) :
        ∃ part, fieldPlan (copyPlanWithin m depth) base entry.1.2 entry.2 = .ok part ∧
          ∀ leaf, leaf ∈ part.leaves ↔ FieldLeaf m base entry.2 entry.1.2 leaf := by
      obtain ⟨⟨label, ty⟩, offset⟩ := entry
      have field : m.FieldAt name offset ty := ⟨layout, offsets, label, known, computed, member⟩
      by_cases nested : ∃ inner, ty = .struct inner
      · obtain ⟨inner, rfl⟩ := nested
        obtain ⟨s, -, inside⟩ := exists_of_forall₂ all (List.of_mem_zip member).1
        obtain ⟨plan, selected, leaves⟩ := ih inside (by omega) (fun _ _ ty here => scalars _ _ ty (.nested field here))
          (base + offset.toUInt64)
        refine ⟨⟨plan.leaves, true⟩, ?_, leaves⟩
        rw [fieldPlan, selected]
        rfl
      · have plain (inner : String) (same : ty = .struct inner) : False := nested ⟨inner, same⟩
        obtain ⟨s, -, scalar, -⟩ := exists_scalarOf (scalars _ _ ty (.scalar field plain)) m
        refine ⟨⟨[⟨s, base + displacement offset⟩], false⟩, ?_, fun leaf => ?_⟩
        · have selected : fieldPlan (copyPlanWithin m depth) base ty offset =
              (scalarOf ty).map fun s => ⟨[⟨s, base + displacement offset⟩], false⟩ := by
            cases ty with
            | struct inner => exact absurd rfl (plain inner)
            | void | int | float | ptr => rfl
          rw [selected, scalar]
          rfl
        · rw [fieldLeaf_of_plain plain, scalar]
          obtain ⟨s', place⟩ := leaf
          simp [eq_comm]
    obtain ⟨parts, related⟩ := exists_forall₂ each
    refine ⟨⟨parts.flatMap (·.leaves), parts.any (·.nested)⟩, ?_, fun leaf => ?_⟩
    · have selected := mapM_eq_ok_iff.mpr (related.imp fun _ _ both => both.1)
      unfold copyPlanWithin
      rw [known, computed]
      exact congrArg (· >>= fun parts => pure (CopyPlan.mk (parts.flatMap (·.leaves)) (parts.any (·.nested)))) selected
    · rw [leafOf_iff, List.mem_flatMap]
      constructor
      · rintro ⟨part, member, inside⟩
        obtain ⟨entry, member', both⟩ := exists_of_forall₂ related.flip member
        exact ⟨entry.2, entry.1.2, ⟨layout, offsets, entry.1.1, known, computed, member'⟩, (both.2 leaf).mp inside⟩
      · rintro ⟨offset, ty, ⟨layout', offsets', label, known', computed', member⟩, contributed⟩
        cases known.symm.trans known'
        cases computed.symm.trans computed'
        obtain ⟨part, member', both⟩ := exists_of_forall₂ related member
        exact ⟨part, member', (both.2 leaf).mpr contributed⟩

/-- A struct has a plan, with one leaf for each of its scalars. -/
theorem exists_copyPlan {size : Nat} (valid : m.ValidLayout name size)
    (scalars : ∀ start offset ty, m.LeafAt name start offset ty → ty ∈ scalarTypes) :
    ∃ plan, copyPlan m name = .ok plan ∧ ∀ leaf, leaf ∈ plan.leaves ↔ LeafOf m name 0 leaf := by
  obtain ⟨fields, opened, -⟩ := valid.exists_fieldShapes
  have few : m.unentered [] < m.structs.length + 1 := Nat.lt_succ_of_le (List.length_filter_le _ _)
  exact exists_copyPlanWithin _ (Module.shape_of_fieldShapes opened) few scalars 0

/-- A scalar of the struct ends inside of it, and is copied where it is if it is not far away. -/
theorem exists_place {size start : Nat} {offset : UInt32} {ty : Ir.Ty} (valid : m.ValidLayout name size)
    (here : m.LeafAt name start offset ty) (plain : ty ∈ scalarTypes) :
    ∃ s width, scalarOf ty = .ok s ∧ m.sizeOf ty = .ok width ∧ width.toNat = s.bytes ∧
      start + offset.toNat + s.bytes ≤ size ∧
      (offset.toNat < 2 ^ 31 → (start.toUInt64 + displacement offset).toNat = start + offset.toNat) := by
  obtain ⟨fields, opened, rfl⟩ := valid.exists_fieldShapes
  have fits := valid.fits
  obtain ⟨s, width, scalar, measured, wide⟩ := exists_scalarOf plain m
  have bounds := here.bounds opened fits measured
  refine ⟨s, width, scalar, measured, wide, wide ▸ bounds, fun near => ?_⟩
  have sum : start.toUInt64 + offset.toNat.toUInt64 = (start + offset.toNat).toUInt64 := (UInt64.ofNat_add ..).symm
  rw [displacement_eq near, sum]
  exact Nat.mod_eq_of_lt (by omega)

/-- If no scalar is far away, the leaves are where the scalars are, each as wide as its type. -/
theorem leaves_of_near {size : Nat} (valid : m.ValidLayout name size)
    (scalars : ∀ start offset ty, m.LeafAt name start offset ty → ty ∈ scalarTypes) (near : m.Near name) {leaves : List Leaf}
    (all : ∀ leaf, leaf ∈ leaves ↔ LeafOf m name 0 leaf) :
    (∀ leaf ∈ leaves, leaf.offset.toNat + leaf.scalar.bytes ≤ size) ∧
      ∀ k, Covered leaves k ↔ m.LeafByte name k := by
  -- A leaf, and the scalar that it stands for.
  have stands {leaf : Leaf} (member : leaf ∈ leaves) : ∃ start offset ty width, m.LeafAt name start offset ty ∧
      m.sizeOf ty = .ok width ∧ width.toNat = leaf.scalar.bytes ∧ leaf.offset.toNat = start + offset.toNat ∧
      start + offset.toNat + leaf.scalar.bytes ≤ size := by
    obtain ⟨start, offset, ty, here, scalar, at'⟩ := (all leaf).mp member
    obtain ⟨s, width, scalar', measured, wide, bounds, same⟩ := exists_place valid here (scalars start offset ty here)
    cases Except.ok.inj (scalar.symm.trans scalar')
    rw [UInt64.zero_add] at at'
    exact ⟨start, offset, ty, width, here, measured, wide, at' ▸ same (near start offset ty here), bounds⟩
  refine ⟨fun leaf member => ?_, fun k => ⟨?_, ?_⟩⟩
  · obtain ⟨start, offset, ty, width, -, -, -, same, bounds⟩ := stands member
    omega
  · rintro ⟨leaf, member, low, high⟩
    obtain ⟨start, offset, ty, width, here, measured, wide, same, -⟩ := stands member
    exact ⟨start, offset, ty, width, here, measured, by omega, by omega⟩
  · rintro ⟨start, offset, ty, width, here, measured, low, high⟩
    obtain ⟨s, width', scalar, measured', wide, -, same⟩ := exists_place valid here (scalars start offset ty here)
    cases measured.symm.trans measured'
    have same := same (near start offset ty here)
    rw [← UInt64.zero_add start.toUInt64] at same
    refine ⟨⟨s, 0 + start.toUInt64 + displacement offset⟩, (all _).mpr ⟨start, offset, ty, here, scalar, rfl⟩, ?_, ?_⟩
    · exact same ▸ low
    · change k < (0 + start.toUInt64 + displacement offset).toNat + s.bytes
      omega

end StructLang.Machine
