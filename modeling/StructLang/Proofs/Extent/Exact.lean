import StructLang.Proofs.Extent.Shapes

namespace StructLang.Ir

def ceiling (n align : Nat) : Nat := if n % align = 0 then n else n + (align - n % align)

theorem le_ceiling (n align : Nat) : n ≤ ceiling n align := by
  unfold ceiling
  split <;> omega

theorem isLeast_ceiling (n : Nat) {align : Nat} (positive : 0 < align) :
    IsLeast {k | align ∣ k ∧ n ≤ k} (ceiling n align) := by
  have remainder := Nat.mod_lt n positive
  have parts := Nat.div_add_mod n align
  refine ⟨⟨?_, le_ceiling n align⟩, ?_⟩
  · unfold ceiling
    split
    · exact Nat.dvd_of_mod_eq_zero ‹_›
    · refine ⟨n / align + 1, ?_⟩
      rw [Nat.mul_add, Nat.mul_one]
      omega
  · rintro k ⟨⟨quotient, rfl⟩, above⟩
    unfold ceiling
    split
    · exact above
    · -- A multiple that is not below `n` and not `n / align` times `align` is the next one at least.
      have larger : n / align < quotient := Nat.lt_of_mul_lt_mul_left (a := align) (by omega)
      have next := Nat.mul_le_mul_left align larger
      rw [Nat.mul_succ] at next
      omega

structure ExactExtent where
  size : Nat
  align : Nat

def sum? (a b : UInt32) : Option UInt32 := if a.toNat + b.toNat < 2 ^ 32 then some (a + b) else none

def roundUp? (n align : UInt32) : Option UInt32 :=
  if n % align = 0 then some n else sum? n (align - n % align)

namespace Extent

def scalar? (width : Nat) : Option Extent :=
  if ((width + 7) / 8).nextPowerOfTwo < 2 ^ 32 then some (.scalar width) else none

def place? (before field : Extent) : Option Extent := do
  let start ← roundUp? before.size field.align
  return ⟨← sum? start field.size, max before.align field.align⟩

def close? (e : Extent) : Option Extent := do return ⟨← roundUp? e.size e.align, e.align⟩

def offsets? (stop : UInt32) : List Extent → Option (List UInt32)
  | [] => some []
  | field :: rest => do
    let start ← roundUp? stop field.align
    let next ← sum? start field.size
    return start :: (← offsets? next rest)

structure Is (e : Extent) (x : ExactExtent) : Prop where
  size : e.size.toNat = x.size
  align : e.align.toNat = x.align

end Extent

namespace Measure

def exact : Measure ExactExtent where
  void := ⟨0, 1⟩
  scalar width := ⟨((width + 7) / 8).nextPowerOfTwo, ((width + 7) / 8).nextPowerOfTwo⟩
  ptr := ⟨8, 8⟩
  place before field := ⟨ceiling before.size field.align + field.size, max before.align field.align⟩
  close e := ⟨ceiling e.size e.align, e.align⟩

def checked : Measure (Option Extent) where
  void := some ⟨0, 1⟩
  scalar := Extent.scalar?
  ptr := some ⟨8, 8⟩
  place before field := do (← before).place? (← field)
  close e := do (← e).close?

end Measure

theorem sum_fits {a b : UInt32} (fits : a.toNat + b.toNat < 2 ^ 32) :
    sum? a b = some (a + b) ∧ (a + b).toNat = a.toNat + b.toNat := by
  rw [sum?, if_pos fits, UInt32.toNat_add, Nat.mod_eq_of_lt fits]
  exact ⟨rfl, rfl⟩

theorem roundUp_fits (n : UInt32) {align : UInt32} (positive : 0 < align.toNat)
    (fits : ceiling n.toNat align.toNat < 2 ^ 32) :
    roundUp? n align = some (roundUp n align) ∧ (roundUp n align).toNat = ceiling n.toNat align.toNat := by
  have zero : n % align = 0 ↔ n.toNat % align.toNat = 0 := by
    rw [← UInt32.toNat_inj, UInt32.toNat_mod]
    rfl
  unfold ceiling at fits ⊢
  unfold roundUp? roundUp
  by_cases even : n.toNat % align.toNat = 0
  · rw [if_pos (zero.mpr even), if_pos (zero.mpr even), if_pos even]
    exact ⟨rfl, rfl⟩
  · have below : (n % align).toNat ≤ align.toNat := by
      rw [UInt32.toNat_mod]
      exact (Nat.mod_lt _ positive).le
    have gap : (align - n % align).toNat = align.toNat - n.toNat % align.toNat := by
      rw [UInt32.toNat_sub_of_le _ _ (UInt32.le_iff_toNat_le.mpr below), UInt32.toNat_mod]
    rw [if_neg even, ← gap] at fits
    rw [if_neg (mt zero.mp even), if_neg (mt zero.mp even), if_neg even, ← gap]
    exact sum_fits fits

namespace Extent

variable {e field : Extent} {x y : ExactExtent}

theorem Is.place (before : e.Is x) (next : field.Is y) (positive : 0 < y.align)
    (fits : (Measure.exact.place x y).size < 2 ^ 32) :
    (roundUp? e.size field.align = some (roundUp e.size field.align) ∧
      (roundUp e.size field.align).toNat = ceiling x.size y.align) ∧
    sum? (roundUp e.size field.align) field.size = some (e.place field).size ∧
      (e.place field).Is (Measure.exact.place x y) := by
  have fits : ceiling x.size y.align + y.size < 2 ^ 32 := fits
  have start : ceiling e.size.toNat field.align.toNat < 2 ^ 32 := by
    rw [before.size, next.align]
    omega
  have rounded := roundUp_fits e.size (next.align ▸ positive) start
  rw [before.size, next.align] at rounded
  have stop : (roundUp e.size field.align).toNat + field.size.toNat < 2 ^ 32 := by
    rw [rounded.2, next.size]
    exact fits
  obtain ⟨added, exactly⟩ := sum_fits stop
  rw [rounded.2, next.size] at exactly
  refine ⟨rounded, added, exactly, ?_⟩
  exact (UInt32.toNat_max _ _).trans (by rw [before.align, next.align]; rfl)

theorem Is.place? (before : e.Is x) (next : field.Is y) (positive : 0 < y.align)
    (fits : (Measure.exact.place x y).size < 2 ^ 32) : e.place? field = some (e.place field) := by
  obtain ⟨⟨rounded, -⟩, added, -⟩ := before.place next positive fits
  simp only [Extent.place?, rounded, Option.bind_eq_bind, Option.bind_some, added]
  rfl

theorem Is.close (whole : e.Is x) (positive : 0 < x.align) (fits : (Measure.exact.close x).size < 2 ^ 32) :
    e.close? = some e.close ∧ e.close.Is (Measure.exact.close x) := by
  have stop : ceiling e.size.toNat e.align.toNat < 2 ^ 32 := by
    rw [whole.size, whole.align]
    exact fits
  have rounded := roundUp_fits e.size (whole.align ▸ positive) stop
  rw [whole.size, whole.align] at rounded
  refine ⟨?_, rounded.2, whole.align⟩
  simp only [close?, rounded.1, Option.bind_eq_bind, Option.bind_some]
  rfl

theorem scalar_fits {width : Nat} (fits : (Measure.exact.scalar width).size < 2 ^ 32) :
    scalar? width = some (.scalar width) ∧ (scalar width).Is (Measure.exact.scalar width) := by
  have bytes : (UInt32.ofNat ((width + 7) / 8).nextPowerOfTwo).toNat = ((width + 7) / 8).nextPowerOfTwo :=
    UInt32.toNat_ofNat_of_lt' fits
  exact ⟨if_pos fits, bytes, bytes⟩

end Extent

namespace Measure

mutual

/-- Every alignment is a power of two. -/
theorem isPowerOfTwo_of : (s : Shape) → (exact.of s).align.isPowerOfTwo
  | .void => ⟨0, rfl⟩
  | .int width => by
    rw [of]
    exact Nat.isPowerOfTwo_nextPowerOfTwo _
  | .float width => by
    rw [of]
    exact Nat.isPowerOfTwo_nextPowerOfTwo _
  | .ptr => ⟨3, rfl⟩
  | .struct fields => by
    rw [of]
    exact isPowerOfTwo_after ⟨0, rfl⟩ fields
termination_by structural s => s

theorem isPowerOfTwo_after {before : ExactExtent} (power : before.align.isPowerOfTwo) : (fields : List Shape) →
    (exact.after before fields).align.isPowerOfTwo
  | [] => by
    rw [after]
    exact power
  | s :: rest => by
    rw [after]
    have larger : (max before.align (exact.of s).align).isPowerOfTwo := by
      rcases max_choice before.align (exact.of s).align with same | same
      · exact same.symm ▸ power
      · exact same.symm ▸ isPowerOfTwo_of s
    exact isPowerOfTwo_after larger rest
termination_by structural fields => fields

end

theorem align_pos (s : Shape) : 0 < (exact.of s).align := Nat.pos_of_isPowerOfTwo (isPowerOfTwo_of s)

theorem size_le_after (before : ExactExtent) (fields : List Shape) :
    before.size ≤ (exact.after before fields).size := by
  induction fields generalizing before with
  | nil => exact Nat.le_refl _
  | cons s rest ih =>
    rw [after]
    have rounded := le_ceiling before.size (exact.of s).align
    have placed : ceiling before.size (exact.of s).align + (exact.of s).size ≤ _ := ih (exact.place before (exact.of s))
    omega

theorem size_le_after_of_mem {before : ExactExtent} {fields : List Shape} {s : Shape} (member : s ∈ fields) :
    (exact.of s).size ≤ (exact.after before fields).size := by
  induction fields generalizing before with
  | nil => cases member
  | cons first rest ih =>
    rw [after]
    rcases List.mem_cons.mp member with rfl | later
    · have placed : ceiling before.size (exact.of s).align + (exact.of s).size ≤ _ :=
        size_le_after (exact.place before (exact.of s)) rest
      omega
    · exact ih later

theorem size_after_le_of (fields : List Shape) :
    (exact.after exact.void fields).size ≤ (exact.of (.struct fields)).size := by
  rw [of]
  exact le_ceiling _ _

/-- The fields of a struct are no larger than the struct. -/
theorem size_le_of_mem {fields : List Shape} {s : Shape} (member : s ∈ fields) :
    (exact.of s).size ≤ (exact.of (.struct fields)).size :=
  (size_le_after_of_mem member).trans (size_after_le_of fields)

theorem is_void : wrapping.void.Is exact.void := ⟨rfl, rfl⟩

mutual

/-- If the exact size fits, then no sum overflows, and the numbers of 32 bits are the exact ones. -/
theorem fits_of : (s : Shape) → (exact.of s).size < 2 ^ 32 →
    checked.of s = some (wrapping.of s) ∧ (wrapping.of s).Is (exact.of s)
  | .void, _ => ⟨rfl, rfl, rfl⟩
  | .int width, fits => by
    rw [of] at fits
    simp only [of]
    exact Extent.scalar_fits fits
  | .float width, fits => by
    rw [of] at fits
    simp only [of]
    exact Extent.scalar_fits fits
  | .ptr, _ => ⟨rfl, rfl, rfl⟩
  | .struct fields, fits => by
    have inside := Nat.lt_of_le_of_lt (size_after_le_of fields) fits
    obtain ⟨filled, whole⟩ := fits_after is_void fields inside
    rw [of] at fits
    obtain ⟨closed, exactly⟩ := whole.close (align_pos (.struct fields)) fits
    simp only [of]
    refine ⟨?_, exactly⟩
    change (checked.after (some wrapping.void) fields >>= Extent.close?) = _
    rw [filled]
    exact closed
termination_by structural s => s

theorem fits_after {e : Extent} {before : ExactExtent} (is : e.Is before) : (fields : List Shape) →
    (exact.after before fields).size < 2 ^ 32 →
    checked.after (some e) fields = some (wrapping.after e fields) ∧
      (wrapping.after e fields).Is (exact.after before fields)
  | [], _ => ⟨rfl, is⟩
  | s :: rest, fits => by
    have small := Nat.lt_of_le_of_lt (size_le_after_of_mem List.mem_cons_self) fits
    rw [after] at fits
    have placedFits := Nat.lt_of_le_of_lt (size_le_after _ rest) fits
    obtain ⟨measured, field⟩ := fits_of s small
    obtain ⟨-, -, placed⟩ := is.place field (align_pos s) placedFits
    have place : checked.place (some e) (checked.of s) = some (e.place (wrapping.of s)) := by
      rw [measured]
      exact is.place? field (align_pos s) placedFits
    simp only [after, place]
    exact fits_after placed rest fits
termination_by structural fields => fields

end

end Measure

end StructLang.Ir
