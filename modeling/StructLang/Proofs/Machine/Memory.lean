import StructLang.Machine.Memory

namespace StructLang.Machine.Memory

variable {m : Memory} {addr : Nat}

theorem getD_bytes (m : Memory) (k : Nat) : m.bytes.getD k 0 = m.bytes[k]?.getD 0 := by
  rw [Array.getD_eq_getD_getElem?]

@[simp] theorem size_writeAt (m : Memory) (addr : Nat) (w : Word) (n : Nat) : (m.writeAt addr w n).size = m.size := by
  induction n generalizing m addr w with
  | zero => rfl
  | succ n ih =>
    rw [writeAt, ih]
    exact Array.size_setIfInBounds

/-- Bytes outside of the place are as before. -/
theorem bytes_writeAt {k : Nat} {w : Word} {n : Nat} (outside : k < addr ∨ addr + n ≤ k) :
    (m.writeAt addr w n).bytes[k]? = m.bytes[k]? := by
  induction n generalizing m addr w with
  | zero => rfl
  | succ n ih =>
    rw [writeAt, ih (by omega), Array.getElem?_setIfInBounds_ne (by omega)]

theorem readAt_congr {m' : Memory} {n : Nat} (same : ∀ k, addr ≤ k → k < addr + n → m'.bytes[k]? = m.bytes[k]?) :
    m'.readAt addr n = m.readAt addr n := by
  induction n generalizing addr with
  | zero => rfl
  | succ n ih =>
    rw [readAt, readAt, getD_bytes, getD_bytes, same addr (Nat.le_refl _) (by omega),
      ih fun k low high => same k (by omega) (by omega)]

def lowBytes : Nat → Word → Word
  | 0, _ => 0
  | n + 1, w => (lowBytes n (w >>> 8) <<< 8) ||| w.toUInt8.toUInt64

theorem readAt_writeAt_lowBytes {w : Word} {n : Nat} (fits : addr + n ≤ m.size) :
    (m.writeAt addr w n).readAt addr n = lowBytes n w := by
  induction n generalizing m addr w with
  | zero => rfl
  | succ n ih =>
    rw [writeAt, readAt, lowBytes, ih, getD_bytes, bytes_writeAt (by omega)]
    · rw [Array.getElem?_setIfInBounds_self_of_lt (by rw [size] at fits; omega)]
      rfl
    · rw [size, Array.size_setIfInBounds]
      rw [size] at fits
      omega

theorem shift_or_low (w : Word) : (w >>> 8 <<< 8) ||| w.toUInt8.toUInt64 = w := by
  have low : w.toNat % 256 < 2 ^ 8 := Nat.mod_lt _ (by decide)
  have high : w.toNat / 256 * 256 < 2 ^ 64 := Nat.lt_of_le_of_lt (Nat.div_mul_le_self _ _) w.toNat_lt
  apply UInt64.toNat_inj.mp
  simp only [UInt64.toNat_or, UInt64.toNat_shiftLeft, UInt64.toNat_shiftRight, UInt8.toNat_toUInt64,
    UInt64.toNat_toUInt8, UInt64.reduceToNat, Nat.reduceMod]
  rw [Nat.shiftRight_eq_div_pow, Nat.mod_eq_of_lt (by rw [Nat.shiftLeft_eq]; exact high),
    ← Nat.shiftLeft_add_eq_or_of_lt low, Nat.shiftLeft_eq]
  omega

/-- A word is made of its low bytes if it has no others. -/
theorem lowBytes_eq {n : Nat} {w : Word} (small : w.toNat >>> (8 * n) = 0) : lowBytes n w = w := by
  induction n generalizing w with
  | zero =>
    rw [Nat.mul_zero, Nat.shiftRight_zero] at small
    exact (UInt64.toNat_inj.mp small).symm
  | succ n ih =>
    rw [lowBytes, ih, shift_or_low]
    rw [Nat.mul_succ, Nat.add_comm, Nat.shiftRight_add] at small
    simpa using small

theorem readAt_writeAt {w : Word} (fits : addr + 8 ≤ m.size) : (m.writeAt addr w 8).readAt addr 8 = w := by
  rw [readAt_writeAt_lowBytes fits, lowBytes_eq]
  rw [Nat.shiftRight_eq_div_pow]
  exact Nat.div_eq_of_lt w.toNat_lt

theorem growTo_eq (m : Memory) (size : Nat) : m.growTo size = ⟨m.bytes ++ Array.replicate (size - m.size) 0⟩ := by
  rw [growTo]
  congr 1
  induction size - m.size with
  | zero => simp
  | succ n ih =>
    rw [List.range_succ, List.foldl_append, ih]
    simp [Array.replicate_succ]

theorem size_growTo {size : Nat} (more : m.size ≤ size) : (m.growTo size).size = size := by
  rw [growTo_eq, Memory.size, Array.size_append, Array.size_replicate]
  exact Nat.add_sub_cancel' more

theorem bytes_growTo {size k : Nat} (below : k < m.size) : (m.growTo size).bytes[k]? = m.bytes[k]? := by
  rw [growTo_eq, Array.getElem?_append_left below]

/-- Giving back what was added: below the old size nothing may have changed. -/
theorem shrinkTo_eq {m' : Memory} (same : ∀ k < m.size, m'.bytes[k]? = m.bytes[k]?) : m'.shrinkTo m.size = m := by
  rw [shrinkTo, Array.shrink_eq_take]
  congr 1
  refine Array.ext_getElem? fun k => ?_
  rw [Array.getElem?_extract, Nat.sub_zero, Nat.zero_add]
  split
  · exact same k (by omega)
  · by_cases below : k < m.size
    · rw [← same k below, Array.getElem?_eq_none (by omega)]
    · rw [Array.getElem?_eq_none (Nat.le_of_not_lt below)]

theorem inBounds_of {k : Nat} (low : origin ≤ k) (high : k + 8 ≤ m.size) (small : m.size < 0x10000000000000000) :
    k.toUInt64.toNat = k ∧ m.inBounds k.toUInt64 8 = true := by
  have same : k.toUInt64.toNat = k := Nat.mod_eq_of_lt (by omega)
  rw [inBounds, same]
  exact ⟨rfl, by simp [low, high]⟩

variable {k : Nat} (low : origin ≤ k) (high : k + 8 ≤ m.size) (small : m.size < 0x10000000000000000)
include low high small

theorem store_eq (w : Word) : m.store .i64 k.toUInt64 w = .ok (m.writeAt k w 8) := by
  obtain ⟨same, inside⟩ := inBounds_of low high small
  rw [store, Scalar.bytes, if_pos inside, same]

theorem load_eq : m.load .i64 k.toUInt64 = .ok (m.readAt k 8) := by
  obtain ⟨same, inside⟩ := inBounds_of low high small
  rw [load, Scalar.bytes, if_pos inside, same]

end StructLang.Machine.Memory
