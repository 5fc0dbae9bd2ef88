import Mathlib
import StructLang.Proofs.Machine.Memory

namespace StructLang.Machine

def Leaf.Covers (leaf : Leaf) (k : Nat) : Prop :=
  leaf.offset.toNat ≤ k ∧ k < leaf.offset.toNat + leaf.scalar.bytes

instance (leaf : Leaf) (k : Nat) : Decidable (leaf.Covers k) := inferInstanceAs (Decidable (_ ∧ _))

def Covered (leaves : List Leaf) (k : Nat) : Prop := ∃ leaf ∈ leaves, leaf.Covers k

instance (leaves : List Leaf) (k : Nat) : Decidable (Covered leaves k) :=
  inferInstanceAs (Decidable (∃ leaf ∈ leaves, leaf.Covers k))

theorem covered_append {leaves leaves' : List Leaf} {k : Nat} :
    Covered (leaves ++ leaves') k ↔ Covered leaves k ∨ Covered leaves' k := by
  simp [Covered, or_and_right, exists_or]

namespace Memory

variable {m m' : Memory} {addr : Nat}

def Has (m : Memory) (start size : Nat) : Prop := origin ≤ start ∧ start + size ≤ m.size

instance (m : Memory) (start size : Nat) : Decidable (m.Has start size) := inferInstanceAs (Decidable (_ ∧ _))

section Bytes

theorem readAt_lt (m : Memory) (addr : Nat) {n : Nat} (small : n ≤ 8) : (m.readAt addr n).toNat < 2 ^ (8 * n) := by
  induction n generalizing addr with
  | zero => exact Nat.one_pos
  | succ n ih =>
    have rest := ih (addr + 1) (by omega)
    have byte := (m.bytes.getD addr 0).toNat_lt
    have size : 2 ^ (8 * (n + 1)) = 2 ^ (8 * n) * 2 ^ 8 := by rw [← pow_add]; rfl
    rw [readAt, UInt64.toNat_or]
    apply Nat.or_lt_two_pow
    · rw [UInt64.toNat_shiftLeft, Nat.shiftLeft_eq, size]
      exact Nat.lt_of_le_of_lt (Nat.mod_le _ _) (Nat.mul_lt_mul_of_pos_right rest (by decide))
    · rw [UInt8.toNat_toUInt64, size]
      exact Nat.lt_of_lt_of_le byte (Nat.le_mul_of_pos_left _ (Nat.two_pow_pos _))

/-- The number that is read, one byte in front of the others. -/
theorem toNat_readAt_succ (m : Memory) (addr : Nat) {n : Nat} (small : n < 8) :
    (m.readAt addr (n + 1)).toNat = (m.readAt (addr + 1) n).toNat * 256 + (m.bytes.getD addr 0).toNat := by
  have rest := m.readAt_lt (addr + 1) (Nat.le_of_lt small)
  have byte := (m.bytes.getD addr 0).toNat_lt
  have high : (m.readAt (addr + 1) n).toNat <<< 8 < 2 ^ 64 := by
    rw [Nat.shiftLeft_eq]
    calc
      (m.readAt (addr + 1) n).toNat * 2 ^ 8 < 2 ^ (8 * n) * 2 ^ 8 := Nat.mul_lt_mul_of_pos_right rest (by decide)
      _ = 2 ^ (8 * n + 8) := (pow_add 2 (8 * n) 8).symm
      _ ≤ 2 ^ 64 := Nat.pow_le_pow_right (by decide) (by omega)
  rw [readAt, UInt64.toNat_or, UInt64.toNat_shiftLeft, UInt8.toNat_toUInt64]
  rw [show (8 : UInt64).toNat % 64 = 8 from rfl, Nat.mod_eq_of_lt high, ← Nat.shiftLeft_add_eq_or_of_lt byte,
    Nat.shiftLeft_eq]

theorem toUInt8_readAt (m : Memory) (addr : Nat) {n : Nat} (small : n < 8) :
    (m.readAt addr (n + 1)).toUInt8 = m.bytes.getD addr 0 := by
  apply UInt8.toNat_inj.mp
  rw [UInt64.toNat_toUInt8, toNat_readAt_succ m addr small]
  have byte := (m.bytes.getD addr 0).toNat_lt
  omega

theorem readAt_shiftRight (m : Memory) (addr : Nat) {n : Nat} (small : n < 8) :
    m.readAt addr (n + 1) >>> 8 = m.readAt (addr + 1) n := by
  apply UInt64.toNat_inj.mp
  rw [UInt64.toNat_shiftRight, show (8 : UInt64).toNat % 64 = 8 from rfl, Nat.shiftRight_eq_div_pow,
    toNat_readAt_succ m addr small]
  have byte := (m.bytes.getD addr 0).toNat_lt
  omega

/-- What is read at one place and written at another has the same bytes there. -/
theorem bytes_writeAt_readAt {start n k : Nat} (small : n ≤ 8) (source : start + n ≤ m'.size) (target : addr + n ≤ m.size)
    (inside : k < n) : (m.writeAt addr (m'.readAt start n) n).bytes[addr + k]? = m'.bytes[start + k]? := by
  induction n generalizing m addr start k with
  | zero => omega
  | succ n ih =>
    rw [writeAt, readAt_shiftRight m' start (by omega), toUInt8_readAt m' start (by omega)]
    cases k with
    | zero =>
      rw [bytes_writeAt (by omega)]
      have known : start < m'.bytes.size := by
        rw [size] at source
        omega
      rw [Nat.add_zero, Nat.add_zero, Array.getElem?_setIfInBounds_self_of_lt (by rw [size] at target; omega), getD_bytes,
        Array.getElem?_eq_getElem known]
      rfl
    | succ k =>
      rw [show addr + (k + 1) = addr + 1 + k by omega, show start + (k + 1) = start + 1 + k by omega]
      refine ih (by omega) (by omega) ?_ (by omega)
      rw [size, Array.size_setIfInBounds]
      rw [size] at target
      omega

end Bytes

structure Copied (leaves : List Leaf) (source target : Nat) (m m' : Memory) : Prop where
  size : m'.size = m.size
  copied : ∀ k, Covered leaves k → m'.bytes[target + k]? = m.bytes[source + k]?
  kept : ∀ a, (∀ k, Covered leaves k → a ≠ target + k) → m'.bytes[a]? = m.bytes[a]?

namespace Copied

variable {leaves leaves' : List Leaf} {source target : Nat} {m'' : Memory}

theorem refl (source target : Nat) (m : Memory) : Copied [] source target m m :=
  ⟨rfl, by simp [Covered], fun _ _ => rfl⟩

/-- Leaves may overlap, but what is still to be copied may not have been written to. -/
theorem append (first : Copied leaves source target m m') (second : Copied leaves' source target m' m'')
    (apart : ∀ k, Covered leaves k → ∀ k', Covered leaves' k' → source + k' ≠ target + k) :
    Copied (leaves ++ leaves') source target m m'' := by
  refine ⟨second.size.trans first.size, fun k covered => ?_, fun a outside => ?_⟩
  · by_cases later : Covered leaves' k
    · rw [second.copied k later]
      exact first.kept _ fun k' covered' => apart k' covered' k later
    · have here := (covered_append.mp covered).resolve_right later
      have unwritten k' (covered' : Covered leaves' k') : target + k ≠ target + k' := by
        rintro same
        cases Nat.add_left_cancel same
        exact later covered'
      rw [second.kept _ unwritten, first.copied k here]
  · rw [second.kept a fun k covered => outside k (covered_append.mpr (.inr covered)),
      first.kept a fun k covered => outside k (covered_append.mpr (.inl covered))]

end Copied

section Copy

variable {source target : Word} {size : Nat}

theorem toNat_add_offset {offset : Word} {bytes : Nat} (some : 0 < bytes) (inside : offset.toNat + bytes ≤ size)
    (has : m.Has source.toNat size) (small : m.size ≤ 2 ^ 64) :
    (source + offset).toNat = source.toNat + offset.toNat ∧ m.inBounds (source + offset) bytes = true := by
  have bound := has.2
  have same : (source + offset).toNat = source.toNat + offset.toNat := by
    rw [UInt64.toNat_add]
    exact Nat.mod_eq_of_lt (by omega)
  refine ⟨same, ?_⟩
  have low := has.1
  simp only [inBounds, same, Bool.and_eq_true, decide_eq_true_eq]
  omega

theorem bytes_pos (s : Scalar) : 0 < s.bytes ∧ s.bytes ≤ 8 := by cases s <;> decide

/-- One leaf. -/
theorem copied_leaf {leaf : Leaf} (inside : leaf.offset.toNat + leaf.scalar.bytes ≤ size) (has : m.Has source.toNat size)
    (has' : m.Has target.toNat size) :
    Copied [leaf] source.toNat target.toNat m
      (m.writeAt (target.toNat + leaf.offset.toNat) (m.readAt (source.toNat + leaf.offset.toNat) leaf.scalar.bytes)
        leaf.scalar.bytes) := by
  have bound := has.2
  have bound' := has'.2
  refine ⟨size_writeAt .., fun k covered => ?_, fun a outside => ?_⟩
  · obtain ⟨_, member, low, high⟩ := covered
    cases List.mem_singleton.mp member
    obtain ⟨j, rfl⟩ := Nat.exists_eq_add_of_le low
    rw [← Nat.add_assoc, ← Nat.add_assoc]
    exact bytes_writeAt_readAt (bytes_pos _).2 (by omega) (by omega) (by omega)
  · apply bytes_writeAt
    by_contra inside'
    refine outside (a - target.toNat) ⟨leaf, List.mem_singleton_self leaf, ?_, ?_⟩ ?_ <;> omega

/-- The scalars of a struct are copied, whatever else the source and the target hold, if they do not overlap. -/
theorem copy_ok {leaves : List Leaf} (inside : ∀ leaf ∈ leaves, leaf.offset.toNat + leaf.scalar.bytes ≤ size)
    (has : m.Has source.toNat size) (has' : m.Has target.toNat size) (small : m.size ≤ 2 ^ 64)
    (apart : source.toNat + size ≤ target.toNat ∨ target.toNat + size ≤ source.toNat) :
    ∃ m', m.copy source target leaves = .ok m' ∧ Copied leaves source.toNat target.toNat m m' := by
  induction leaves generalizing m with
  | nil => exact ⟨m, rfl, .refl _ _ m⟩
  | cons leaf rest ih =>
    obtain ⟨here, others⟩ := List.forall_mem_cons.mp inside
    obtain ⟨same, bounds⟩ := toNat_add_offset (bytes_pos _).1 here has small
    obtain ⟨same', bounds'⟩ := toNat_add_offset (bytes_pos _).1 here has' small
    have first := copied_leaf here has has'
    obtain ⟨m', copies, second⟩ := ih others ⟨has.1, first.size ▸ has.2⟩ ⟨has'.1, first.size ▸ has'.2⟩ (first.size ▸ small)
    refine ⟨m', ?_, first.append second ?_⟩
    · rw [copy, load, if_pos bounds, same]
      change (m.store leaf.scalar (target + leaf.offset) _ >>= fun m => m.copy source target rest) = _
      rw [store, if_pos bounds', same']
      exact copies
    · rintro k ⟨_, member, covers⟩ k' ⟨leaf', member', covers'⟩
      cases List.mem_singleton.mp member
      have := covers.2
      have := covers'.2
      have := others leaf' member'
      omega

/-- The first step of a copy reads a leaf, and writes it to a memory of the same size. -/
theorem copy_cons_ok {leaf : Leaf} {rest : List Leaf} (copies : m.copy source target (leaf :: rest) = .ok m') :
    m.inBounds (source + leaf.offset) leaf.scalar.bytes = true ∧
      ∃ next : Memory, next.size = m.size ∧ next.copy source target rest = .ok m' := by
  rw [copy, load] at copies
  split at copies
  · rename_i inside
    refine ⟨inside, ?_⟩
    change (m.store leaf.scalar (target + leaf.offset) _ >>= fun m => m.copy source target rest) = _ at copies
    rw [store] at copies
    split at copies
    · exact ⟨_, size_writeAt .., copies⟩
    · cases copies
  · cases copies

/-- A copy that succeeds has found every leaf at the source. -/
theorem inBounds_of_copy {leaves : List Leaf} (copies : m.copy source target leaves = .ok m') {leaf : Leaf}
    (member : leaf ∈ leaves) : m.inBounds (source + leaf.offset) leaf.scalar.bytes = true := by
  induction leaves generalizing m with
  | nil => cases member
  | cons first rest ih =>
    obtain ⟨inside, next, size, copies'⟩ := copy_cons_ok copies
    rcases List.mem_cons.mp member with rfl | later
    · exact inside
    · have found := ih copies' later
      rwa [inBounds, size] at found

/-- A copy from places further on is a copy of leaves further on. -/
theorem copy_add (distance : Word) (leaves : List Leaf) :
    m.copy (source + distance) (target + distance) leaves =
      m.copy source target (leaves.map fun leaf => ⟨leaf.scalar, distance + leaf.offset⟩) := by
  induction leaves generalizing m with
  | nil => rfl
  | cons leaf rest ih =>
    rw [List.map_cons, copy, copy, UInt64.add_assoc, UInt64.add_assoc]
    simp only [ih]

end Copy

end Memory

end StructLang.Machine
