import StructLang.Proofs.Builder.Registers
import StructLang.Proofs.Ir.Links

namespace StructLang.Ir

namespace FunctionBuilder

variable {b b' b'' : FunctionBuilder} {m : Module}

def Writes (b : FunctionBuilder) (i : Instruction) : Prop := ∃ id, i ∈ b.code id

theorem writes_congr (same : ∀ id, b'.code id = b.code id) (i : Instruction) : b'.Writes i ↔ b.Writes i := by
  simp only [Writes, same]

theorem Laid.writes_emit (laid : b.Laid) {i : Instruction} (ordinary : i.isSlot = false) {j : Instruction}
    (written : (b.emit i).Writes j) : b.Writes j ∨ j = i := by
  obtain ⟨id, member⟩ := written
  rw [laid.code_emit ordinary] at member
  split at member
  · rcases List.mem_append.mp member with before | new
    · exact .inl ⟨id, before⟩
    · exact .inr (List.mem_singleton.mp new)
  · exact .inl ⟨id, member⟩

theorem Laid.writes_alloca (laid : b.Laid) (ty : Ty) (i : Instruction) : (b.alloca ty).2.Writes i ↔ b.Writes i :=
  writes_congr (laid.code_alloca ty) i

theorem Laid.writes_terminate (laid : b.Laid) (t : Terminator) (i : Instruction) : (b.terminate t).Writes i ↔ b.Writes i :=
  writes_congr (laid.code_terminate t) i

theorem Sound.written_below (sound : b.Sound) {i : Instruction} {r : Reg} (written : b.Writes i) (dest : i.dest? = some r) :
    r.id < b.nextReg := by
  obtain ⟨id, member⟩ := written
  exact sound.below (List.mem_filterMap.mpr ⟨i, member, dest⟩)

structure Adds (b b' : FunctionBuilder) : Prop where
  regs : b.nextReg ≤ b'.nextReg
  fresh : ∀ {i r}, b'.Writes i → i.dest? = some r → b.Writes i ∨ b.nextReg ≤ r.id
  exits : ∀ id, b'.exit id = b.exit id

theorem Adds.refl (b : FunctionBuilder) : b.Adds b := ⟨Nat.le_refl _, fun written _ => .inl written, fun _ => rfl⟩

theorem Adds.trans (first : b.Adds b') (second : b'.Adds b'') : b.Adds b'' where
  regs := Nat.le_trans first.regs second.regs
  fresh written dest := by
    rcases second.fresh written dest with before | new
    · exact first.fresh before dest
    · exact .inr (Nat.le_trans first.regs new)
  exits id := (second.exits id).trans (first.exits id)

theorem Laid.adds_emit (laid : b.Laid) {i : Instruction} (ordinary : i.isSlot = false)
    (new : ∀ r, i.dest? = some r → b.nextReg ≤ r.id) : b.Adds (b.emit i) where
  regs := Nat.le_of_eq (laid.nextReg_emit i).symm
  fresh written dest := by
    rcases laid.writes_emit ordinary written with before | rfl
    · exact .inl before
    · exact .inr (new _ dest)
  exits := laid.exit_emit i

theorem Laid.adds_store (laid : b.Laid) (value addr : Value) : b.Adds (b.store value addr) := laid.adds_emit rfl nofun

theorem Laid.adds_define (laid : b.Laid) {t : Ty} {f : Reg → Instruction} (ordinary : (f ⟨b.nextReg, t⟩).isSlot = false)
    (dest : (f ⟨b.nextReg, t⟩).dest? = some ⟨b.nextReg, t⟩) : b.Adds (b.define t f).2 where
  regs := by
    change b.nextReg ≤ (FunctionBuilder.emit _ _).nextReg
    rw [(laid.bump _).nextReg_emit]
    exact Nat.le_succ _
  fresh written dest' := by
    rcases (laid.bump (b.nextReg + 1)).writes_emit ordinary written with before | rfl
    · exact .inl before
    · cases dest.symm.trans dest'
      exact .inr (Nat.le_refl _)
  exits id := (laid.bump (b.nextReg + 1)).exit_emit _ id

theorem Laid.adds_alloca (laid : b.Laid) (ty : Ty) : b.Adds (b.alloca ty).2 where
  regs := (laid.advances_alloca ty).grows.regs
  fresh written _ := .inl ((laid.writes_alloca ty _).mp written)
  exits := laid.exit_alloca ty

def Targets (m : Module) (b : FunctionBuilder) (v : Value) (ty : StructLang.Ty) : Prop :=
  ∀ r, v = .reg r → r.id < b.nextReg ∧ ∀ dest struct base index, b.Writes (.fieldAddr dest struct base index) →
    dest.id = r.id → m.fieldType? struct index = some (.ofSource ty)

theorem Targets.grow (adds : b.Adds b') {v : Value} {ty : StructLang.Ty} (targets : b.Targets m v ty) :
    b'.Targets m v ty := by
  intro r value
  obtain ⟨below, fields⟩ := targets r value
  refine ⟨Nat.lt_of_lt_of_le below adds.regs, ?_⟩
  intro dest struct base index written here
  rcases adds.fresh written rfl with before | new
  · exact fields dest struct base index before here
  · omega

/-- A frame slot is not a field. -/
theorem Sound.targets_slot (sound : b.Sound) {r : Reg} (slot : r ∈ defs b.slots) (ty : StructLang.Ty) :
    b.Targets m (.reg r) ty := by
  rintro _ ⟨⟩
  refine ⟨sound.slotBelow slot, ?_⟩
  rintro dest struct base index ⟨id, member⟩ here
  have written : dest ∈ defs (b.code id) := List.mem_filterMap.mpr ⟨_, member, rfl⟩
  exact absurd here.symm (sound.slotApart slot written)

/-- A register that has just been written holds the address of a field only if it was written as one. -/
theorem Sound.targets_define (sound : b.Sound) {t : Ty} {f : Reg → Instruction} (ordinary : (f ⟨b.nextReg, t⟩).isSlot = false)
    {ty : StructLang.Ty} (field : ∀ {dest struct base index}, f ⟨b.nextReg, t⟩ = .fieldAddr dest struct base index →
      m.fieldType? struct index = some (.ofSource ty)) :
    (b.define t f).2.Targets m (b.define t f).1 ty := by
  have laid := sound.laid.bump (b.nextReg + 1)
  rintro r ⟨⟩
  constructor
  · change b.nextReg < (FunctionBuilder.emit _ _).nextReg
    rw [laid.nextReg_emit]
    exact Nat.lt_succ_self _
  · intro dest struct base index written here
    rcases laid.writes_emit ordinary written with before | new
    · have below : dest.id < b.nextReg := sound.written_below before rfl
      exact absurd here (Nat.ne_of_lt below)
    · exact field new.symm

end FunctionBuilder

namespace Module.Links

variable {b b' : FunctionBuilder} {m : Module} {n : Nat} {i : Instruction}

open FunctionBuilder

/-- Code goes on fitting the module if a new instruction does. -/
theorem emit (sound : b.Sound) (links : m.Links b.Writes) (ordinary : i.isSlot = false)
    (constants : ∀ v ∈ i.operands, m.Knows v)
    (field : ∀ {dest struct base index}, i = .fieldAddr dest struct base index →
      b.nextReg ≤ dest.id ∧ ∃ ty, m.fieldType? struct index = some ty)
    (store : ∀ {value addr}, i = .store value addr → ∃ ty, b.Targets m addr ty ∧ value.ty = .ofSource ty) :
    m.Links ({ b with nextReg := n }.emit i).Writes := by
  have split : ∀ {j}, ({ b with nextReg := n }.emit i).Writes j → b.Writes j ∨ j = i :=
    fun written => (sound.laid.bump n).writes_emit ordinary written
  constructor
  · intro dest struct base index written
    rcases split written with before | new
    · exact links.fields before
    · exact (field new.symm).2
  · intro value r dest struct base index written field' here
    rcases split written with before | new
    · rcases split field' with before' | new'
      · exact links.stores before before' here
      · -- No earlier store can have used the register of a new address.
        obtain ⟨id, member⟩ := before
        have below := sound.read_below member (r := r) (by simp [Instruction.operands])
        have := (field new'.symm).1
        omega
    · rcases split field' with before' | new'
      · obtain ⟨ty, targets, typed⟩ := store new.symm
        rw [typed]
        exact (targets r rfl).2 dest struct base index before' here
      · cases new.trans new'.symm
  · intro j written
    rcases split written with before | rfl
    · exact links.constants before
    · exact constants

theorem define (sound : b.Sound) (links : m.Links b.Writes) {t : Ty} {f : Reg → Instruction}
    (ordinary : (f ⟨b.nextReg, t⟩).isSlot = false) (dest : (f ⟨b.nextReg, t⟩).dest? = some ⟨b.nextReg, t⟩)
    (constants : ∀ v ∈ (f ⟨b.nextReg, t⟩).operands, m.Knows v)
    (field : ∀ {r struct base index}, f ⟨b.nextReg, t⟩ = .fieldAddr r struct base index →
      ∃ ty, m.fieldType? struct index = some ty) : m.Links (b.define t f).2.Writes := by
  refine links.emit sound ordinary constants (fun same => ⟨?_, field same⟩) fun same => ?_
  · rw [same] at dest
    cases dest
    exact Nat.le_refl _
  · rw [same] at dest
    cases dest

theorem of_writes (links : m.Links b.Writes) (same : ∀ i, b'.Writes i ↔ b.Writes i) : m.Links b'.Writes :=
  links.mono (fun i => (same i).mp) rfl (List.Subset.refl _)

end Module.Links

end StructLang.Ir
