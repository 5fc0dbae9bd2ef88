import StructLang.Machine.Run
import StructLang.Proofs.Machine.CopyPlans

namespace StructLang.Machine

open Ir

/-- The places of an assignment. The first two may be any, also the same, but lie apart from the fresh one. -/
structure Places (memory : Memory) (size source target fresh : Nat) : Prop where
  small : memory.size < 2 ^ 64
  hasSource : memory.Has source size
  hasTarget : memory.Has target size
  hasFresh : memory.Has fresh size
  sourceApart : source + size ≤ fresh ∨ fresh + size ≤ source
  targetApart : fresh + size ≤ target ∨ target + size ≤ fresh

section Selection

variable {env : Environment} {signature : Signature} {sel : Selection} {name : String} {size : Nat}

theorem le_roundedUp (n : Nat) {align : Nat} (positive : 0 < align) : n ≤ (n + align - 1) / align * align := by
  have parts := Nat.div_add_mod (n + align - 1) align
  have remainder := Nat.mod_lt (n + align - 1) positive
  rw [Nat.mul_comm]
  omega

/-- A new place for a struct lies behind the frame so far. -/
theorem exists_newSlot (valid : env.module.ValidLayout name size) (sel : Selection) :
    ∃ slot frameSize, Select.newSlot env (.struct name) sel = .ok (slot, { sel with frameSize := frameSize }) ∧
      sel.frameSize ≤ slot ∧ slot + size ≤ frameSize ∧ frameSize < sel.frameSize + 2 ^ 33 ∧
      (sel.frameSize = 0 → slot = 0) := by
  obtain ⟨fields, opened, rfl⟩ := valid.exists_fieldShapes
  have extent : ofLayout (env.module.extent [] (.struct name)) = .ok (Measure.wrapping.of (.struct fields)) := by
    rw [Module.extent_eq, Module.shape_of_fieldShapes opened]
    rfl
  have exactly := (Measure.fits_of (.struct fields) valid.fits).2.size
  have fits := valid.fits
  have align := (Measure.wrapping.of (.struct fields)).align.toNat_lt
  rw [Select.newSlot, Select.bind_ok (Select.lift_ok extent)]
  refine ⟨_, _, rfl, le_roundedUp _ (by omega), by rw [exactly]; omega, ?_, fun empty => ?_⟩
  · have below := Nat.div_mul_le_self (sel.frameSize + max 8 (Measure.wrapping.of (.struct fields)).align.toNat - 1)
      (max 8 (Measure.wrapping.of (.struct fields)).align.toNat)
    rw [exactly]
    omega
  · rw [empty, Nat.div_eq_of_lt (by omega), Nat.zero_mul]

theorem instruction_load {slot frameSize : Nat} {plan : CopyPlan} {a : Ir.Value} {src : Operand} (dest : Ir.Reg)
    (source : Select.operand env signature a sel = .ok (src, sel))
    (place : Select.newSlot env (.struct name) sel = .ok (slot, { sel with frameSize := frameSize }))
    (planned : copyPlan env.module name = .ok plan) :
    Select.instruction env signature (.load dest (.struct name) a) sel =
      .ok (.loadStruct sel.nextValue slot plan src,
        ⟨(dest.id, ⟨.value sel.nextValue, .i64⟩) :: sel.values, sel.nextValue + 1, frameSize⟩) := by
  rw [Select.instruction, Select.bind_ok source]
  change (Select.newSlot env (.struct name) >>= _) sel = _
  rw [Select.bind_ok place, Select.bind_ok (Select.lift_ok planned)]
  rfl

theorem instruction_store {plan : CopyPlan} {b : Ir.Value} {dst stored : Operand} {dest : Ir.Reg}
    (target : Select.operand env signature b sel = .ok (dst, sel)) (known : sel.values.lookup dest.id = some stored)
    (struct : dest.ty = .struct name) (planned : copyPlan env.module name = .ok plan) :
    Select.instruction env signature (.store (.reg dest) b) sel = .ok (.storeStruct plan stored dst, sel) := by
  have loaded : Select.operand env signature (.reg dest) sel = .ok (stored, sel) := by
    have here : (get : Select Selection) sel = .ok (sel, sel) := rfl
    simp only [Select.operand, Select.bind_ok here, known]
    rfl
  rw [Select.instruction, Select.bind_ok target, Select.bind_ok loaded, Ir.Value.ty, struct]
  change ((liftM (copyPlan env.module name) : Select CopyPlan) >>= _) sel = _
  rw [Select.bind_ok (Select.lift_ok planned)]
  rfl

end Selection

/-- A copy by way of a fresh place. -/
theorem Memory.copy_through {memory : Memory} {leaves : List Leaf} {size : Nat} {source target fresh : Word}
    (inside : ∀ leaf ∈ leaves, leaf.offset.toNat + leaf.scalar.bytes ≤ size)
    (places : Places memory size source.toNat target.toNat fresh.toNat) :
    ∃ between after, memory.copy source fresh leaves = .ok between ∧ between.copy fresh target leaves = .ok after ∧
      (∀ k, Covered leaves k → after.bytes[target.toNat + k]? = memory.bytes[source.toNat + k]?) ∧
      ∀ x, (∀ k, Covered leaves k → x ≠ target.toNat + k ∧ x ≠ fresh.toNat + k) → after.bytes[x]? = memory.bytes[x]? := by
  have small := Nat.le_of_lt places.small
  obtain ⟨between, copies, loaded⟩ := copy_ok inside places.hasSource places.hasFresh small places.sourceApart
  have hasFresh : between.Has fresh.toNat size := ⟨places.hasFresh.1, loaded.size ▸ places.hasFresh.2⟩
  have hasTarget : between.Has target.toNat size := ⟨places.hasTarget.1, loaded.size ▸ places.hasTarget.2⟩
  obtain ⟨after, copies', stored⟩ := copy_ok inside hasFresh hasTarget (loaded.size ▸ small) places.targetApart
  refine ⟨between, after, copies, copies', fun k covered => ?_, fun x outside => ?_⟩
  · rw [stored.copied k covered, loaded.copied k covered]
  · rw [stored.kept x fun k covered => (outside k covered).1, loaded.kept x fun k covered => (outside k covered).2]

section Steps

variable {memory : Memory} {frame : Frame}

theorem eval_set {v : Nat} (bound : v < frame.values.size) (w : Word) (s : Scalar) :
    (frame.set v w).eval ⟨.value v, s⟩ = w := by
  simp [Frame.set, Frame.eval, Array.getD_eq_getD_getElem?, Array.getElem?_setIfInBounds_self_of_lt bound]

/-- The steps of a load and a store, with what they do to the memory. -/
theorem steps_eq (foreign : Foreign) (p : Program) (callers : List Caller) {plan : CopyPlan} {src dst : Operand} {v slot : Nat}
    (rest : List Instr) {between after : Memory} (bound : v < frame.values.size)
    (loads : memory.copy (frame.eval src) (frame.base + slot).toUInt64 plan.leaves = .ok between)
    (stores : between.copy (frame.base + slot).toUInt64 ((frame.set v (frame.base + slot).toUInt64).eval dst) plan.leaves =
      .ok after) :
    ∃ next, step foreign p ⟨memory,
        { frame with instrs := .loadStruct v slot plan src :: .storeStruct plan ⟨.value v, .i64⟩ dst :: rest }, callers⟩ =
        .next next ∧
      step foreign p next =
        .next ⟨after, { frame.set v (frame.base + slot).toUInt64 with instrs := rest }, callers⟩ := by
  have stored := eval_set bound (frame.base + slot).toUInt64 .i64
  obtain ⟨code, params, values, base, instrs, exit⟩ := frame
  refine ⟨⟨between, (Frame.set ⟨code, params, values, base, .storeStruct plan ⟨.value v, .i64⟩ dst :: rest, exit⟩ v
    (base + slot).toUInt64), callers⟩, ?_, ?_⟩
  · change ofMemory callers _ (memory.copy (Frame.eval ⟨code, params, values, base, instrs, exit⟩ src) _ _) = _
    rw [loads]
    rfl
  · change ofMemory callers _ (between.copy
      ((Frame.set ⟨code, params, values, base, instrs, exit⟩ v (base + slot).toUInt64).eval ⟨.value v, .i64⟩)
      ((Frame.set ⟨code, params, values, base, instrs, exit⟩ v (base + slot).toUInt64).eval dst) plan.leaves) = _
    rw [stored, stores]
    rfl

theorem exists_copy_of_step {foreign : Foreign} {p : Program} {callers : List Caller} {v slot : Nat} {plan : CopyPlan}
    {src : Operand} {rest : List Instr} {next : State}
    (stepped : step foreign p ⟨memory, { frame with instrs := .loadStruct v slot plan src :: rest }, callers⟩ = .next next) :
    ∃ between, memory.copy (frame.eval src) (frame.base + slot).toUInt64 plan.leaves = .ok between := by
  obtain ⟨code, params, values, base, instrs, exit⟩ := frame
  change ofMemory callers _ (memory.copy (Frame.eval ⟨code, params, values, base, instrs, exit⟩ src) _ _) = _ at stepped
  cases copied : memory.copy (Frame.eval ⟨code, params, values, base, instrs, exit⟩ src) (base + slot).toUInt64
      plan.leaves with
  | ok between => exact ⟨between, rfl⟩
  | error t =>
    rw [copied] at stepped
    cases stepped

end Steps

/-- In whatever memory the load and the store are run, the scalars at the target are then byte for byte what they were at
the source before, also if the two places overlap. No byte is changed but those of the scalars at the target and in the
fresh place, which is at `slot` in the frame. -/
def Assigns (m : Ir.Module) (name : String) (size : Nat) (load store : Instr) (src dst : Operand) (value slot : Nat) :
    Prop :=
  ∀ (foreign : Foreign) (p : Program) (memory : Memory) (frame : Frame) (callers : List Caller) (rest : List Instr)
    (s d : Nat), value < frame.values.size → (frame.eval src).toNat = s →
    ((frame.set value (frame.base + slot).toUInt64).eval dst).toNat = d → Places memory size s d (frame.base + slot) →
    ∃ next after, step foreign p ⟨memory, { frame with instrs := load :: store :: rest }, callers⟩ = .next next ∧
      step foreign p next = .next after ∧ after.frame.instrs = rest ∧
      (∀ k, m.LeafByte name k → after.memory.bytes[d + k]? = memory.bytes[s + k]?) ∧
      ∀ x, (∀ k, m.LeafByte name k → x ≠ d + k ∧ x ≠ frame.base + slot + k) → after.memory.bytes[x]? = memory.bytes[x]?

def Environment.AssignsStruct (env : Environment) (name : String) (size : Nat) : Prop :=
  ∀ (signature : Signature) (sel : Selection) (id : Nat) (a : Ir.Value) (src : Operand),
    Select.operand env signature a sel = .ok (src, sel) →
    ∃ load loaded slot,
      Select.instruction env signature (.load ⟨id, .struct name⟩ (.struct name) a) sel = .ok (load, loaded) ∧
      sel.frameSize ≤ slot ∧ slot + size ≤ loaded.frameSize ∧
      ∀ b dst, Select.operand env signature b loaded = .ok (dst, loaded) →
        ∃ store, Select.instruction env signature (.store (.reg ⟨id, .struct name⟩) b) loaded = .ok (store, loaded) ∧
          Assigns env.module name size load store src dst sel.nextValue slot

section Assignments

variable {env : Environment} {name : String} {size : Nat}

theorem assignsStruct_of_near (valid : env.module.ValidLayout name size)
    (scalars : ∀ start offset ty, env.module.LeafAt name start offset ty → ty ∈ scalarTypes)
    (near : env.module.Near name) : env.AssignsStruct name size := by
  intro signature sel id a src source
  obtain ⟨plan, planned, leaves⟩ := exists_copyPlan valid scalars
  obtain ⟨inside, covers⟩ := leaves_of_near valid scalars near leaves
  obtain ⟨slot, frameSize, place, behind, room, -, -⟩ := exists_newSlot valid sel
  refine ⟨_, _, slot, instruction_load ⟨id, .struct name⟩ source place planned, behind, room, fun b dst target => ?_⟩
  refine ⟨_, instruction_store target List.lookup_cons_self rfl planned, ?_⟩
  rintro foreign p memory frame callers rest _ d bound rfl target' places
  have fresh : (frame.base + slot).toUInt64.toNat = frame.base + slot := by
    have inside' := places.hasFresh.2
    have small := places.small
    exact Nat.mod_eq_of_lt (by omega)
  rw [← fresh] at places
  subst target'
  obtain ⟨between, after, loads, stores, copied, kept⟩ := Memory.copy_through inside places
  obtain ⟨next, first, second⟩ := steps_eq foreign p callers rest bound loads stores
  rw [fresh] at kept
  exact ⟨next, _, first, second, rfl, fun k here => copied k ((covers k).mpr here),
    fun x outside => kept x fun k covered => outside k ((covers k).mp covered)⟩

/-- A scalar that is far away is looked for in front of the struct, and nothing is there if the struct is at the very
beginning of the memory. -/
theorem near_of_assignsStruct (valid : env.module.ValidLayout name size)
    (scalars : ∀ start offset ty, env.module.LeafAt name start offset ty → ty ∈ scalarTypes)
    (assigns : env.AssignsStruct name size) : env.module.Near name := by
  intro start offset ty leaf
  by_contra far
  obtain ⟨plan, planned, leaves⟩ := exists_copyPlan valid scalars
  obtain ⟨slot, frameSize, place, -, -, small, -⟩ := exists_newSlot valid ⟨[], 0, 0⟩
  obtain ⟨load, loaded, fresh, selected, -, room, stores⟩ :=
    assigns ⟨[.i64, .i64], none⟩ ⟨[], 0, 0⟩ 0 (.arg 0 .ptr) ⟨.param 0, .i64⟩ rfl
  cases (instruction_load ⟨0, .struct name⟩ rfl place planned).symm.trans selected
  obtain ⟨store, -, runs⟩ := stores (.arg 1 .ptr) ⟨.param 1, .i64⟩ rfl
  have fits := valid.fits
  have small : frameSize < 0 + 2 ^ 33 := small
  have room : fresh + size ≤ frameSize := room
  have length : Memory.size ⟨Array.replicate (16 + 2 * size + frameSize) 0⟩ = 16 + 2 * size + frameSize :=
    Array.size_replicate
  have places : Places ⟨Array.replicate (16 + 2 * size + frameSize) 0⟩ size 16 (16 + size) (16 + 2 * size + fresh) := by
    have low : origin = 16 := rfl
    exact ⟨by omega, ⟨by omega, by omega⟩, ⟨by omega, by omega⟩, ⟨by omega, by omega⟩, by omega, by omega⟩
  obtain ⟨next, after, stepped, -⟩ :=
    runs .absent default ⟨Array.replicate (16 + 2 * size + frameSize) 0⟩
      ⟨default, #[16, (16 + size).toUInt64], #[0], 16 + 2 * size, [], .trap⟩ [] [] 16 (16 + size) Nat.one_pos rfl
      (Nat.mod_eq_of_lt (by omega)) places
  obtain ⟨between, copied⟩ := exists_copy_of_step stepped
  obtain ⟨s, width, scalar, -, -, bounds, -⟩ := exists_place valid leaf (scalars start offset ty leaf)
  have found := Memory.inBounds_of_copy copied ((leaves ⟨s, _⟩).mpr ⟨start, offset, ty, leaf, scalar, rfl⟩)
  have away := toNat_displacement_far (Nat.le_of_not_lt far)
  have place : (start.toUInt64).toNat = start := Nat.mod_eq_of_lt (by omega)
  have low : (Frame.eval ⟨default, #[16, (16 + size).toUInt64], #[0], 16 + 2 * size, [], .trap⟩
    ⟨.param 0, .i64⟩).toNat = 16 := rfl
  simp only [Memory.inBounds, length, origin, UInt64.toNat_add, UInt64.zero_add, away, place, low,
    Bool.and_eq_true, decide_eq_true_eq] at found
  omega

/-- A struct is assigned exactly if none of its scalars is far away from the start of the struct that it is a field of,
since this distance is taken for a signed number. -/
theorem struct_assignment_copies_scalars_iff (valid : env.module.ValidLayout name size)
    (scalars : ∀ start offset ty, env.module.LeafAt name start offset ty → ty ∈ scalarTypes) :
    env.AssignsStruct name size ↔ env.module.Near name :=
  ⟨near_of_assignsStruct valid scalars, assignsStruct_of_near valid scalars⟩

end Assignments

/-- A bit, a struct of a byte and a float, and a pointer, which go to a place that overlaps the one they come from. The
byte after the bit is padding, and is kept. -/
theorem struct_assignment_copies_scalars_iff_overlapping :
    ∃ (env : Environment) (load store : Instr) (loaded : Selection) (next after : State),
      env.module.ValidLayout "Outer" 24 ∧ env.module.Near "Outer" ∧
      Select.instruction env ⟨[.i64, .i64], none⟩ (.load ⟨0, .struct "Outer"⟩ (.struct "Outer") (.arg 0 .ptr)) ⟨[], 0, 0⟩ =
        .ok (load, loaded) ∧
      Select.instruction env ⟨[.i64, .i64], none⟩ (.store (.reg ⟨0, .struct "Outer"⟩) (.arg 1 .ptr)) loaded =
        .ok (store, loaded) ∧
      step .absent default ⟨⟨((List.range 72).map UInt8.ofNat).toArray⟩,
        ⟨default, #[16, 20], #[0], 48, [load, store], .trap⟩, []⟩ = .next next ∧
      step .absent default next = .next after ∧
      [20, 21, 24, 28, 36, 43, 44].map (after.memory.bytes[·]?) = [16, 21, 20, 24, 32, 39, 44].map some := by
  let m : Ir.Module :=
    { Module.empty "m" with
      structs :=
        [⟨"Inner", [("tag", .int 8), ("value", .float 32)]⟩,
          ⟨"Outer", [("flag", .int 1), ("inner", .struct "Inner"), ("next", .ptr)]⟩] }
  let env : Environment := ⟨m, [], []⟩
  let plan : CopyPlan := ⟨[⟨.i8, 0⟩, ⟨.i8, 4⟩, ⟨.f32, 8⟩, ⟨.i64, 16⟩], true⟩
  have exactly : m.measure .exact (.struct "Outer") = .ok ⟨24, 8⟩ := by unfold m; cbv
  have valid : m.ValidLayout "Outer" 24 := ⟨⟨8, exactly⟩, by decide⟩
  have near : m.Near "Outer" := valid.near_of_lt (by decide)
  have scalars (start : Nat) (offset : UInt32) (ty : Ir.Ty) (leaf : m.LeafAt "Outer" start offset ty) :
      ty ∈ scalarTypes := by
    obtain ⟨plain, layout, member, field⟩ := leaf.exists_field
    have all : ∀ layout ∈ m.structs, ∀ ty ∈ layout.fields.map (·.2), ty ∈ scalarTypes ∨ ty = .struct "Inner" := by decide
    exact (all layout member ty field).resolve_right (plain "Inner")
  have computed : Select.instruction env ⟨[.i64, .i64], none⟩
      (.load ⟨0, .struct "Outer"⟩ (.struct "Outer") (.arg 0 .ptr)) ⟨[], 0, 0⟩ =
        .ok (.loadStruct 0 0 plan ⟨.param 0, .i64⟩, ⟨[(0, ⟨.value 0, .i64⟩)], 1, 24⟩) := by
    unfold env m plan
    cbv
  -- The bytes of the scalars, read off the plan.
  obtain ⟨_, planned, leaves⟩ := exists_copyPlan valid scalars
  obtain ⟨inside, covers⟩ := leaves_of_near valid scalars near leaves
  cases planned.symm.trans (show copyPlan m "Outer" = .ok plan by unfold m plan; cbv)
  have padding (k : Nat) (here : m.LeafByte "Outer" k) : k ≠ 1 ∧ k < 24 := by
    have covered := (covers k).mpr here
    refine ⟨?_, ?_⟩
    · rintro rfl
      exact absurd covered (by decide)
    · obtain ⟨leaf, member, -, high⟩ := covered
      exact Nat.lt_of_lt_of_le high (inside leaf member)
  have source : Select.operand env ⟨[.i64, .i64], none⟩ (.arg 0 .ptr) ⟨[], 0, 0⟩ =
      .ok (⟨.param 0, .i64⟩, ⟨[], 0, 0⟩) := rfl
  obtain ⟨load, loaded, slot, selected, -, room, stores⟩ :=
    (struct_assignment_copies_scalars_iff valid scalars).mpr near _ _ 0 _ _ source
  cases computed.symm.trans selected
  obtain rfl : slot = 0 := Nat.eq_zero_of_le_zero (Nat.le_of_add_le_add_right room)
  obtain ⟨store, selected', runs⟩ := stores (.arg 1 .ptr) ⟨.param 1, .i64⟩ rfl
  have places : Places ⟨((List.range 72).map UInt8.ofNat).toArray⟩ 24 16 20 (48 + 0) := by
    refine ⟨?_, ?_, ?_, ?_, ?_, ?_⟩ <;> decide
  obtain ⟨next, after, first, second, -, copied, kept⟩ :=
    runs .absent default _ ⟨default, #[16, 20], #[0], 48, [], .trap⟩ [] [] 16 20 (by decide) rfl rfl places
  refine ⟨env, _, store, _, next, after, valid, near, selected, selected', first, second, ?_⟩
  have scalar (k : Nat) (covered : Covered plan.leaves k) := copied k ((covers k).mp covered)
  have outside (x : Nat) (apart : ∀ k, k ≠ 1 → k < 24 → x ≠ 20 + k ∧ x ≠ 48 + k) :=
    kept x fun k here => apart k (padding k here).1 (padding k here).2
  simp only [List.map_cons, List.map_nil, List.cons.injEq]
  exact ⟨scalar 0 (by decide), outside 21 (by omega), scalar 4 (by decide), scalar 8 (by decide), scalar 16 (by decide),
    scalar 23 (by decide), outside 44 (by omega), trivial⟩

/-- A memory of zeros but for two bytes. -/
theorem exists_marked {size i j : Nat} (apart : i ≠ j) (low : i < size) (high : j < size) (a b : UInt8) :
    ∃ memory : Memory, memory.size = size ∧ memory.bytes[i]? = some a ∧ memory.bytes[j]? = some b ∧
      ∀ k < size, k ≠ i → k ≠ j → memory.bytes[k]? = some 0 := by
  refine ⟨⟨((Array.replicate size 0).setIfInBounds i a).setIfInBounds j b⟩, ?_, ?_, ?_, fun k below first second => ?_⟩
  · simp only [Memory.size, Array.size_setIfInBounds, Array.size_replicate]
  · rw [Array.getElem?_setIfInBounds_ne apart.symm, Array.getElem?_setIfInBounds_self_of_lt (by simpa using low)]
  · rw [Array.getElem?_setIfInBounds_self_of_lt (by simpa using high)]
  · rw [Array.getElem?_setIfInBounds_ne second.symm, Array.getElem?_setIfInBounds_ne first.symm,
      Array.getElem?_replicate, if_pos below]

section Towers

def towerName (k : Nat) : String := "A" ++ toString k

/-- Each struct holds the one before twice, and the first one two numbers. -/
def towerFields : Nat → List (String × Ir.Ty)
  | 0 => [("x", .int 64), ("y", .int 64)]
  | k + 1 => [("x", .struct (towerName k)), ("y", .struct (towerName k))]

def towers : Ir.Module :=
  { Module.empty "towers" with
    structs := ⟨"B", [("big", .struct (towerName 27)), ("tail", .int 64)]⟩ ::
      (List.range 28).map fun k => ⟨towerName k, towerFields k⟩ }

def towerShape : Nat → Shape
  | 0 => .struct [.int 64, .int 64]
  | k + 1 => .struct [towerShape k, towerShape k]

theorem towerName_inj {j k : Nat} : towerName j = towerName k ↔ j = k := by
  rw [towerName, towerName, String.append_right_inj]
  exact Nat.repr_inj

theorem towerName_ne (k : Nat) : towerName k ≠ "B" := by
  intro same
  have first := congrArg (·.toList.head?) same
  simp [towerName] at first

theorem towers_struct? {k : Nat} (small : k < 28) : towers.struct? (towerName k) = some ⟨towerName k, towerFields k⟩ := by
  have found : (List.range 28).find? (towerName · == towerName k) = some k := by
    rw [List.find?_range_eq_some]
    refine ⟨beq_self_eq_true _, List.mem_range.mpr small, fun j below => ?_⟩
    have other : towerName j ≠ towerName k := fun same => Nat.ne_of_lt below (towerName_inj.mp same)
    simpa using other
  have front : ("B" == towerName k) = false := beq_eq_false_iff_ne.mpr (towerName_ne k).symm
  simp only [Module.struct?, towers, List.find?_cons, front, List.find?_map, Function.comp_def, found]
  rfl

theorem exact_towerShape (k : Nat) : Measure.exact.of (towerShape k) = ⟨2 ^ (k + 4), 8⟩ := by
  induction k with
  | zero => cbv
  | succ k ih =>
    have multiple (n : Nat) : ceiling (2 ^ (n + 4)) 8 = 2 ^ (n + 4) := by
      rw [ceiling, if_pos]
      rw [pow_add]
      exact Nat.mod_eq_zero_of_dvd (Dvd.dvd.mul_left (by decide) _)
    have double : 2 ^ (k + 4) + 2 ^ (k + 4) = 2 ^ (k + 1 + 4) := by
      rw [← Nat.two_mul, ← pow_succ']
    have closed : Measure.exact.of (towerShape (k + 1)) = Measure.exact.close
        (Measure.exact.place (Measure.exact.place ⟨0, 1⟩ (Measure.exact.of (towerShape k)))
          (Measure.exact.of (towerShape k))) := rfl
    have front : ceiling 0 8 = 0 := rfl
    have align : max (max 1 8) 8 = 8 := rfl
    rw [closed, ih]
    simp only [Measure.exact, front, align, Nat.zero_add, multiple k, double, multiple (k + 1)]

theorem shape_tower {k : Nat} (small : k < 28) {visiting : List String} (new : ∀ j ≤ k, towerName j ∉ visiting) :
    towers.shape visiting (.struct (towerName k)) = .ok (towerShape k) := by
  induction k generalizing visiting with
  | zero =>
    rw [Module.shape_struct (new 0 (Nat.le_refl 0)) (towers_struct? small)]
    simp only [towerFields, List.mapM_cons, List.mapM_nil, Module.shape]
    rfl
  | succ k ih =>
    rw [Module.shape_struct (new (k + 1) (Nat.le_refl _)) (towers_struct? small)]
    have inner : towers.shape (towerName (k + 1) :: visiting) (.struct (towerName k)) = .ok (towerShape k) := by
      refine ih (by omega) fun j below => ?_
      rw [List.mem_cons, not_or]
      refine ⟨fun same => ?_, new j (by omega)⟩
      have := towerName_inj.mp same
      omega
    simp only [towerFields, List.mapM_cons, List.mapM_nil, inner]
    rfl

theorem known_b : towers.struct? "B" = some ⟨"B", [("big", .struct (towerName 27)), ("tail", .int 64)]⟩ := rfl

theorem fieldShapes_b : towers.fieldShapes "B" = .ok [towerShape 27, .int 64] := by
  have big : towers.shape ["B"] (.struct (towerName 27)) = .ok (towerShape 27) :=
    shape_tower (by decide) fun j _ => by simpa using towerName_ne j
  rw [Module.fieldShapes, known_b]
  simp only [List.mapM_cons, List.mapM_nil, big, Module.shape]
  rfl

theorem exact_b : Measure.exact.of (.struct [towerShape 27, .int 64]) = ⟨2 ^ 31 + 8, 8⟩ := by
  rw [Measure.of, Measure.after, Measure.after, Measure.after, exact_towerShape]
  cbv

theorem validLayout_b : towers.ValidLayout "B" (2 ^ 31 + 8) := by
  refine ⟨⟨8, ?_⟩, by decide⟩
  rw [Module.measure, Module.shape_of_fieldShapes fieldShapes_b]
  exact congrArg Except.ok exact_b

theorem fieldOffsets_b : towers.fieldOffsets "B" = .ok [0, 2 ^ 31] := by
  obtain ⟨-, is⟩ := Measure.fits_of (towerShape 27) (by rw [exact_towerShape]; decide)
  rw [exact_towerShape] at is
  have big : Measure.wrapping.of (towerShape 27) = ⟨2 ^ 31, 8⟩ := by
    have size : (Measure.wrapping.of (towerShape 27)).size = 2 ^ 31 := UInt32.toNat_inj.mp is.size
    have align : (Measure.wrapping.of (towerShape 27)).align = 8 := UInt32.toNat_inj.mp is.align
    rw [← size, ← align]
  rw [Module.fieldOffsets_eq, fieldShapes_b]
  simp only [Except.map, List.map_cons, List.map_nil, big]
  cbv

theorem scalars_b {start : Nat} {offset : UInt32} {ty : Ir.Ty} (leaf : towers.LeafAt "B" start offset ty) :
    ty ∈ scalarTypes := by
  obtain ⟨plain, layout, member, field⟩ := leaf.exists_field
  have number : Ir.Ty.int 64 ∈ scalarTypes := by decide
  rcases List.mem_cons.mp member with rfl | member
  · rcases List.mem_pair.mp field with rfl | rfl
    · exact absurd rfl (plain _)
    · exact number
  · obtain ⟨k, -, rfl⟩ := List.mem_map.mp member
    cases k with
    | zero => rcases List.mem_pair.mp field with rfl | rfl <;> exact number
    | succ k => rcases List.mem_pair.mp field with rfl | rfl <;> exact absurd rfl (plain _)

theorem leafAt_tail : towers.LeafAt "B" 0 (2 ^ 31) (.int 64) := by
  refine .scalar ⟨_, _, "tail", known_b, fieldOffsets_b, ?_⟩ (by rintro inner ⟨⟩)
  simp

theorem validLayout_tower {k : Nat} (small : k < 28) : towers.ValidLayout (towerName k) (2 ^ (k + 4)) := by
  refine ⟨⟨8, ?_⟩, Nat.pow_lt_pow_right (by decide) (by omega)⟩
  rw [Module.measure, shape_tower small fun j _ => List.not_mem_nil]
  exact congrArg Except.ok (exact_towerShape k)

theorem leafByte_tail : towers.LeafByte "B" (2 ^ 31) := by
  obtain ⟨s, width, -, measured, wide, -⟩ := exists_place validLayout_b leafAt_tail (scalars_b leafAt_tail)
  have some := (Memory.bytes_pos s).1
  exact ⟨0, 2 ^ 31, .int 64, width, leafAt_tail, measured, by decide, by rw [wide]; exact Nat.lt_add_of_pos_right some⟩

theorem fieldAt_b {offset : UInt32} {ty : Ir.Ty} (field : towers.FieldAt "B" offset ty) :
    (ty = .struct (towerName 27) ∧ offset = 0) ∨ (ty = .int 64 ∧ offset = 2 ^ 31) := by
  obtain ⟨layout, offsets, label, known, computed, member⟩ := field
  cases known_b.symm.trans known
  cases fieldOffsets_b.symm.trans computed
  simp only [List.zip_cons_cons, List.zip_nil_right, List.mem_cons, Prod.mk.injEq, List.not_mem_nil, or_false] at member
  rcases member with ⟨⟨-, ty⟩, offset⟩ | ⟨⟨-, ty⟩, offset⟩
  · exact .inl ⟨ty, offset⟩
  · exact .inr ⟨ty, offset⟩

/-- The number at the end is copied `2 ^ 31` bytes in front of the struct, and all others behind its start. -/
theorem leaf_b {leaf : Leaf} (here : LeafOf towers "B" 0 leaf) :
    (2 ^ 31 + leaf.offset).toNat + leaf.scalar.bytes ≤ 2 ^ 32 := by
  obtain ⟨s, offset⟩ := leaf
  obtain ⟨start, offset, ty, leaf, scalar, rfl⟩ := here
  have scalar : scalarOf ty = .ok s := scalar
  have plain := scalars_b leaf
  cases leaf with
  | scalar field struct =>
    rcases fieldAt_b field with ⟨rfl, -⟩ | ⟨rfl, rfl⟩
    · exact absurd rfl (struct _)
    · cases scalar
      decide
  | @nested _ inner start base _ _ field leaf =>
    rcases fieldAt_b field with ⟨same, rfl⟩ | ⟨same, -⟩
    · cases same
      obtain ⟨s', width, scalar', -, -, bounds, near⟩ := exists_place (validLayout_tower (by decide)) leaf plain
      obtain rfl : s = s' := Except.ok.inj (scalar.symm.trans scalar')
      have some := (Memory.bytes_pos s).1
      have place := near (by omega)
      change (2 ^ 31 + (0 + (0 + base).toUInt64 + displacement offset)).toNat + s.bytes ≤ 2 ^ 32
      rw [UInt64.zero_add, Nat.zero_add, UInt64.toNat_add, place]
      have middle : (2 ^ 31 : Word).toNat = 2 ^ 31 := by decide
      omega
    · cases same

/-- Seen from `2 ^ 31` bytes further in front, all leaves lie behind the start. -/
theorem copies_b {plan : CopyPlan} (leaves : ∀ leaf, leaf ∈ plan.leaves ↔ LeafOf towers "B" 0 leaf) {memory : Memory}
    (size : memory.size = 2 ^ 36) :
    ∃ between after, memory.copy (2 ^ 32) (2 ^ 35) plan.leaves = .ok between ∧
      between.copy (2 ^ 35) (2 ^ 34) plan.leaves = .ok after ∧
      after.bytes[2 ^ 34 - 2 ^ 31]? = memory.bytes[2 ^ 31]? ∧
      after.bytes[2 ^ 34 + 2 ^ 31]? = memory.bytes[2 ^ 34 + 2 ^ 31]? := by
  let shifted := plan.leaves.map fun leaf => (⟨leaf.scalar, 2 ^ 31 + leaf.offset⟩ : Leaf)
  have inside : ∀ leaf ∈ shifted, leaf.offset.toNat + leaf.scalar.bytes ≤ 2 ^ 32 := by
    rintro _ here
    obtain ⟨leaf, member, rfl⟩ := List.mem_map.mp here
    exact leaf_b ((leaves leaf).mp member)
  have tail : Covered shifted 0 := by
    have member : ⟨.i64, 0 + Nat.toUInt64 0 + displacement (2 ^ 31)⟩ ∈ plan.leaves :=
      (leaves _).mpr ⟨0, _, _, leafAt_tail, rfl, rfl⟩
    exact ⟨_, List.mem_map_of_mem member, by decide⟩
  have low : origin = 16 := rfl
  have source : (2 ^ 31 : Word).toNat = 2 ^ 31 := by decide
  have target : (2 ^ 34 - 2 ^ 31 : Word).toNat = 2 ^ 34 - 2 ^ 31 := by decide
  have fresh : (2 ^ 35 - 2 ^ 31 : Word).toNat = 2 ^ 35 - 2 ^ 31 := by decide
  have places : Places memory (2 ^ 32) (2 ^ 31 : Word).toNat (2 ^ 34 - 2 ^ 31 : Word).toNat (2 ^ 35 - 2 ^ 31 : Word).toNat :=
    ⟨by omega, ⟨by omega, by omega⟩, ⟨by omega, by omega⟩, ⟨by omega, by omega⟩, by omega, by omega⟩
  obtain ⟨between, after, loads, stores, copied, kept⟩ := Memory.copy_through inside places
  have source' : (2 ^ 31 + 2 ^ 31 : Word) = 2 ^ 32 := by decide
  have target' : (2 ^ 34 - 2 ^ 31 + 2 ^ 31 : Word) = 2 ^ 34 := by decide
  have fresh' : (2 ^ 35 - 2 ^ 31 + 2 ^ 31 : Word) = 2 ^ 35 := by decide
  rw [← Memory.copy_add, fresh'] at loads stores
  rw [source'] at loads
  rw [target'] at stores
  refine ⟨between, after, loads, stores, ?_, kept _ ?_⟩
  · have moved := copied 0 tail
    rw [source, target] at moved
    exact moved
  · rintro k ⟨leaf, member, low, high⟩
    have bound := inside leaf member
    omega

/-- The number at the end of the struct is not copied. Instead, what lies `2 ^ 31` bytes in front of the source goes to
`2 ^ 31` bytes in front of the target. -/
theorem struct_assignment_misses_far_scalar :
    ∃ (load store : Instr) (loaded : Selection) (memory : Memory) (next after : State),
      towers.ValidLayout "B" (2 ^ 31 + 8) ∧ (∀ start offset ty, towers.LeafAt "B" start offset ty → ty ∈ scalarTypes) ∧
      towers.LeafByte "B" (2 ^ 31) ∧
      Select.instruction ⟨towers, [], []⟩ ⟨[.i64, .i64], none⟩ (.load ⟨0, .struct "B"⟩ (.struct "B") (.arg 0 .ptr))
        ⟨[], 0, 0⟩ = .ok (load, loaded) ∧
      Select.instruction ⟨towers, [], []⟩ ⟨[.i64, .i64], none⟩ (.store (.reg ⟨0, .struct "B"⟩) (.arg 1 .ptr)) loaded =
        .ok (store, loaded) ∧
      Places memory (2 ^ 31 + 8) (2 ^ 32) (2 ^ 34) (2 ^ 35) ∧
      step .absent default ⟨memory, ⟨default, #[2 ^ 32, 2 ^ 34], #[0], 2 ^ 35, [load, store], .trap⟩, []⟩ = .next next ∧
      step .absent default next = .next after ∧
      memory.bytes[2 ^ 32 + 2 ^ 31]? = some 7 ∧ after.memory.bytes[2 ^ 34 + 2 ^ 31]? = some 0 ∧
      memory.bytes[2 ^ 34 - 2 ^ 31]? = some 0 ∧ after.memory.bytes[2 ^ 34 - 2 ^ 31]? = some 9 := by
  have scalars start offset ty := @scalars_b start offset ty
  obtain ⟨plan, planned, leaves⟩ := exists_copyPlan validLayout_b scalars
  have valid : Ir.Module.ValidLayout (Environment.module ⟨towers, [], []⟩) "B" (2 ^ 31 + 8) := validLayout_b
  obtain ⟨slot, frameSize, place, -, -, -, first⟩ := exists_newSlot valid ⟨[], 0, 0⟩
  obtain rfl : slot = 0 := first rfl
  have apart : 2 ^ 32 + 2 ^ 31 ≠ 2 ^ 31 := by decide
  obtain ⟨memory, size, seven, nine, zeros⟩ := exists_marked apart (show _ < 2 ^ 36 by decide) (by decide) 7 9
  obtain ⟨between, after, loads, stores, moved, kept⟩ := copies_b leaves size
  let frame : Frame := ⟨default, #[2 ^ 32, 2 ^ 34], #[0], 2 ^ 35, [], .trap⟩
  have fresh : (frame.base + 0).toUInt64 = 2 ^ 35 := by decide
  have loads : memory.copy (frame.eval ⟨.param 0, .i64⟩) (frame.base + 0).toUInt64 plan.leaves = .ok between :=
    fresh ▸ loads
  have stores : between.copy (frame.base + 0).toUInt64 ((frame.set 0 (frame.base + 0).toUInt64).eval ⟨.param 1, .i64⟩)
      plan.leaves = .ok after := fresh ▸ stores
  obtain ⟨next, first, second⟩ := steps_eq .absent default [] [] (show 0 < frame.values.size from Nat.one_pos) loads stores
  have low : origin = 16 := rfl
  refine ⟨_, _, _, memory, next, _, validLayout_b, scalars, leafByte_tail, instruction_load ⟨0, .struct "B"⟩ rfl place planned,
    instruction_store rfl List.lookup_cons_self rfl planned, ?_, first, second, seven, ?_, ?_, moved.trans nine⟩
  · exact ⟨by omega, ⟨by omega, by omega⟩, ⟨by omega, by omega⟩, ⟨by omega, by omega⟩, by omega, by omega⟩
  · exact kept.trans (zeros _ (by decide) (by decide) (by decide))
  · exact zeros _ (by decide) (by decide) (by decide)

end Towers

end StructLang.Machine
