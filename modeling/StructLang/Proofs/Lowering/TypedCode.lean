import StructLang.Proofs.Lowering.Blocks
import StructLang.Proofs.Typing.Rules

namespace StructLang

open Ir

namespace Ir

def BinOp.Takes : BinOp → Ty → Prop
  | .add, ty | .sub, ty | .mul, ty | .sdiv, ty => ∃ width, ty = .int width
  | .fadd, ty | .fsub, ty | .fmul, ty | .fdiv, ty => ∃ width, ty = .float width

def Instruction.Typed (m : Module) : Instruction → Prop
  | .binary _ op lhs rhs => lhs.ty = rhs.ty ∧ op.Takes lhs.ty
  | .icmp _ _ lhs rhs => lhs.ty = rhs.ty ∧ (lhs.ty = .ptr ∨ ∃ width, lhs.ty = .int width)
  | .fcmp _ _ lhs rhs => lhs.ty = rhs.ty ∧ ∃ width, lhs.ty = .float width
  | .call _ callee args => ∃ f, m.function? callee = some f ∧ args.map (·.ty) = f.params.map (·.ty)
  | _ => True

def FunctionBuilder.StoreTyped (b : FunctionBuilder) (value addr : Value) : Prop :=
  ∀ {r dest ty}, addr = .reg r → .alloca dest ty ∈ b.slots → dest.id = r.id → value.ty = ty

structure FunctionBuilder.Typed (m : Module) (b : FunctionBuilder) : Prop where
  computes : ∀ {id i}, i ∈ b.code id → i.Typed m
  stores : ∀ {id value addr}, .store value addr ∈ b.code id → b.StoreTyped value addr
  returns : ∀ {id value}, b.exit id = some (.ret (some value)) → value.ty = b.returns
  /-- Only the entry block has slots. -/
  entry : ∀ {id i}, i ∈ b.instructions id → i.isSlot = true → id = 0

structure Function.Typed (m : Module) (f : Function) : Prop where
  computes : ∀ {b i}, b ∈ f.blocks → i ∈ b.instructions → i.Typed m
  stores : ∀ {b b' value r dest ty}, b ∈ f.blocks → b' ∈ f.blocks → .store value (.reg r) ∈ b.instructions →
    .alloca dest ty ∈ b'.instructions → dest.id = r.id → value.ty = ty
  returns : ∀ {b value}, b ∈ f.blocks → b.terminator = some (.ret (some value)) → value.ty = f.returns

theorem Function.typed_of_empty {m : Module} {f : Function} (empty : f.blocks = []) : f.Typed m := by
  constructor <;> intros <;> simp_all

def Module.Keeps (m m' : Module) : Prop :=
  ∀ name g, m.function? name = some g →
    ∃ g', m'.function? name = some g' ∧ g'.params.map (·.ty) = g.params.map (·.ty)

theorem Module.Keeps.of_functions {m m' : Module} (same : m'.functions = m.functions) : m.Keeps m' := by
  intro name g found
  exact ⟨g, by rwa [Module.function?, same], rfl⟩

theorem Instruction.Typed.mono {m m' : Module} (keeps : m.Keeps m') {i : Instruction} (typed : i.Typed m) :
    i.Typed m' := by
  cases i with
  | call dest callee args =>
    obtain ⟨f, found, types⟩ := typed
    obtain ⟨g, found', same⟩ := keeps _ _ found
    exact ⟨g, found', types.trans same.symm⟩
  | _ => exact typed

theorem Function.Typed.mono {m m' : Module} (keeps : m.Keeps m') {f : Function} (typed : f.Typed m) : f.Typed m' :=
  ⟨fun placed member => (typed.computes placed member).mono keeps, typed.stores, typed.returns⟩

namespace FunctionBuilder

variable {b b' : FunctionBuilder} {m : Module}

theorem Typed.mono {m' : Module} (keeps : m.Keeps m') (typed : b.Typed m) : b.Typed m' :=
  ⟨fun member => (typed.computes member).mono keeps, typed.stores, typed.returns, typed.entry⟩

theorem Laid.entry_of_isSlot (laid : b.Laid) {id : Nat} {i : Instruction} (member : i ∈ b.instructions id)
    (slot : i.isSlot = true) : id = 0 := by
  refine Decidable.byContradiction fun other => ?_
  rw [laid.others other, code, List.mem_filter, slot] at member
  cases member.2

/-- The blocks of the finished function are the ones that were written. -/
theorem Typed.build (typed : b.Typed m) : b.build.Typed m := by
  have written : ∀ {block}, block ∈ b.build.blocks →
      ∃ id, block.instructions = b.instructions id ∧ block.terminator = b.exit id := by
    intro block member
    obtain ⟨id, -, found⟩ := List.mem_filterMap.mp member
    exact ⟨id, by simp [instructions, found], by simp [exit, found]⟩
  have inCode : ∀ {id i}, i ∈ b.instructions id → i.isSlot = false → i ∈ b.code id :=
    fun member ordinary => List.mem_filter.mpr ⟨member, by simp [ordinary]⟩
  refine ⟨?_, ?_, ?_⟩
  · intro block i placed member
    obtain ⟨id, same, -⟩ := written placed
    rw [same] at member
    cases slot : i.isSlot with
    | false => exact typed.computes (inCode member slot)
    | true =>
      cases i with
      | alloca => trivial
      | _ => cases slot
  · intro block block' value r dest ty placed placed' store slot here
    obtain ⟨id, same, -⟩ := written placed
    obtain ⟨id', same', -⟩ := written placed'
    rw [same] at store
    rw [same'] at slot
    cases typed.entry slot rfl
    exact typed.stores (inCode store rfl) rfl (List.mem_filter.mpr ⟨slot, rfl⟩) here
  · intro block value placed exit
    obtain ⟨id, -, same⟩ := written placed
    exact typed.returns (same ▸ exit)

theorem Typed.emit (sound : b.Sound) (typed : b.Typed m) {n : Nat} {i : Instruction} (ordinary : i.isSlot = false)
    (new : i.Typed m) (store : ∀ {value addr}, i = .store value addr → b.StoreTyped value addr) :
    ({ b with nextReg := n }.emit i).Typed m := by
  have laid := sound.laid.bump n
  have split : ∀ {id j}, j ∈ ({ b with nextReg := n }.emit i).code id → j ∈ b.code id ∨ j = i := by
    intro id j member
    rw [laid.code_emit ordinary] at member
    split at member
    · rw [List.mem_append, List.mem_singleton] at member
      exact member
    · exact .inl member
  have slots : ({ b with nextReg := n }.emit i).slots = b.slots := laid.slots_emit ordinary
  refine ⟨?_, ?_, ?_, (laid.emit ordinary).entry_of_isSlot⟩
  · intro id j member
    rcases split member with before | rfl
    · exact typed.computes before
    · exact new
  · intro id value addr member r dest ty here slot
    rw [slots] at slot
    rcases split member with before | same
    · exact typed.stores before here slot
    · exact store same.symm here slot
  · intro id value exit
    rw [laid.exit_emit] at exit
    rw [(laid.grows_emit ordinary).returns]
    exact typed.returns exit

theorem Typed.alloca (sound : b.Sound) (typed : b.Typed m) (ty : Ty) : (b.alloca ty).2.Typed m := by
  have laid := sound.laid
  refine ⟨?_, ?_, ?_, (laid.alloca ty).entry_of_isSlot⟩
  · intro id i member
    rw [laid.code_alloca] at member
    exact typed.computes member
  · rintro id value addr member r dest slotTy rfl slot same
    rw [laid.code_alloca] at member
    rw [laid.slots_alloca, List.mem_append, List.mem_singleton] at slot
    rcases slot with before | new
    · exact typed.stores member rfl before same
    · cases new
      have := sound.read_below member (r := r) (by simp [Instruction.operands])
      exact absurd same (Nat.ne_of_gt this)
  · intro id value exit
    rw [laid.exit_alloca] at exit
    rw [(laid.advances_alloca ty).grows.returns]
    exact typed.returns exit

theorem Typed.terminate (laid : b.Laid) (typed : b.Typed m) {t : Terminator}
    (returns : ∀ {value}, t = .ret (some value) → value.ty = b.returns) : (b.terminate t).Typed m := by
  refine ⟨?_, ?_, ?_, (laid.terminate t).entry_of_isSlot⟩
  · intro id i member
    rw [laid.code_terminate] at member
    exact typed.computes member
  · intro id value addr member r dest ty here slot
    rw [laid.code_terminate] at member
    rw [laid.slots_terminate] at slot
    exact typed.stores member here slot
  · intro id value exit
    rw [laid.exit_terminate] at exit
    rw [(laid.grows_terminate t).returns]
    split at exit
    · cases exit
      exact returns rfl
    · exact typed.returns exit

/-- Creating, placing and entering blocks changes no code. -/
theorem Typed.blocks (typed : b.Typed m) (same : ∀ id, b'.instructions id = b.instructions id)
    (exits : ∀ id, b'.exit id = b.exit id) (returns : b'.returns = b.returns) : b'.Typed m := by
  have code : ∀ id, b'.code id = b.code id := fun id => by rw [code, same, code]
  have slots : b'.slots = b.slots := by rw [slots, same, slots]
  refine ⟨?_, ?_, ?_, ?_⟩
  · intro id i member
    exact typed.computes (code id ▸ member)
  · intro id value addr member r dest ty here slot
    exact typed.stores (code id ▸ member) here (slots ▸ slot)
  · intro id value exit
    rw [returns]
    exact typed.returns (exits id ▸ exit)
  · intro id i member
    exact typed.entry (same id ▸ member)

theorem Typed.create (typed : b.Typed m) (label : String) : (b.create label).2.Typed m :=
  typed.blocks (b.instructions_create label) (b.exit_create label) rfl

theorem Typed.append (typed : b.Typed m) (id : Nat) : (b.append id).Typed m :=
  typed.blocks (b.instructions_append id) (b.exit_append id) (Grows.append b id).returns

theorem Typed.attach (typed : b.Typed m) (label : String) : (b.attach label).2.Typed m :=
  (typed.create label).append _

theorem Typed.switchTo (typed : b.Typed m) (id : Nat) : (b.switchTo id).Typed m :=
  typed.blocks (fun _ => rfl) (fun _ => rfl) rfl

theorem Typed.enterLoop (laid : b.Laid) (typed : b.Typed m) : b.enterLoop.Typed m :=
  (Typed.terminate (t := .br _) (((laid.attach _).attach _).create _) (((typed.attach _).attach _).create _)
    nofun).switchTo _

theorem Typed.enterBranch (laid : b.Laid) (typed : b.Typed m) (cond : Value) : (b.enterBranch cond).Typed m :=
  (Typed.terminate (t := .condBr ..) ((laid.attach _).create _) ((typed.attach _).create _) nofun).switchTo _

end FunctionBuilder

end Ir

end StructLang
