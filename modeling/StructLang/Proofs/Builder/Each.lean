import Mathlib.Data.List.InsertIdx
import StructLang.Proofs.Builder.Views

namespace StructLang.Ir.FunctionBuilder

variable {b : FunctionBuilder}

def Each (q : Block → Prop) (b : FunctionBuilder) : Prop := ∀ block ∈ b.arena, q block

namespace Each

variable {q : Block → Prop}

theorem update (each : b.Each q) (id : Nat) {f : Block → Block} (kept : ∀ {block}, q block → q (f block)) :
    (b.update id f).Each q := by
  intro block member
  obtain ⟨n, found⟩ := List.mem_iff_getElem?.mp member
  rw [getElem?_update] at found
  split at found
  · obtain ⟨old, here, rfl⟩ := Option.map_eq_some_iff.mp found
    exact kept (each old (List.mem_of_getElem? here))
  · exact each block (List.mem_of_getElem? found)

theorem append (each : b.Each q) (id : Nat) : (b.append id).Each q := by
  rw [Each, arena_append]
  exact each

theorem build (each : b.Each q) {block : Block} (placed : block ∈ b.build.blocks) : q block := by
  obtain ⟨id, -, found⟩ := List.mem_filterMap.mp placed
  exact each block (List.mem_of_getElem? found)

variable (empty : ∀ id label, q (.empty id label))
include empty

theorem create (each : b.Each q) (label : String) : (b.create label).2.Each q := by
  intro block member
  rcases List.mem_append.mp member with member | new
  · exact each block member
  · cases List.mem_singleton.mp new
    exact empty _ _

theorem ensureOpen (each : b.Each q) : b.ensureOpen.2.Each q := by
  have dead : (ensureOpen.openDead b).2.Each q := (each.create empty "dead").append b.arena.length
  unfold FunctionBuilder.ensureOpen
  split
  · split
    · exact dead
    · exact each
  · exact dead

theorem emit (each : b.Each q) {i : Instruction}
    (kept : ∀ {block}, q block → q { block with instructions := block.instructions ++ [i] }) : (b.emit i).Each q :=
  (each.ensureOpen empty).update _ kept

theorem terminate (each : b.Each q) {t : Terminator} (kept : ∀ {block}, q block → q { block with terminator := some t }) :
    (b.terminate t).Each q :=
  (each.ensureOpen empty).update _ kept

/-- Besides a slot, the block that gets it holds what it held before. -/
theorem alloca (each : b.Each q) (ty : Ty) (kept : ∀ {block is}, q block →
      (∀ i ∈ is, i = .alloca ⟨b.nextReg, .ptr⟩ ty ∨ i ∈ block.instructions) → q { block with instructions := is }) :
    (b.alloca ty).2.Each q := by
  unfold FunctionBuilder.alloca
  simp only [newReg]
  split
  · refine emit empty (b := { b with nextReg := b.nextReg + 1 }) each fun holds => kept holds fun i member => ?_
    exact (List.mem_append.mp member).symm.imp List.mem_singleton.mp id
  · refine update (b := { b with nextReg := b.nextReg + 1 }) each _ fun holds => kept holds fun i member => ?_
    exact List.eq_or_mem_of_mem_insertIdx member

end Each

def All (p : Instruction → Prop) (b : FunctionBuilder) : Prop := b.Each fun block => ∀ i ∈ block.instructions, p i

namespace All

variable {p : Instruction → Prop}

theorem empty (id : Nat) (label : String) : ∀ i ∈ (Block.empty id label).instructions, p i := by
  rintro i ⟨⟩

theorem create (all : b.All p) (label : String) : (b.create label).2.All p := Each.create empty all label

theorem append (all : b.All p) (id : Nat) : (b.append id).All p := Each.append all id

theorem emit (all : b.All p) {i : Instruction} (new : p i) : (b.emit i).All p := by
  refine Each.emit empty all fun before j written => ?_
  rcases List.mem_append.mp written with written | written
  · exact before j written
  · exact List.mem_singleton.mp written ▸ new

theorem terminate (all : b.All p) (t : Terminator) : (b.terminate t).All p := Each.terminate empty all id

theorem alloca (all : b.All p) (ty : Ty) (new : ∀ dest, p (.alloca dest ty)) : (b.alloca ty).2.All p := by
  refine Each.alloca empty all ty fun before slots j written => ?_
  rcases slots j written with rfl | written
  · exact new _
  · exact before j written

theorem build (all : b.All p) {block : Block} (placed : block ∈ b.build.blocks) {i : Instruction}
    (written : i ∈ block.instructions) : p i :=
  Each.build all placed i written

end All

end StructLang.Ir.FunctionBuilder
