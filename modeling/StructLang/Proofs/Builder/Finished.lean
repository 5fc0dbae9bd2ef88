import StructLang.Proofs.Builder.Registers
import StructLang.Proofs.Ir.Shape

namespace StructLang.Ir.FunctionBuilder

variable {b : FunctionBuilder}

structure Finished (b : FunctionBuilder) : Prop where
  sound : b.Sound
  complete : b.Complete []
  finished : b.isTerminated = true

def ReturnsMatch (b : FunctionBuilder) : Prop :=
  ∀ {id value}, b.exit id = some (.ret value) → (value.isSome = true ↔ b.returns ≠ .void)

theorem filterMap_eq_map {α β : Type} {f : α → Option β} {g : α → β} {as : List α}
    (same : ∀ a ∈ as, f a = some (g a)) : as.filterMap f = as.map g := by
  induction as with
  | nil => rfl
  | cons a rest ih =>
    rw [List.filterMap_cons_some (same a List.mem_cons_self), List.map_cons,
      ih fun a member => same a (List.mem_cons_of_mem _ member)]

namespace Finished

theorem placed (done : b.Finished) {id : Nat} (known : id < b.arena.length) : id ∈ b.attached := by
  rcases done.complete id known with waiting | ⟨placed, -⟩
  · cases waiting
  · exact placed

theorem exit (done : b.Finished) {id : Nat} (known : id < b.arena.length) : ∃ t, b.exit id = some t := by
  rw [← Option.isSome_iff_exists]
  rcases done.complete id known with waiting | ⟨-, exit | current⟩
  · cases waiting
  · exact exit
  · rw [← b.isTerminated_eq current]
    exact done.finished

/-- The blocks of the function, by number. -/
theorem blocks_eq (done : b.Finished) :
    ∃ label : Nat → String, b.build.blocks = b.attached.map fun id => ⟨id, label id, b.instructions id, b.exit id⟩ := by
  refine ⟨fun id => b.arena[id]?.elim "" (·.label), ?_⟩
  refine filterMap_eq_map fun id member => ?_
  have known := done.sound.laid.placed member
  have number := done.sound.laid.numbered (List.getElem?_eq_getElem known)
  simp only [instructions, FunctionBuilder.exit, List.getElem?_eq_getElem known, Option.elim_some, Option.bind_some,
    Option.some.injEq]
  generalize b.arena[id] = block at number
  subst number
  rfl

theorem mem_writes (done : b.Finished) {id n : Nat} (member : n ∈ writes (b.instructions id)) :
    (id = 0 ∧ ∃ r ∈ defs b.slots, r.id = n) ∨ ∃ r ∈ defs (b.code id), r.id = n := by
  by_cases entry : id = 0
  · subst entry
    rw [done.sound.laid.front, writes_append, List.mem_append] at member
    exact member.imp (fun slot => ⟨rfl, List.mem_map.mp slot⟩) List.mem_map.mp
  · rw [done.sound.laid.others entry] at member
    exact .inr (List.mem_map.mp member)

theorem writes_nodup (done : b.Finished) : (writes (b.attached.flatMap b.instructions)).Nodup := by
  have sound := done.sound
  rw [writes_flatMap, List.Nodup, List.pairwise_flatMap]
  constructor
  · intro id _
    by_cases entry : id = 0
    · subst entry
      rw [sound.laid.front, writes_append]
      refine List.nodup_append.mpr ⟨sound.slotOnce, sound.once 0, ?_⟩
      intro n slot n' written
      obtain ⟨r, member, rfl⟩ := List.mem_map.mp slot
      obtain ⟨r', member', rfl⟩ := List.mem_map.mp written
      exact sound.slotApart member member'
    · rw [sound.laid.others entry]
      exact sound.once id
  · refine sound.laid.nodup.imp fun {id id'} different n here n' there => ?_
    rcases done.mem_writes here with ⟨entry, r, slot, rfl⟩ | ⟨r, written, rfl⟩ <;>
      rcases done.mem_writes there with ⟨entry', r', slot', rfl⟩ | ⟨r', written', rfl⟩
    · exact absurd (entry.trans entry'.symm) different
    · exact sound.slotApart slot written'
    · exact (sound.slotApart slot' written).symm
    · exact fun same => different (sound.apart written written' same)

theorem slots_ordered (b : FunctionBuilder) (params : Nat) (known : Reg → Prop) : Ordered params known b.slots := by
  have all : ∀ i ∈ b.slots, i.isSlot = true := fun i member => (List.mem_filter.mp member).2
  revert all
  generalize b.slots = is
  induction is generalizing known with
  | nil => exact fun _ => trivial
  | cons i rest ih =>
    intro all
    refine ⟨?_, ih _ fun i member => all i (List.mem_cons_of_mem _ member)⟩
    have slot := all i List.mem_cons_self
    cases i with
    | alloca dest ty => exact fun v read => absurd read List.not_mem_nil
    | _ => cases slot

/-- A block reads registers that are visible to it. -/
theorem visible (done : b.Finished) (entry : Block) (first : entry.id = 0)
    (instructions : entry.instructions = b.instructions 0) {block : Block} {id : Nat} (number : block.id = id)
    (here : block.instructions = b.instructions id) :
    Visible b.params.length (Function.entryVisible entry block) block.instructions := by
  have laid := done.sound.laid
  unfold Function.entryVisible
  rw [first, number, instructions, here]
  split
  · rename_i entry
    subst entry
    rw [laid.front]
    have ordered : Ordered b.params.length (fun _ => False) (b.slots ++ b.code 0) :=
      ordered_append.mpr ⟨slots_ordered b _ _, (done.sound.reads 0).mono fun r => Or.inr⟩
    exact ordered.visible nofun
  · rename_i other
    rw [laid.others other]
    refine Ordered.visible (fun r slot => ?_) (done.sound.reads id)
    rw [laid.front, writes_append]
    exact List.mem_append_left _ (List.mem_map_of_mem slot)

/-- What the exit of a block reads is visible at its end. -/
theorem exit_reads (done : b.Finished) (entry : Block) (first : entry.id = 0)
    (instructions : entry.instructions = b.instructions 0) {block : Block} {id : Nat} (number : block.id = id)
    (here : block.instructions = b.instructions id) {v : Value}
    (known : v.Known b.params.length fun r => r ∈ defs b.slots ∨ r ∈ defs (b.code id)) :
    v.Known b.params.length fun r => r.id ∈ writes block.instructions ++ Function.entryVisible entry block := by
  have laid := done.sound.laid
  refine known.mono fun r read => ?_
  rw [List.mem_append]
  unfold Function.entryVisible
  rw [first, number, instructions, here]
  by_cases entry : id = 0
  · subst entry
    rw [laid.front, writes_append, List.mem_append]
    exact .inl (read.imp List.mem_map_of_mem List.mem_map_of_mem)
  · rw [laid.others entry, if_neg entry, laid.front, writes_append, List.mem_append]
    rcases read with slot | written
    · exact .inr (.inl (List.mem_map_of_mem slot))
    · exact .inl (List.mem_map_of_mem written)

theorem shaped (done : b.Finished) {entry : Block} (first : entry.id = 0)
    (instructions : entry.instructions = b.instructions 0) : b.build.Shaped entry := by
  obtain ⟨label, blocks⟩ := done.blocks_eq
  have ids : b.build.blocks.map (·.id) = b.attached := by
    rw [blocks, List.map_map]
    exact List.map_id _
  have code : b.build.blocks.flatMap (·.instructions) = b.attached.flatMap b.instructions := by
    rw [blocks, List.flatMap_map]
  refine ⟨ids ▸ done.sound.laid.nodup, code ▸ done.writes_nodup, ?_⟩
  intro block member
  rw [blocks, List.mem_map] at member
  obtain ⟨id, member, rfl⟩ := member
  refine ⟨done.visible entry first instructions rfl rfl, ?_⟩
  obtain ⟨t, exit⟩ := done.exit (done.sound.laid.placed member)
  have sound := done.sound.exits exit
  refine ⟨t, exit, ⟨fun v read => ?_, sound.typed, fun target branch => ?_⟩⟩
  · exact done.exit_reads entry first instructions rfl rfl (sound.reads v read)
  · rw [ids]
    exact done.placed (sound.known target branch)

theorem returnsFit_iff (done : b.Finished) : b.build.ReturnsFit ↔ b.ReturnsMatch := by
  obtain ⟨label, blocks⟩ := done.blocks_eq
  unfold Function.ReturnsFit
  rw [blocks]
  constructor
  · intro fit id value exit
    have known : id < b.arena.length := by
      refine Nat.lt_of_not_le fun new => ?_
      rw [b.exit_ge new] at exit
      cases exit
    exact fit _ (List.mem_map_of_mem (done.placed known)) value exit
  · intro returns block member value returned
    obtain ⟨id, -, rfl⟩ := List.mem_map.mp member
    exact returns returned

theorem wellFormed_iff (done : b.Finished) {entry : Block} (first : entry.id = 0)
    (instructions : entry.instructions = b.instructions 0) : b.build.WellFormed entry ↔ b.ReturnsMatch := by
  rw [Function.wellFormed_iff_shaped, done.returnsFit_iff]
  exact and_iff_right (done.shaped first instructions)

theorem entry (done : b.Finished) :
    ∃ label others, b.build.blocks = ⟨0, label, b.instructions 0, b.exit 0⟩ :: others := by
  obtain ⟨label, blocks⟩ := done.blocks_eq
  have first := done.sound.laid.entry
  cases attached : b.attached with
  | nil => rw [attached] at first; cases first
  | cons id rest =>
    rw [attached] at first
    cases first
    rw [attached] at blocks
    exact ⟨label 0, _, blocks⟩

/-- The checker of a single function accepts it exactly if its returns are right. -/
theorem checkBody_iff (done : b.Finished) : b.build.checkBody = .ok () ↔ b.ReturnsMatch := by
  obtain ⟨label, others, blocks⟩ := done.entry
  rw [Function.checkBody_ok_iff _ blocks rfl]
  exact done.wellFormed_iff rfl rfl

/-- The function holds every block that was created, once. -/
theorem blocks_perm (done : b.Finished) : b.build.blocks.Perm b.arena := by
  have numbers : b.attached.Perm (List.range b.arena.length) := by
    rw [List.perm_ext_iff_of_nodup done.sound.laid.nodup List.nodup_range]
    intro id
    rw [List.mem_range]
    exact ⟨done.sound.laid.placed, done.placed⟩
  have all : ∀ blocks : List Block, (List.range blocks.length).filterMap (blocks[·]?) = blocks := by
    intro blocks
    induction blocks with
    | nil => rfl
    | cons block rest ih =>
      rw [List.length_cons, List.range_succ_eq_map, List.filterMap_cons, List.filterMap_map]
      exact congrArg (block :: ·) ih
  have perm := numbers.filterMap (b.arena[·]?)
  rwa [all] at perm

end Finished

end StructLang.Ir.FunctionBuilder
