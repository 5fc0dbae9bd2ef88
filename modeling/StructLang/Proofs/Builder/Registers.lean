import StructLang.Proofs.Builder.Growth
import StructLang.Proofs.Ir.Reads

namespace StructLang.Ir

namespace FunctionBuilder

variable {b b' : FunctionBuilder}

def Available (b : FunctionBuilder) (v : Value) : Prop :=
  v.Known b.params.length fun r => r ∈ defs b.slots ∨ r ∈ defs (b.code b.target)

structure ExitSound (b : FunctionBuilder) (id : Nat) (t : Terminator) : Prop where
  reads : ∀ v ∈ t.operands, v.Known b.params.length fun r => r ∈ defs b.slots ∨ r ∈ defs (b.code id)
  known : ∀ target ∈ t.successors, target < b.arena.length
  typed : t.conditionTyped

structure Sound (b : FunctionBuilder) : Prop where
  laid : b.Laid
  below : ∀ {id r}, r ∈ defs (b.code id) → r.id < b.nextReg
  slotBelow : ∀ {r}, r ∈ defs b.slots → r.id < b.nextReg
  once : ∀ id, ((defs (b.code id)).map (·.id)).Nodup
  slotOnce : ((defs b.slots).map (·.id)).Nodup
  apart : ∀ {id id' r r'}, r ∈ defs (b.code id) → r' ∈ defs (b.code id') → r.id = r'.id → id = id'
  slotApart : ∀ {id r r'}, r ∈ defs b.slots → r' ∈ defs (b.code id) → r.id ≠ r'.id
  reads : ∀ id, Ordered b.params.length (· ∈ defs b.slots) (b.code id)
  exits : ∀ {id t}, b.exit id = some t → b.ExitSound id t

theorem ExitSound.grow (grows : b.Grows b') {id : Nat} {t : Terminator} (sound : b.ExitSound id t) :
    b'.ExitSound id t where
  reads v read := by
    rw [grows.params]
    exact (sound.reads v read).mono fun r => Or.imp (defs_subset grows.slots) (defs_subset (grows.code id))
  known target branch := Nat.lt_of_lt_of_le (sound.known target branch) grows.size
  typed := sound.typed

theorem Laid.nextReg_emit (laid : b.Laid) (i : Instruction) : (b.emit i).nextReg = b.nextReg := by
  change b.ensureOpen.2.nextReg = _
  rcases laid.ensureOpen_cases with ⟨-, -, same⟩ | ⟨-, -, same⟩
  · rw [same]
  · rw [same]
    simp only [FunctionBuilder.switchTo, FunctionBuilder.append]
    split <;> rfl

theorem Grows.bump (b : FunctionBuilder) {n : Nat} (more : b.nextReg ≤ n) : b.Grows { b with nextReg := n } :=
  { Grows.refl b with regs := more }

theorem Laid.bump (laid : b.Laid) (n : Nat) : { b with nextReg := n }.Laid :=
  ⟨laid.numbered, laid.front, laid.slotCount, laid.others, laid.entry, laid.nodup, laid.placed, laid.current⟩

theorem Laid.target_bump (laid : b.Laid) (n : Nat) : { b with nextReg := n }.target = b.target := by
  rcases (laid.bump n).target_cases with ⟨unfinished, current⟩ | ⟨finished, new⟩ <;>
    rcases laid.target_cases with ⟨unfinished', current'⟩ | ⟨finished', new'⟩
  · exact Option.some.inj (current.symm.trans current')
  · cases unfinished.symm.trans finished'
  · cases unfinished'.symm.trans finished
  · exact new.trans new'.symm

theorem Laid.available_bump (laid : b.Laid) {v : Value} (available : b.Available v) (n : Nat) :
    { b with nextReg := n }.Available v := by
  unfold Available at available ⊢
  rw [laid.target_bump]
  exact available

theorem Sound.bump (sound : b.Sound) {n : Nat} (more : b.nextReg ≤ n) : { b with nextReg := n }.Sound where
  laid := sound.laid.bump n
  below written := Nat.lt_of_lt_of_le (sound.below written) more
  slotBelow written := Nat.lt_of_lt_of_le (sound.slotBelow written) more
  once := sound.once
  slotOnce := sound.slotOnce
  apart := sound.apart
  slotApart := sound.slotApart
  reads := sound.reads
  exits exit := (sound.exits exit).grow (.bump b more)

/-- An instruction that reads what is available and writes a register that no other one writes. -/
theorem Sound.emit (sound : b.Sound) {i : Instruction} (ordinary : i.isSlot = false)
    (reads : ∀ v ∈ i.operands, b.Available v)
    (fresh : ∀ r, i.dest? = some r → r.id < b.nextReg ∧ (∀ r' ∈ defs b.slots, r'.id ≠ r.id) ∧
      ∀ id, ∀ r' ∈ defs (b.code id), r'.id ≠ r.id) : (b.emit i).Sound := by
  have laid := sound.laid
  have grows := laid.grows_emit ordinary
  -- A register of the new code is one of before, or the one that the instruction writes to its block.
  have split : ∀ {id r}, r ∈ defs ((b.emit i).code id) →
      r ∈ defs (b.code id) ∨ (id = b.target ∧ i.dest? = some r) := by
    intro id r written
    rw [laid.code_emit ordinary] at written
    split at written
    · rename_i here
      rw [defs_append, List.mem_append, mem_defs_singleton] at written
      exact written.imp_right fun new => ⟨here, new⟩
    · exact .inl written
  have regs := laid.nextReg_emit i
  refine {
    laid := laid.emit ordinary
    below := ?_
    slotBelow := ?_
    once := ?_
    slotOnce := ?_
    apart := ?_
    slotApart := ?_
    reads := ?_
    exits := ?_ }
  · intro id r written
    rw [regs]
    rcases split written with before | ⟨-, new⟩
    · exact sound.below before
    · exact (fresh r new).1
  · intro r written
    rw [laid.slots_emit ordinary] at written
    rw [regs]
    exact sound.slotBelow written
  · intro id
    rw [laid.code_emit ordinary]
    split
    · rw [defs_append, List.map_append]
      cases dest : i.dest? with
      | none => simpa [defs, dest] using sound.once id
      | some r =>
        simp only [defs, List.filterMap_cons, dest, List.filterMap_nil, List.map_cons, List.map_nil]
        refine nodup_concat (sound.once id) ?_
        intro member
        obtain ⟨r', written, same⟩ := List.mem_map.mp member
        exact (fresh r dest).2.2 id r' written same
    · exact sound.once id
  · rw [laid.slots_emit ordinary]
    exact sound.slotOnce
  · intro id id' r r' written written' same
    rcases split written with before | ⟨here, new⟩ <;> rcases split written' with before' | ⟨here', new'⟩
    · exact sound.apart before before' same
    · exact absurd same ((fresh r' new').2.2 id r before)
    · exact absurd same.symm ((fresh r new).2.2 id' r' before')
    · exact here.trans here'.symm
  · intro id r r' slot written
    rw [laid.slots_emit ordinary] at slot
    rcases split written with before | ⟨-, new⟩
    · exact sound.slotApart slot before
    · exact (fresh r' new).2.1 r slot
  · intro id
    rw [laid.slots_emit ordinary, laid.code_emit ordinary, grows.params]
    split
    · rename_i here
      subst here
      exact ordered_append.mpr ⟨sound.reads _, reads, trivial⟩
    · exact sound.reads id
  · intro id t exit
    rw [laid.exit_emit] at exit
    exact (sound.exits exit).grow grows

/-- A register numbered by the counter is written nowhere yet. -/
theorem Sound.fresh (sound : b.Sound) {r : Reg} (next : r.id = b.nextReg) :
    (∀ r' ∈ defs b.slots, r'.id ≠ r.id) ∧ ∀ id, ∀ r' ∈ defs (b.code id), r'.id ≠ r.id := by
  constructor
  · intro r' written
    have := sound.slotBelow written
    omega
  · intro id r' written
    have := sound.below written
    omega

theorem Sound.define (sound : b.Sound) {ty : Ty} {instruction : Reg → Instruction}
    (dest : (instruction ⟨b.nextReg, ty⟩).dest? = some ⟨b.nextReg, ty⟩)
    (ordinary : (instruction ⟨b.nextReg, ty⟩).isSlot = false)
    (reads : ∀ v ∈ (instruction ⟨b.nextReg, ty⟩).operands, b.Available v) : (b.define ty instruction).2.Sound := by
  refine Sound.emit (sound.bump (Nat.le_succ b.nextReg)) ordinary 
    (fun v read => sound.laid.available_bump (reads v read) _) ?_
  intro r written
  rw [dest] at written
  cases written
  exact ⟨Nat.lt_succ_self _, sound.fresh rfl⟩

theorem Sound.emit_unwritten (sound : b.Sound) {i : Instruction} (dest : i.dest? = none)
    (ordinary : i.isSlot = false) (reads : ∀ v ∈ i.operands, b.Available v) : (b.emit i).Sound :=
  sound.emit ordinary reads (by simp [dest])

theorem Sound.terminate (sound : b.Sound) {t : Terminator} (reads : ∀ v ∈ t.operands, b.Available v)
    (known : ∀ target ∈ t.successors, target < b.arena.length) (typed : t.conditionTyped) :
    (b.terminate t).Sound := by
  have laid := sound.laid
  have grows := laid.grows_terminate t
  have below : b.nextReg ≤ (b.terminate t).nextReg := grows.regs
  refine {
    laid := laid.terminate t
    below := ?_
    slotBelow := ?_
    once := ?_
    slotOnce := ?_
    apart := ?_
    slotApart := ?_
    reads := ?_
    exits := ?_ }
  · intro id r written
    rw [laid.code_terminate] at written
    exact Nat.lt_of_lt_of_le (sound.below written) below
  · intro r written
    rw [laid.slots_terminate] at written
    exact Nat.lt_of_lt_of_le (sound.slotBelow written) below
  · intro id
    rw [laid.code_terminate]
    exact sound.once id
  · rw [laid.slots_terminate]
    exact sound.slotOnce
  · intro id id' r r' written written'
    rw [laid.code_terminate] at written written'
    exact sound.apart written written'
  · intro id r r' slot written
    rw [laid.slots_terminate] at slot
    rw [laid.code_terminate] at written
    exact sound.slotApart slot written
  · intro id
    rw [laid.slots_terminate, laid.code_terminate, grows.params]
    exact sound.reads id
  · intro id t' exit
    rw [laid.exit_terminate] at exit
    split at exit
    · rename_i here
      cases exit
      subst here
      exact ExitSound.grow grows ⟨reads, known, typed⟩
    · exact (sound.exits exit).grow grows

theorem Sound.alloca (sound : b.Sound) (ty : Ty) : (b.alloca ty).2.Sound := by
  have laid := sound.laid
  have grows := (laid.advances_alloca ty).grows
  have regs : (b.alloca ty).2.nextReg = b.nextReg + 1 := by rw [laid.alloca_eq]
  have split : ∀ {r}, r ∈ defs (b.alloca ty).2.slots → r ∈ defs b.slots ∨ r = ⟨b.nextReg, .ptr⟩ := by
    intro r written
    rw [laid.slots_alloca, defs_append, List.mem_append, mem_defs_singleton] at written
    exact written.imp_right fun new => (Option.some.inj new).symm
  refine {
    laid := laid.alloca ty
    below := ?_
    slotBelow := ?_
    once := ?_
    slotOnce := ?_
    apart := ?_
    slotApart := ?_
    reads := ?_
    exits := ?_ }
  · intro id r written
    rw [laid.code_alloca] at written
    have := sound.below written
    omega
  · intro r written
    rcases split written with before | rfl
    · have := sound.slotBelow before
      omega
    · rw [regs]
      exact Nat.lt_succ_self _
  · intro id
    rw [laid.code_alloca]
    exact sound.once id
  · rw [laid.slots_alloca, defs_append, List.map_append]
    refine nodup_concat sound.slotOnce ?_
    intro member
    obtain ⟨r, written, same⟩ := List.mem_map.mp member
    exact Nat.lt_irrefl _ (same ▸ sound.slotBelow written)
  · intro id id' r r' written written'
    rw [laid.code_alloca] at written written'
    exact sound.apart written written'
  · intro id r r' slot written
    rw [laid.code_alloca] at written
    rcases split slot with before | rfl
    · exact sound.slotApart before written
    · exact fun same => Nat.lt_irrefl _ (same ▸ sound.below written)
  · intro id
    rw [laid.code_alloca, grows.params]
    exact (sound.reads id).mono fun r => defs_subset grows.slots
  · intro id t exit
    rw [laid.exit_alloca] at exit
    exact (sound.exits exit).grow grows

theorem Sound.create (sound : b.Sound) (label : String) : (b.create label).2.Sound where
  laid := sound.laid.create label
  below written := by rw [code_create] at written; exact sound.below written
  slotBelow written := by rw [slots_create] at written; exact sound.slotBelow written
  once id := by rw [code_create]; exact sound.once id
  slotOnce := by rw [slots_create]; exact sound.slotOnce
  apart written written' := by rw [code_create] at written written'; exact sound.apart written written'
  slotApart slot written := by
    rw [slots_create] at slot
    rw [code_create] at written
    exact sound.slotApart slot written
  reads id := by rw [slots_create, code_create]; exact sound.reads id
  exits exit := by rw [exit_create] at exit; exact (sound.exits exit).grow (.create b label)

theorem Sound.append (sound : b.Sound) {id : Nat} (known : id < b.arena.length) : (b.append id).Sound := by
  have laid := sound.laid.append known
  revert laid
  unfold FunctionBuilder.append
  split
  · exact fun _ => sound
  · have grows := Grows.append b id
    unfold FunctionBuilder.append at grows
    rw [if_neg ‹_›] at grows
    exact fun laid => { sound with laid := laid, exits := fun exit => (sound.exits exit).grow grows }

theorem Sound.switchTo (sound : b.Sound) {id : Nat} (placed : id ∈ b.attached) : (b.switchTo id).Sound :=
  { sound with
    laid := sound.laid.switchTo placed
    exits := fun exit => (sound.exits exit).grow (.switchTo b id) }

/-- Lowering an expression does not leave the block it starts in, unless that block is finished. -/
structure Straight (b b' : FunctionBuilder) : Prop extends b.Advances b' where
  stays : b.isTerminated = false → b'.isTerminated = false ∧ b'.current = b.current

theorem Straight.refl (b : FunctionBuilder) : b.Straight b := ⟨.refl b, fun unfinished => ⟨unfinished, rfl⟩⟩

theorem Straight.trans {b'' : FunctionBuilder} (first : b.Straight b') (second : b'.Straight b'') :
    b.Straight b'' where
  toAdvances := first.toAdvances.trans second.toAdvances
  stays unfinished := by
    obtain ⟨unfinished, same⟩ := first.stays unfinished
    obtain ⟨unfinished, same'⟩ := second.stays unfinished
    exact ⟨unfinished, same'.trans same⟩

theorem Laid.target_eq (laid : b.Laid) (laid' : b'.Laid) (unfinished : b.isTerminated = false)
    (unfinished' : b'.isTerminated = false) (same : b'.current = b.current) : b'.target = b.target := by
  rcases laid.target_cases with ⟨-, current⟩ | ⟨finished, -⟩
  · rcases laid'.target_cases with ⟨-, current'⟩ | ⟨finished, -⟩
    · exact Option.some.inj (current'.symm.trans (same.trans current))
    · cases unfinished'.symm.trans finished
  · cases unfinished.symm.trans finished

/-- What can be read stays readable as long as the block is not left. -/
theorem Available.grow (laid : b.Laid) (laid' : b'.Laid) (grows : b.Grows b')
    (stays : b.isTerminated = false → b'.isTerminated = false ∧ b'.current = b.current) {v : Value}
    (available : b.Available v) : b'.Available v := by
  unfold Available at available ⊢
  rw [grows.params]
  refine available.mono fun r => Or.imp (defs_subset grows.slots) ?_
  intro written
  cases finished : b.isTerminated with
  | false =>
    obtain ⟨unfinished, same⟩ := stays finished
    rw [laid.target_eq laid' finished unfinished same]
    exact defs_subset (grows.code _) written
  | true =>
    rcases laid.target_cases with ⟨unfinished, -⟩ | ⟨-, new⟩
    · cases unfinished.symm.trans finished
    · rw [new, b.code_ge (Nat.le_refl _)] at written
      cases written

theorem Available.straight (laid : b.Laid) (laid' : b'.Laid) (straight : b.Straight b') {v : Value}
    (available : b.Available v) : b'.Available v :=
  available.grow laid laid' straight.grows straight.stays

/-- Registers that the code reads have been numbered. -/
theorem Sound.read_below (sound : b.Sound) {id : Nat} {i : Instruction} (member : i ∈ b.code id) {r : Reg}
    (read : .reg r ∈ i.operands) : r.id < b.nextReg := by
  obtain ⟨front, back, split⟩ := List.append_of_mem member
  have ordered := sound.reads id
  rw [split] at ordered
  rcases (ordered_append.mp ordered).2.1 _ read with slot | written
  · exact sound.slotBelow slot
  · have member : r ∈ defs (b.code id) := by
      rw [split, defs_append]
      exact List.mem_append_left _ written
    exact sound.below member

theorem Available.below (sound : b.Sound) {r : Reg} (available : b.Available (.reg r)) : r.id < b.nextReg := by
  rcases available with slot | written
  · exact sound.slotBelow slot
  · exact sound.below written

theorem Laid.straight_emit (laid : b.Laid) {i : Instruction} (ordinary : i.isSlot = false) :
    b.Straight (b.emit i) where
  toAdvances := laid.advances_emit ordinary
  stays unfinished := by
    refine ⟨laid.isTerminated_emit i, ?_⟩
    rw [laid.current_emit]
    rcases laid.target_cases with ⟨-, current⟩ | ⟨finished, -⟩
    · exact current.symm
    · cases unfinished.symm.trans finished

theorem Straight.bump (b : FunctionBuilder) {n : Nat} (more : b.nextReg ≤ n) :
    b.Straight { b with nextReg := n } :=
  ⟨⟨.bump b more, ⟨fun _ _ => ⟨rfl, rfl⟩, .inl rfl⟩, id⟩, fun unfinished => ⟨unfinished, rfl⟩⟩

theorem Laid.straight_define (laid : b.Laid) {ty : Ty} {instruction : Reg → Instruction}
    (ordinary : (instruction ⟨b.nextReg, ty⟩).isSlot = false) : b.Straight (b.define ty instruction).2 :=
  (Straight.bump b (Nat.le_succ _)).trans ((laid.bump _).straight_emit ordinary)

theorem Laid.straight_alloca (laid : b.Laid) (ty : Ty) : b.Straight (b.alloca ty).2 where
  toAdvances := laid.advances_alloca ty
  stays unfinished := ⟨by rw [laid.isTerminated_alloca, unfinished], by rw [laid.alloca_eq]; rfl⟩

/-- A register can be read as soon as it is written. -/
theorem Laid.available_define (laid : b.Laid) {ty : Ty} {instruction : Reg → Instruction}
    (dest : (instruction ⟨b.nextReg, ty⟩).dest? = some ⟨b.nextReg, ty⟩)
    (ordinary : (instruction ⟨b.nextReg, ty⟩).isSlot = false) :
    (b.define ty instruction).2.Available (b.define ty instruction).1 := by
  have laid := laid.bump (b.nextReg + 1)
  have after := laid.emit ordinary
  have unfinished := laid.isTerminated_emit (instruction ⟨b.nextReg, ty⟩)
  have current := laid.current_emit (instruction ⟨b.nextReg, ty⟩)
  refine .inr ?_
  change _ ∈ defs (FunctionBuilder.code (FunctionBuilder.emit _ _) (FunctionBuilder.target (FunctionBuilder.emit _ _)))
  rcases after.target_cases with ⟨-, target⟩ | ⟨finished, -⟩
  · have here := Option.some.inj (target.symm.trans current)
    rw [laid.code_emit ordinary, if_pos here, defs_append, List.mem_append, mem_defs_singleton]
    exact .inr dest
  · cases unfinished.symm.trans finished

theorem Laid.slot_alloca (laid : b.Laid) (ty : Ty) :
    ∃ r, (b.alloca ty).1 = .reg r ∧ r ∈ defs (b.alloca ty).2.slots := by
  refine ⟨⟨b.nextReg, .ptr⟩, by rw [laid.alloca_eq], ?_⟩
  rw [laid.slots_alloca, defs_append, List.mem_append, mem_defs_singleton]
  exact .inr rfl

theorem available_slot {r : Reg} (slot : r ∈ defs b.slots) : b.Available (.reg r) := .inl slot

end FunctionBuilder

end StructLang.Ir
