import StructLang.Ir.FunctionBuilder

namespace StructLang.Ir

def Instruction.isSlot : Instruction → Bool
  | .alloca .. => true
  | _ => false

namespace FunctionBuilder

variable (b : FunctionBuilder)

def instructions (id : Nat) : List Instruction := b.arena[id]?.elim [] (·.instructions)

def code (id : Nat) : List Instruction := (b.instructions id).filter fun i => !i.isSlot

def exit (id : Nat) : Option Terminator := b.arena[id]?.bind (·.terminator)

def slots : List Instruction := (b.instructions 0).filter (·.isSlot)

def target : Nat := b.ensureOpen.1

/-- The blocks are numbered in the order of their creation, the first one is the entry, its slots come
ahead of its code, and no other block has slots. -/
structure Laid : Prop where
  numbered : ∀ {id : Nat} {block : Block}, b.arena[id]? = some block → block.id = id
  front : b.instructions 0 = b.slots ++ b.code 0
  slotCount : b.slots.length = b.entrySlots
  others : ∀ {id}, id ≠ 0 → b.instructions id = b.code id
  entry : b.attached.head? = some 0
  nodup : b.attached.Nodup
  placed : ∀ {id}, id ∈ b.attached → id < b.arena.length
  current : ∃ id, b.current = some id ∧ id ∈ b.attached

theorem instructions_ge {id : Nat} (new : b.arena.length ≤ id) : b.instructions id = [] := by
  simp [instructions, List.getElem?_eq_none new]

theorem code_ge {id : Nat} (new : b.arena.length ≤ id) : b.code id = [] := by
  simp [code, b.instructions_ge new]

theorem exit_ge {id : Nat} (new : b.arena.length ≤ id) : b.exit id = none := by
  simp [exit, List.getElem?_eq_none new]

theorem isTerminated_eq {id : Nat} (current : b.current = some id) :
    b.isTerminated = (b.exit id).isSome := by
  simp [isTerminated, exit, current]

theorem getElem?_create (label : String) (id : Nat) :
    (b.create label).2.arena[id]? =
      if id = b.arena.length then some (.empty id (b.freshLabel label)) else b.arena[id]? := by
  simp only [create]
  rcases Nat.lt_trichotomy id b.arena.length with lt | rfl | gt
  · rw [List.getElem?_append_left lt, if_neg (by omega)]
  · simp
  · rw [if_neg (by omega), List.getElem?_eq_none (by simp; omega), List.getElem?_eq_none (by omega)]

@[simp] theorem instructions_create (label : String) (id : Nat) :
    (b.create label).2.instructions id = b.instructions id := by
  rw [instructions, getElem?_create]
  split
  · rename_i new
    rw [b.instructions_ge (Nat.le_of_eq new.symm)]
    rfl
  · rfl

@[simp] theorem exit_create (label : String) (id : Nat) :
    (b.create label).2.exit id = b.exit id := by
  rw [exit, getElem?_create]
  split
  · rename_i new
    rw [b.exit_ge (Nat.le_of_eq new.symm)]
    rfl
  · rfl

@[simp] theorem code_create (label : String) (id : Nat) :
    (b.create label).2.code id = b.code id := by simp [code]

@[simp] theorem slots_create (label : String) : (b.create label).2.slots = b.slots := by simp [slots]

@[simp] theorem size_create (label : String) :
    (b.create label).2.arena.length = b.arena.length + 1 := by simp [create]

theorem Laid.create {b : FunctionBuilder} (laid : b.Laid) (label : String) :
    (b.create label).2.Laid where
  numbered {id block} found := by
    rw [getElem?_create] at found
    split at found
    · cases found
      rfl
    · exact laid.numbered found
  front := by simp [laid.front]
  slotCount := by rw [slots_create]; exact laid.slotCount
  others other := by simp [laid.others other]
  entry := laid.entry
  nodup := laid.nodup
  placed member := by
    have := laid.placed member
    rw [size_create]
    omega
  current := laid.current

theorem attached_append {id : Nat} (unplaced : id ∉ b.attached) :
    (b.append id).attached = b.attached ++ [id] := by
  simp [append, unplaced]

@[simp] theorem arena_append (id : Nat) : (b.append id).arena = b.arena := by
  unfold append
  split <;> rfl

@[simp] theorem instructions_append (id other : Nat) : (b.append id).instructions other = b.instructions other := by
  simp [instructions]

@[simp] theorem exit_append (id other : Nat) : (b.append id).exit other = b.exit other := by
  simp [exit]

@[simp] theorem arena_switchTo (id : Nat) : (b.switchTo id).arena = b.arena := rfl

@[simp] theorem instructions_switchTo (id other : Nat) :
    (b.switchTo id).instructions other = b.instructions other := rfl

@[simp] theorem exit_switchTo (id other : Nat) : (b.switchTo id).exit other = b.exit other := rfl

theorem nodup_concat {ids : List Nat} {id : Nat} (once : ids.Nodup) (fresh : id ∉ ids) :
    (ids ++ [id]).Nodup := by
  rw [List.nodup_append]
  refine ⟨once, by simp, ?_⟩
  intro a member c last
  rw [List.mem_singleton] at last
  rintro rfl
  exact fresh (last ▸ member)

theorem Laid.append {b : FunctionBuilder} (laid : b.Laid) {id : Nat} (known : id < b.arena.length) :
    (b.append id).Laid := by
  unfold FunctionBuilder.append
  split
  · exact laid
  · rename_i unplaced
    have unplaced : id ∉ b.attached := by simpa using unplaced
    obtain ⟨now, current, member⟩ := laid.current
    exact {
      numbered := laid.numbered
      front := laid.front
      slotCount := laid.slotCount
      others := laid.others
      entry := by
        have entry := laid.entry
        cases attached : b.attached with
        | nil => rw [attached] at entry; cases entry
        | cons first rest => rw [attached] at entry; exact entry
      nodup := nodup_concat laid.nodup unplaced
      placed := by
        intro other member
        rcases List.mem_append.mp member with member | last
        · exact laid.placed member
        · rw [List.mem_singleton.mp last]
          exact known
      current := ⟨now, current, List.mem_append_left _ member⟩ }

theorem Laid.switchTo {b : FunctionBuilder} (laid : b.Laid) {id : Nat} (placed : id ∈ b.attached) :
    (b.switchTo id).Laid :=
  { laid with current := ⟨id, rfl, placed⟩ }

section EnsureOpen

theorem ensureOpen_of_open {id : Nat} (current : b.current = some id) (unfinished : b.isTerminated = false) :
    b.ensureOpen = (id, b) := by
  simp [ensureOpen, current, unfinished]

/-- What is written after a terminator goes to a new block. -/
theorem ensureOpen_of_terminated {id : Nat} (current : b.current = some id) (finished : b.isTerminated = true) :
    b.ensureOpen = (b.arena.length, ((b.create "dead").2.append b.arena.length).switchTo b.arena.length) := by
  simp [ensureOpen, current, finished, ensureOpen.openDead, attach, create]

variable {b} (laid : b.Laid)
include laid

theorem Laid.unplaced : b.arena.length ∉ b.attached :=
  fun member => Nat.lt_irrefl _ (laid.placed member)

theorem Laid.size_pos : 0 < b.arena.length := by
  obtain ⟨now, -, placed⟩ := laid.current
  exact Nat.lt_of_le_of_lt (Nat.zero_le _) (laid.placed placed)

theorem Laid.ensureOpen_cases :
    (b.isTerminated = false ∧ b.current = some b.target ∧ b.ensureOpen.2 = b) ∨
    (b.isTerminated = true ∧ b.target = b.arena.length ∧
      b.ensureOpen.2 = ((b.create "dead").2.append b.arena.length).switchTo b.arena.length) := by
  obtain ⟨id, current, -⟩ := laid.current
  cases finished : b.isTerminated with
  | false => simp [target, b.ensureOpen_of_open current finished, current]
  | true => simp [target, b.ensureOpen_of_terminated current finished]

theorem Laid.ensureOpen : b.ensureOpen.2.Laid := by
  rcases laid.ensureOpen_cases with ⟨-, -, same⟩ | ⟨-, -, same⟩
  · rw [same]
    exact laid
  · rw [same]
    refine ((laid.create "dead").append (by simp)).switchTo ?_
    rw [(b.create "dead").2.attached_append laid.unplaced]
    simp

theorem Laid.current_ensureOpen : b.ensureOpen.2.current = some b.target := by
  rcases laid.ensureOpen_cases with ⟨-, current, same⟩ | ⟨-, new, same⟩
  · rw [same, current]
  · rw [same, new]
    rfl

theorem Laid.target_mem : b.target ∈ b.ensureOpen.2.attached := by
  obtain ⟨id, current, member⟩ := laid.ensureOpen.current
  rw [laid.current_ensureOpen] at current
  cases current
  exact member

theorem Laid.target_lt : b.target < b.ensureOpen.2.arena.length := laid.ensureOpen.placed laid.target_mem

theorem Laid.exit_target : b.exit b.target = none := by
  rcases laid.ensureOpen_cases with ⟨unfinished, current, -⟩ | ⟨-, new, -⟩
  · rw [b.isTerminated_eq current] at unfinished
    simpa using unfinished
  · rw [new, b.exit_ge (Nat.le_refl _)]

@[simp] theorem Laid.instructions_ensureOpen (id : Nat) :
    b.ensureOpen.2.instructions id = b.instructions id := by
  rcases laid.ensureOpen_cases with ⟨-, -, same⟩ | ⟨-, -, same⟩
  · rw [same]
  · rw [same, instructions_switchTo, instructions_append, instructions_create]

@[simp] theorem Laid.exit_ensureOpen (id : Nat) : b.ensureOpen.2.exit id = b.exit id := by
  rcases laid.ensureOpen_cases with ⟨-, -, same⟩ | ⟨-, -, same⟩
  · rw [same]
  · rw [same, exit_switchTo, exit_append, exit_create]

theorem Laid.size_ensureOpen : b.ensureOpen.2.arena.length =
    if b.isTerminated then b.arena.length + 1 else b.arena.length := by
  rcases laid.ensureOpen_cases with ⟨unfinished, -, same⟩ | ⟨finished, -, same⟩
  · rw [same, unfinished]
    rfl
  · rw [same, finished]
    simp

theorem Laid.attached_ensureOpen : b.ensureOpen.2.attached =
    if b.isTerminated then b.attached ++ [b.arena.length] else b.attached := by
  rcases laid.ensureOpen_cases with ⟨unfinished, -, same⟩ | ⟨finished, -, same⟩
  · rw [same, unfinished]
    rfl
  · rw [same, finished]
    exact attached_append _ laid.unplaced

end EnsureOpen

theorem getElem?_update (id other : Nat) (f : Block → Block) :
    (b.update id f).arena[other]? = if id = other then b.arena[other]?.map f else b.arena[other]? := by
  simp only [update, List.getElem?_modify]
  split <;> simp

theorem exit_update (id other : Nat) {f : Block → Block} (exit : ∀ block, (f block).terminator = block.terminator) :
    (b.update id f).exit other = b.exit other := by
  rw [FunctionBuilder.exit, FunctionBuilder.exit, getElem?_update]
  split
  · cases b.arena[other]? with
    | none => rfl
    | some block => exact exit block
  · rfl

section Emit

variable {b} (laid : b.Laid)
include laid

theorem Laid.instructions_emit (i : Instruction) (id : Nat) :
    (b.emit i).instructions id = if id = b.target then b.instructions id ++ [i] else b.instructions id := by
  have same := laid.instructions_ensureOpen id
  have known := laid.target_lt
  change (b.ensureOpen.2.update b.target _).instructions id = _
  rw [instructions, getElem?_update]
  by_cases here : id = b.target
  · subst here
    rw [instructions, List.getElem?_eq_getElem known] at same
    rw [if_pos rfl, if_pos rfl, List.getElem?_eq_getElem known, ← same]
    rfl
  · rw [if_neg (Ne.symm here), if_neg here, ← same, instructions]

theorem Laid.exit_emit (i : Instruction) (id : Nat) : (b.emit i).exit id = b.exit id := by
  rw [← laid.exit_ensureOpen]
  exact exit_update _ _ _ fun _ => rfl

theorem Laid.instructions_terminate (t : Terminator) (id : Nat) :
    (b.terminate t).instructions id = b.instructions id := by
  have same := laid.instructions_ensureOpen id
  change (b.ensureOpen.2.update b.target _).instructions id = _
  rw [instructions, getElem?_update, ← same, instructions]
  split
  · cases b.ensureOpen.2.arena[id]? <;> rfl
  · rfl

theorem Laid.exit_terminate (t : Terminator) (id : Nat) :
    (b.terminate t).exit id = if id = b.target then some t else b.exit id := by
  have same := laid.exit_ensureOpen id
  have known := laid.target_lt
  change (b.ensureOpen.2.update b.target _).exit id = _
  rw [exit, getElem?_update]
  by_cases here : id = b.target
  · subst here
    rw [if_pos rfl, if_pos rfl, List.getElem?_eq_getElem known]
    rfl
  · rw [if_neg (Ne.symm here), if_neg here, ← same, exit]

theorem Laid.code_emit {i : Instruction} (ordinary : i.isSlot = false) (id : Nat) :
    (b.emit i).code id = if id = b.target then b.code id ++ [i] else b.code id := by
  rw [code, laid.instructions_emit]
  split
  · simp [code, List.filter_append, ordinary]
  · rfl

theorem Laid.slots_emit {i : Instruction} (ordinary : i.isSlot = false) : (b.emit i).slots = b.slots := by
  rw [slots, laid.instructions_emit]
  split
  · simp [slots, List.filter_append, ordinary]
  · rfl

theorem Laid.code_terminate (t : Terminator) (id : Nat) : (b.terminate t).code id = b.code id := by
  rw [code, laid.instructions_terminate, code]

theorem Laid.slots_terminate (t : Terminator) : (b.terminate t).slots = b.slots := by
  rw [slots, laid.instructions_terminate, slots]

/-- A change to a block that keeps its number keeps the numbering. -/
theorem Laid.numbered_update {id other : Nat} {f : Block → Block} {block : Block}
    (found : (b.update id f).arena[other]? = some block) (keeps : ∀ block, (f block).id = block.id) :
    block.id = other := by
  rw [getElem?_update] at found
  split at found
  · obtain ⟨before, there, rfl⟩ := Option.map_eq_some_iff.mp found
    rw [keeps]
    exact laid.numbered there
  · exact laid.numbered found

theorem Laid.emit {i : Instruction} (ordinary : i.isSlot = false) : (b.emit i).Laid where
  numbered found := laid.ensureOpen.numbered_update found fun _ => rfl
  front := by
    rw [laid.instructions_emit, laid.slots_emit ordinary, laid.code_emit ordinary]
    split
    · rw [laid.front, List.append_assoc]
    · exact laid.front
  slotCount := by
    have same := laid.ensureOpen.slotCount
    rw [slots, laid.instructions_ensureOpen] at same
    rw [laid.slots_emit ordinary, slots, same]
    rfl
  others {id} other := by
    rw [laid.instructions_emit, laid.code_emit ordinary, laid.others other]
  entry := laid.ensureOpen.entry
  nodup := laid.ensureOpen.nodup
  placed member := by
    change _ < (b.ensureOpen.2.arena.modify _ _).length
    rw [List.length_modify]
    exact laid.ensureOpen.placed member
  current := laid.ensureOpen.current

theorem Laid.terminate (t : Terminator) : (b.terminate t).Laid where
  numbered found := laid.ensureOpen.numbered_update found fun _ => rfl
  front := by
    rw [laid.instructions_terminate, laid.slots_terminate, laid.code_terminate]
    exact laid.front
  slotCount := by
    have same := laid.ensureOpen.slotCount
    rw [slots, laid.instructions_ensureOpen] at same
    rw [laid.slots_terminate, slots, same]
    rfl
  others {id} other := by
    rw [laid.instructions_terminate, laid.code_terminate, laid.others other]
  entry := laid.ensureOpen.entry
  nodup := laid.ensureOpen.nodup
  placed member := by
    change _ < (b.ensureOpen.2.arena.modify _ _).length
    rw [List.length_modify]
    exact laid.ensureOpen.placed member
  current := laid.ensureOpen.current

end Emit

section Alloca

theorem insertIdx_between {α : Type} (front back : List α) (a : α) :
    (front ++ back).insertIdx front.length a = front ++ a :: back := by
  induction front with
  | nil => rfl
  | cons first rest ih => simpa using ih

variable {b} (laid : b.Laid) (ty : Ty)
include laid

theorem Laid.alloca_eq : b.alloca ty = (.reg ⟨b.nextReg, .ptr⟩,
    { b.update 0 fun block =>
        { block with instructions := block.instructions.insertIdx b.entrySlots (.alloca ⟨b.nextReg, .ptr⟩ ty) } with
      nextReg := b.nextReg + 1
      entrySlots := b.entrySlots + 1 }) := by
  have entry := laid.entry
  cases attached : b.attached with
  | nil => rw [attached] at entry; cases entry
  | cons first rest =>
    rw [attached] at entry
    cases entry
    simp [FunctionBuilder.alloca, newReg, attached, update]

theorem Laid.instructions_alloca (id : Nat) : (b.alloca ty).2.instructions id =
    if id = 0 then b.slots ++ .alloca ⟨b.nextReg, .ptr⟩ ty :: b.code 0 else b.instructions id := by
  have known := laid.size_pos
  rw [laid.alloca_eq]
  change (b.update 0 _).instructions id = _
  rw [instructions, getElem?_update]
  by_cases here : id = 0
  · subst here
    have front := laid.front
    rw [instructions, List.getElem?_eq_getElem known] at front
    rw [if_pos rfl, if_pos rfl, List.getElem?_eq_getElem known]
    simp only [Option.elim_some] at front
    simp [front, ← laid.slotCount, insertIdx_between]
  · rw [if_neg (Ne.symm here), if_neg here, instructions]

theorem Laid.exit_alloca (id : Nat) : (b.alloca ty).2.exit id = b.exit id := by
  rw [laid.alloca_eq]
  exact exit_update _ 0 _ fun _ => rfl

theorem Laid.code_alloca (id : Nat) : (b.alloca ty).2.code id = b.code id := by
  rw [code, laid.instructions_alloca]
  split
  · rename_i entry
    subst entry
    simp [code, slots, Instruction.isSlot]
  · rfl

theorem Laid.slots_alloca : (b.alloca ty).2.slots = b.slots ++ [Instruction.alloca ⟨b.nextReg, .ptr⟩ ty] := by
  rw [slots, laid.instructions_alloca, if_pos rfl]
  simp [code, slots, Instruction.isSlot]

theorem Laid.alloca : (b.alloca ty).2.Laid where
  numbered found := by
    rw [laid.alloca_eq] at found
    exact laid.numbered_update found fun _ => rfl
  front := by
    rw [laid.instructions_alloca, laid.slots_alloca, laid.code_alloca, if_pos rfl, List.append_assoc]
    rfl
  slotCount := by
    rw [laid.slots_alloca, List.length_append, laid.slotCount, laid.alloca_eq]
    rfl
  others other := by rw [laid.instructions_alloca, laid.code_alloca, if_neg other, laid.others other]
  entry := by rw [laid.alloca_eq]; exact laid.entry
  nodup := by rw [laid.alloca_eq]; exact laid.nodup
  placed member := by
    rw [laid.alloca_eq] at member ⊢
    change _ < (b.arena.modify _ _).length
    rw [List.length_modify]
    exact laid.placed member
  current := by rw [laid.alloca_eq]; exact laid.current

end Alloca

end FunctionBuilder

end StructLang.Ir
