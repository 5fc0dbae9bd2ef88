import StructLang.Proofs.Builder.Views

namespace StructLang.Ir.FunctionBuilder

variable {b b' b'' : FunctionBuilder}

theorem prefix_of_eq {α : Type} {front whole : List α} (same : whole = front) : front <+: whole :=
  same ▸ List.prefix_refl whole

structure Grows (b b' : FunctionBuilder) : Prop where
  name : b'.name = b.name
  params : b'.params = b.params
  returns : b'.returns = b.returns
  size : b.arena.length ≤ b'.arena.length
  regs : b.nextReg ≤ b'.nextReg
  slots : b.slots <+: b'.slots
  newSlots : ∀ {i}, i ∈ b'.slots → i ∈ b.slots ∨ ∃ r, i.dest? = some r ∧ b.nextReg ≤ r.id
  attached : b.attached <+: b'.attached
  code : ∀ id, b.code id <+: b'.code id
  finished : ∀ {id t}, b.exit id = some t → b'.exit id = some t ∧ b'.code id = b.code id

theorem Grows.refl (b : FunctionBuilder) : b.Grows b :=
  ⟨rfl, rfl, rfl, Nat.le_refl _, Nat.le_refl _, List.prefix_refl _, .inl, List.prefix_refl _,
    fun _ => List.prefix_refl _, fun h => ⟨h, rfl⟩⟩

theorem Grows.trans (first : b.Grows b') (second : b'.Grows b'') : b.Grows b'' where
  name := second.name.trans first.name
  params := second.params.trans first.params
  returns := second.returns.trans first.returns
  size := Nat.le_trans first.size second.size
  regs := Nat.le_trans first.regs second.regs
  slots := first.slots.trans second.slots
  newSlots member := by
    rcases second.newSlots member with before | ⟨r, dest, new⟩
    · exact first.newSlots before
    · exact .inr ⟨r, dest, Nat.le_trans first.regs new⟩
  attached := first.attached.trans second.attached
  code id := (first.code id).trans (second.code id)
  finished exit := by
    obtain ⟨exit, same⟩ := first.finished exit
    obtain ⟨exit, same'⟩ := second.finished exit
    exact ⟨exit, same'.trans same⟩

/-- Every block besides `pending` has its place and, unless it is being written, its exit. -/
def Complete (b : FunctionBuilder) (pending : List Nat) : Prop :=
  ∀ id < b.arena.length,
    id ∈ pending ∨ (id ∈ b.attached ∧ ((b.exit id).isSome = true ∨ b.current = some id))

structure Frame (b b' : FunctionBuilder) : Prop where
  elsewhere : ∀ {id}, id < b.arena.length → b.current ≠ some id →
    b'.code id = b.code id ∧ b'.exit id = b.exit id
  ends : b'.current = b.current ∨ ∃ id, b'.current = some id ∧ b.arena.length ≤ id

theorem Frame.refl (b : FunctionBuilder) : b.Frame b := ⟨fun _ _ => ⟨rfl, rfl⟩, .inl rfl⟩

theorem Frame.trans (first : b.Frame b') (size : b.arena.length ≤ b'.arena.length) (second : b'.Frame b'') :
    b.Frame b'' where
  elsewhere {id} earlier away := by
    have away' : b'.current ≠ some id := by
      rcases first.ends with same | ⟨other, current, new⟩
      · rwa [same]
      · rw [current]
        intro here
        cases here
        omega
    obtain ⟨code, exit⟩ := second.elsewhere (Nat.lt_of_lt_of_le earlier size) away'
    obtain ⟨code', exit'⟩ := first.elsewhere earlier away
    exact ⟨code.trans code', exit.trans exit'⟩
  ends := by
    rcases second.ends with same | ⟨other, current, new⟩
    · rw [same]
      exact first.ends
    · exact .inr ⟨other, current, Nat.le_trans size new⟩

structure Advances (b b' : FunctionBuilder) : Prop where
  grows : b.Grows b'
  frame : b.Frame b'
  complete : ∀ {pending}, b.Complete pending → b'.Complete pending

theorem Advances.refl (b : FunctionBuilder) : b.Advances b := ⟨.refl b, .refl b, id⟩

theorem Advances.trans (first : b.Advances b') (second : b'.Advances b'') : b.Advances b'' :=
  ⟨first.grows.trans second.grows, first.frame.trans first.grows.size second.frame,
    fun complete => second.complete (first.complete complete)⟩

theorem Grows.create (b : FunctionBuilder) (label : String) : b.Grows (b.create label).2 where
  name := rfl
  params := rfl
  returns := rfl
  size := by rw [size_create]; omega
  regs := Nat.le_refl _
  slots := prefix_of_eq (slots_create ..)
  newSlots member := by rw [slots_create] at member; exact .inl member
  attached := List.prefix_refl _
  code id := prefix_of_eq (code_create ..)
  finished exit := ⟨by rwa [exit_create], code_create ..⟩

theorem Grows.append (b : FunctionBuilder) (id : Nat) : b.Grows (b.append id) := by
  unfold FunctionBuilder.append
  split
  · exact .refl b
  · exact { Grows.refl b with attached := List.prefix_append _ _ }

theorem Grows.switchTo (b : FunctionBuilder) (id : Nat) : b.Grows (b.switchTo id) :=
  ⟨rfl, rfl, rfl, Nat.le_refl _, Nat.le_refl _, List.prefix_refl _, .inl, List.prefix_refl _,
    fun _ => List.prefix_refl _, fun h => ⟨h, rfl⟩⟩

section Steps

variable (laid : b.Laid)
include laid

theorem Laid.grows_ensureOpen : b.Grows b.ensureOpen.2 := by
  rcases laid.ensureOpen_cases with ⟨-, -, same⟩ | ⟨-, -, same⟩
  · rw [same]
    exact .refl b
  · rw [same]
    exact ((Grows.create b "dead").trans (.append _ _)).trans (.switchTo _ _)

/-- The block that is written next is the one that was being written, or a new one. -/
theorem Laid.target_cases :
    (b.isTerminated = false ∧ b.current = some b.target) ∨
    (b.isTerminated = true ∧ b.target = b.arena.length) := by
  rcases laid.ensureOpen_cases with ⟨unfinished, current, -⟩ | ⟨finished, new, -⟩
  · exact .inl ⟨unfinished, current⟩
  · exact .inr ⟨finished, new⟩

theorem Laid.away_target {id : Nat} (earlier : id < b.arena.length) (away : b.current ≠ some id) :
    id ≠ b.target := by
  rintro rfl
  rcases laid.target_cases with ⟨-, current⟩ | ⟨-, new⟩
  · exact away current
  · omega

theorem Laid.ends_target : some b.target = b.current ∨ ∃ id, some b.target = some id ∧ b.arena.length ≤ id := by
  rcases laid.target_cases with ⟨-, current⟩ | ⟨-, new⟩
  · exact .inl current.symm
  · exact .inr ⟨_, rfl, by omega⟩

/-- Once the block that is written next is open, the others are as complete as before. -/
theorem Laid.complete_ensureOpen {pending : List Nat} (complete : b.Complete pending) :
    b.ensureOpen.2.Complete pending := by
  intro id known
  rw [laid.exit_ensureOpen, laid.current_ensureOpen]
  rw [laid.size_ensureOpen] at known
  by_cases earlier : id < b.arena.length
  · rcases complete id earlier with waiting | ⟨placed, state⟩
    · exact .inl waiting
    refine .inr ⟨laid.grows_ensureOpen.attached.subset placed, ?_⟩
    rcases state with exit | current
    · exact .inl exit
    rcases laid.target_cases with ⟨-, writing⟩ | ⟨finished, -⟩
    · exact .inr (writing.symm.trans current)
    · rw [b.isTerminated_eq current] at finished
      exact .inl finished
  · split at known
    · rename_i finished
      have new : id = b.arena.length := by omega
      refine .inr ⟨?_, .inr ?_⟩
      · rw [laid.attached_ensureOpen, if_pos finished, new]
        simp
      · rcases laid.target_cases with ⟨unfinished, -⟩ | ⟨-, target⟩
        · rw [unfinished] at finished
          cases finished
        · rw [target, new]
    · omega

theorem Laid.grows_emit {i : Instruction} (ordinary : i.isSlot = false) : b.Grows (b.emit i) where
  name := laid.grows_ensureOpen.name
  params := laid.grows_ensureOpen.params
  returns := laid.grows_ensureOpen.returns
  size := by
    change _ ≤ (b.ensureOpen.2.arena.modify _ _).length
    rw [List.length_modify]
    exact laid.grows_ensureOpen.size
  regs := laid.grows_ensureOpen.regs
  slots := prefix_of_eq (laid.slots_emit ordinary)
  newSlots member := by rw [laid.slots_emit ordinary] at member; exact .inl member
  attached := laid.grows_ensureOpen.attached
  code id := by
    rw [laid.code_emit ordinary]
    split
    · exact List.prefix_append _ _
    · exact List.prefix_refl _
  finished {id t} exit := by
    have away : id ≠ b.target := by
      rintro rfl
      rw [laid.exit_target] at exit
      cases exit
    rw [laid.exit_emit, laid.code_emit ordinary, if_neg away]
    exact ⟨exit, rfl⟩

theorem Laid.advances_emit {i : Instruction} (ordinary : i.isSlot = false) : b.Advances (b.emit i) where
  grows := laid.grows_emit ordinary
  frame := {
    elsewhere := by
      intro id earlier away
      rw [laid.code_emit ordinary, laid.exit_emit, if_neg (laid.away_target earlier away)]
      exact ⟨rfl, rfl⟩
    ends := by
      change b.ensureOpen.2.current = _ ∨ ∃ _, b.ensureOpen.2.current = _ ∧ _
      rw [laid.current_ensureOpen]
      exact laid.ends_target }
  complete {pending} complete := by
    intro id known
    change id < (b.ensureOpen.2.arena.modify _ _).length at known
    rw [List.length_modify] at known
    rw [laid.exit_emit, ← laid.exit_ensureOpen]
    exact laid.complete_ensureOpen complete id known

theorem Laid.grows_terminate (t : Terminator) : b.Grows (b.terminate t) where
  name := laid.grows_ensureOpen.name
  params := laid.grows_ensureOpen.params
  returns := laid.grows_ensureOpen.returns
  size := by
    change _ ≤ (b.ensureOpen.2.arena.modify _ _).length
    rw [List.length_modify]
    exact laid.grows_ensureOpen.size
  regs := laid.grows_ensureOpen.regs
  slots := prefix_of_eq (laid.slots_terminate ..)
  newSlots member := by rw [laid.slots_terminate] at member; exact .inl member
  attached := laid.grows_ensureOpen.attached
  code id := prefix_of_eq (laid.code_terminate ..)
  finished {id t} exit := by
    have away : id ≠ b.target := by
      rintro rfl
      rw [laid.exit_target] at exit
      cases exit
    rw [laid.exit_terminate, laid.code_terminate, if_neg away]
    exact ⟨exit, rfl⟩

theorem Laid.advances_terminate (t : Terminator) : b.Advances (b.terminate t) where
  grows := laid.grows_terminate t
  frame := {
    elsewhere := by
      intro id earlier away
      rw [laid.code_terminate, laid.exit_terminate, if_neg (laid.away_target earlier away)]
      exact ⟨rfl, rfl⟩
    ends := by
      change b.ensureOpen.2.current = _ ∨ ∃ _, b.ensureOpen.2.current = _ ∧ _
      rw [laid.current_ensureOpen]
      exact laid.ends_target }
  complete {pending} complete := by
    intro id known
    change id < (b.ensureOpen.2.arena.modify _ _).length at known
    rw [List.length_modify] at known
    rcases laid.complete_ensureOpen complete id known with waiting | ⟨placed, state⟩
    · exact .inl waiting
    rw [laid.exit_ensureOpen] at state
    rw [laid.exit_terminate]
    refine .inr ⟨placed, ?_⟩
    split
    · exact .inl rfl
    · exact state

theorem Laid.current_emit (i : Instruction) : (b.emit i).current = some b.target := laid.current_ensureOpen

theorem Laid.current_terminate (t : Terminator) : (b.terminate t).current = some b.target :=
  laid.current_ensureOpen

theorem Laid.isTerminated_terminate (t : Terminator) : (b.terminate t).isTerminated = true := by
  rw [isTerminated_eq _ (laid.current_terminate t), laid.exit_terminate, if_pos rfl]
  rfl

theorem Laid.isTerminated_emit (i : Instruction) : (b.emit i).isTerminated = false := by
  rw [isTerminated_eq _ (laid.current_emit i), laid.exit_emit, laid.exit_target]
  rfl

theorem Laid.advances_alloca (ty : Ty) : b.Advances (b.alloca ty).2 where
  grows := {
    name := by rw [laid.alloca_eq]; rfl
    params := by rw [laid.alloca_eq]; rfl
    returns := by rw [laid.alloca_eq]; rfl
    size := by rw [laid.alloca_eq]; simp [update]
    regs := by rw [laid.alloca_eq]; exact Nat.le_succ _
    slots := by rw [laid.slots_alloca]; exact List.prefix_append _ _
    newSlots := by
      intro i member
      rw [laid.slots_alloca, List.mem_append, List.mem_singleton] at member
      rcases member with before | rfl
      · exact .inl before
      · exact .inr ⟨_, rfl, Nat.le_refl _⟩
    attached := by rw [laid.alloca_eq]; exact List.prefix_refl _
    code := fun id => prefix_of_eq (laid.code_alloca ..)
    finished := fun exit => ⟨by rwa [laid.exit_alloca], laid.code_alloca ..⟩ }
  frame := {
    elsewhere := fun _ _ => ⟨laid.code_alloca .., laid.exit_alloca ..⟩
    ends := by rw [laid.alloca_eq]; exact .inl rfl }
  complete complete := by
    intro id known
    rw [laid.exit_alloca]
    rw [laid.alloca_eq] at known ⊢
    exact complete id (by simpa [update] using known)

theorem Laid.isTerminated_alloca (ty : Ty) : (b.alloca ty).2.isTerminated = b.isTerminated := by
  obtain ⟨id, current, -⟩ := laid.current
  have current' : (b.alloca ty).2.current = some id := by rw [laid.alloca_eq]; exact current
  rw [isTerminated_eq _ current, isTerminated_eq _ current', laid.exit_alloca]

end Steps

section Blocks

theorem Complete.create {pending : List Nat} (complete : b.Complete pending) (label : String) :
    (b.create label).2.Complete (b.arena.length :: pending) := by
  intro id known
  rw [size_create] at known
  rw [exit_create]
  by_cases new : id = b.arena.length
  · exact .inl (by simp [new])
  · rcases complete id (by omega) with waiting | done
    · exact .inl (List.mem_cons_of_mem _ waiting)
    · exact .inr done

theorem Complete.append {pending : List Nat} (complete : b.Complete pending) (id : Nat) :
    (b.append id).Complete pending := by
  intro other known
  rw [arena_append] at known
  rw [exit_append]
  rcases complete other known with waiting | ⟨placed, state⟩
  · exact .inl waiting
  · refine .inr ⟨(Grows.append b id).attached.subset placed, ?_⟩
    unfold FunctionBuilder.append
    split <;> exact state

/-- When the block that was being written has its exit, writing can go on in one that was pending. -/
theorem Complete.switchTo {id : Nat} {pending : List Nat} (complete : b.Complete (id :: pending))
    (finished : b.isTerminated = true) (placed : id ∈ b.attached) : (b.switchTo id).Complete pending := by
  intro other known
  rw [exit_switchTo]
  rcases complete other known with waiting | ⟨placed', state⟩
  · rcases List.mem_cons.mp waiting with rfl | waiting
    · exact .inr ⟨placed, .inr rfl⟩
    · exact .inl waiting
  · refine .inr ⟨placed', .inl ?_⟩
    rcases state with exit | current
    · exact exit
    · rwa [b.isTerminated_eq current] at finished

end Blocks

end StructLang.Ir.FunctionBuilder
