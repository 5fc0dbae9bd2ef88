import StructLang.Proofs.Builder.Changes

namespace StructLang.Ir

namespace FunctionBuilder

variable {b : FunctionBuilder}

section Writing

theorem ensureOpen_of_closed (closed : b.current = none ∨ b.isTerminated = true) :
    b.ensureOpen = ensureOpen.openDead b := by
  unfold ensureOpen
  split
  · rename_i id current
    rcases closed with none | finished
    · cases current.symm.trans none
    · exact if_pos finished
  · rfl

theorem ensureOpen_cases (b : FunctionBuilder) :
    (∃ id, b.current = some id ∧ b.isTerminated = false ∧ b.ensureOpen = (id, b)) ∨
      (b.current = none ∨ b.isTerminated = true) ∧ b.ensureOpen = ensureOpen.openDead b := by
  cases current : b.current with
  | none => exact .inr ⟨.inl rfl, ensureOpen_of_closed (.inl current)⟩
  | some id =>
    cases finished : b.isTerminated with
    | false => exact .inl ⟨id, rfl, rfl, b.ensureOpen_of_open current finished⟩
    | true => exact .inr ⟨.inr rfl, ensureOpen_of_closed (.inr finished)⟩

theorem openDead_eq (b : FunctionBuilder) : ensureOpen.openDead b =
    (b.arena.length, ((b.create "dead").2.append b.arena.length).switchTo b.arena.length) := rfl

/-- What is written next goes to a block without a terminator, which may be a new one. -/
theorem Regular.changes_ensureOpen (regular : b.Regular) :
    Relation.ReflTransGen Change b b.ensureOpen.2 ∧
      ∃ block, b.ensureOpen.2.arena[b.ensureOpen.1]? = some block ∧ block.terminator = none := by
  rcases b.ensureOpen_cases with ⟨id, current, unfinished, same⟩ | ⟨-, same⟩
  · rw [same]
    have found := List.getElem?_eq_getElem (regular.current current)
    refine ⟨.refl, _, found, ?_⟩
    rw [isTerminated_eq _ current, exit, found] at unfinished
    simpa using unfinished
  · rw [same, openDead_eq]
    constructor
    · have known : b.arena.length < (b.create "dead").2.arena.length := by rw [size_create]; exact Nat.lt_succ_self _
      refine ((Relation.ReflTransGen.single (.create "dead")).tail (.place known)).tail (.turn ?_)
      rwa [arena_append]
    · refine ⟨.empty b.arena.length (b.freshLabel "dead"), ?_, rfl⟩
      rw [arena_switchTo, arena_append, getElem?_create, if_pos rfl]

theorem nextReg_append (b : FunctionBuilder) (id : Nat) : (b.append id).nextReg = b.nextReg := by
  unfold FunctionBuilder.append
  split <;> rfl

theorem nextReg_ensureOpen (b : FunctionBuilder) : b.ensureOpen.2.nextReg = b.nextReg := by
  rcases b.ensureOpen_cases with ⟨id, -, -, same⟩ | ⟨-, same⟩
  · rw [same]
  · rw [same]
    exact nextReg_append ..

/-- Where the next instruction goes does not depend on the registers counted so far. -/
theorem ensureOpen_bump (b : FunctionBuilder) (n : Nat) :
    ({ b with nextReg := n } : FunctionBuilder).ensureOpen =
      (b.ensureOpen.1, { b.ensureOpen.2 with nextReg := n }) := by
  have dead : ensureOpen.openDead { b with nextReg := n } =
      ((ensureOpen.openDead b).1, { (ensureOpen.openDead b).2 with nextReg := n }) := by
    unfold ensureOpen.openDead attach FunctionBuilder.append
    dsimp only [FunctionBuilder.create, FunctionBuilder.switchTo, freshLabel]
    split <;> rfl
  rcases b.ensureOpen_cases with ⟨id, current, unfinished, same⟩ | ⟨closed, same⟩
  · rw [same]
    exact ensureOpen_of_open { b with nextReg := n } current unfinished
  · rw [same, ← dead]
    exact ensureOpen_of_closed closed

theorem Regular.changes_emit (regular : b.Regular) {i : Instruction} {next : Nat} (numbers : b.Numbers i next) :
    Relation.ReflTransGen Change b (({ b with nextReg := next } : FunctionBuilder).emit i) := by
  obtain ⟨changes, block, found, unfinished⟩ := regular.changes_ensureOpen
  have written : b.ensureOpen.2.Numbers i next := by rwa [Numbers, nextReg_ensureOpen]
  unfold emit
  rw [ensureOpen_bump]
  exact changes.tail (.write found unfinished written)

theorem Regular.changes_define (regular : b.Regular) {ty : Ty} {instruction : Reg → Instruction}
    (dest : (instruction ⟨b.nextReg, ty⟩).dest? = some ⟨b.nextReg, ty⟩) :
    Relation.ReflTransGen Change b (b.define ty instruction).2 :=
  regular.changes_emit (.inr ⟨ty, dest, rfl⟩)

theorem Regular.changes_call (regular : b.Regular) (callee : String) (args : List Value) (returns : Ty) :
    Relation.ReflTransGen Change b (b.call callee args returns).2 := by
  unfold FunctionBuilder.call
  split
  · exact regular.changes_emit (.inl ⟨rfl, rfl⟩)
  · change Relation.ReflTransGen Change b (b.define returns fun dest => .call (some dest) callee args).2
    exact regular.changes_define rfl

theorem Regular.changes_terminate (regular : b.Regular) (t : Terminator) :
    Relation.ReflTransGen Change b (b.terminate t) := by
  obtain ⟨changes, block, found, unfinished⟩ := regular.changes_ensureOpen
  exact changes.tail (.finish t found unfinished)

theorem Regular.changes_alloca (regular : b.Regular) (ty : Ty) : Relation.ReflTransGen Change b (b.alloca ty).2 := by
  cases attached : b.attached with
  | nil =>
    have emitted : (b.alloca ty).2 =
        ({ b with nextReg := b.nextReg + 1 } : FunctionBuilder).emit (.alloca ⟨b.nextReg, .ptr⟩ ty) := by
      simp only [alloca, newReg, attached]
    rw [emitted]
    exact regular.changes_emit (.inr ⟨.ptr, rfl, rfl⟩)
  | cons entry others =>
    have inserted : (b.alloca ty).2 =
        { b.update entry fun block =>
            { block with instructions := block.instructions.insertIdx b.entrySlots (.alloca ⟨b.nextReg, .ptr⟩ ty) } with
          nextReg := b.nextReg + 1
          entrySlots := b.entrySlots + 1 } := by
      simp [alloca, newReg, attached, FunctionBuilder.update]
    rw [inserted]
    exact .single (.slot ty attached)

theorem Regular.canEmit (regular : b.Regular) : b.canEmit = true := by
  obtain ⟨-, block, found, -⟩ := regular.changes_ensureOpen
  exact decide_eq_true (List.getElem?_eq_some_iff.mp found).1

theorem Regular.canAlloca (regular : b.Regular) : b.canAlloca = true := by
  unfold FunctionBuilder.canAlloca
  split
  · exact regular.canEmit
  · rename_i attached
    exact decide_eq_true (regular.placed (by simp [attached]))

end Writing

end FunctionBuilder

def BuildStep.blocks : BuildStep → List Nat
  | .append id | .switchTo id => [id]
  | .terminate t => t.successors
  | _ => []

def BuildStep.isCall : BuildStep → Bool
  | .emit _ => false
  | _ => true

namespace FunctionBuilder

variable {b : FunctionBuilder}

/-- A call that refers to known blocks succeeds, and is made of changes. -/
theorem Regular.changes_step (regular : b.Regular) {s : BuildStep} (call : s.isCall)
    (known : ∀ id ∈ s.blocks, id < b.arena.length) :
    ∃ made after, b.step? s = some (made, after) ∧ Relation.ReflTransGen Change b after ∧
      ∀ id ∈ made.block, id < after.arena.length := by
  have written {made : Made} {after : FunctionBuilder} (none : made.block = none)
      (changes : Relation.ReflTransGen Change b after) :
      ∃ made' after', step?.guarded b (made, after) = some (made', after') ∧ Relation.ReflTransGen Change b after' ∧
        ∀ id ∈ made'.block, id < after'.arena.length := by
    refine ⟨made, after, if_pos regular.canEmit, changes, ?_⟩
    rw [none]
    rintro id ⟨⟩
  cases s with
  | create label =>
    refine ⟨_, _, rfl, .single (.create label), ?_⟩
    rintro id ⟨⟩
    rw [size_create]
    exact Nat.lt_succ_self _
  | attach label =>
    have new : b.arena.length < (b.create label).2.arena.length := by rw [size_create]; exact Nat.lt_succ_self _
    refine ⟨_, _, rfl, (Relation.ReflTransGen.single (.create label)).tail (.place new), ?_⟩
    rintro id ⟨⟩
    exact (arena_append ..).symm ▸ new
  | append id => exact ⟨_, _, rfl, .single (.place (known id (List.mem_singleton_self id))), by rintro id ⟨⟩⟩
  | switchTo id => exact ⟨_, _, rfl, .single (.turn (known id (List.mem_singleton_self id))), by rintro id ⟨⟩⟩
  | alloca ty => exact ⟨_, _, if_pos regular.canAlloca, regular.changes_alloca ty, by rintro id ⟨⟩⟩
  | store value addr => exact written rfl (regular.changes_emit (.inl ⟨rfl, rfl⟩))
  | call callee args returns => exact written rfl (regular.changes_call callee args returns)
  | emit i => cases call
  | terminate t => exact written rfl (regular.changes_terminate t)
  | _ => exact written rfl (regular.changes_define rfl)

end FunctionBuilder

/-- A function under construction, and the numbers of blocks that have been returned to whoever writes it. -/
structure Session where
  builder : FunctionBuilder
  returned : List Nat

namespace Session

def start (name : String) (params : List Param) (returns : Ty) : Session := ⟨.start name params returns, []⟩

def call? (s : Session) (step : BuildStep) : Option Session :=
  (s.builder.step? step).map fun made => ⟨made.2, s.returned ++ made.1.block.toList⟩

def calls? (s : Session) : List BuildStep → Option Session
  | [] => some s
  | step :: rest => (s.call? step).bind fun after => after.calls? rest

def knows (s : Session) : List Nat := s.returned ++ s.builder.current.toList

def Allows (s : Session) : List BuildStep → Prop
  | [] => True
  | step :: rest => step.isCall ∧ step.blocks ⊆ s.knows ∧ ∀ after, s.call? step = some after → after.Allows rest

structure Valid (s : Session) : Prop where
  regular : s.builder.Regular
  returned : ∀ id ∈ s.returned, id < s.builder.arena.length

theorem valid_start (name : String) (params : List Param) (returns : Ty) : (start name params returns).Valid :=
  ⟨FunctionBuilder.regular_start .., by rintro id ⟨⟩⟩

variable {s : Session}

theorem Valid.known (valid : s.Valid) : ∀ id ∈ s.knows, id < s.builder.arena.length := by
  intro id member
  rcases List.mem_append.mp member with returned | current
  · exact valid.returned id returned
  · exact valid.regular.current (Option.mem_toList.mp current)

/-- One call. -/
theorem Valid.call (valid : s.Valid) {step : BuildStep} (call : step.isCall) (referred : step.blocks ⊆ s.knows) :
    ∃ after, s.call? step = some after ∧ after.Valid ∧
      Relation.ReflTransGen FunctionBuilder.Change s.builder after.builder := by
  obtain ⟨made, builder, stepped, changes, new⟩ :=
    valid.regular.changes_step call fun id member => valid.known id (referred member)
  refine ⟨⟨builder, s.returned ++ made.block.toList⟩, ?_, ⟨valid.regular.changes changes, ?_⟩, changes⟩
  · rw [call?, stepped]
    rfl
  · intro id member
    rcases List.mem_append.mp member with before | last
    · exact Nat.lt_of_lt_of_le (valid.returned id before) (FunctionBuilder.size_le_of_changes changes)
    · exact new id (Option.mem_toList.mp last)

/-- Any number of calls, of which the first may be followed by others. -/
theorem Valid.calls {later : List BuildStep} : ∀ {calls : List BuildStep} {s : Session}, s.Valid → s.Allows (calls ++ later) →
    ∃ after, s.calls? calls = some after ∧ after.Valid ∧ after.Allows later ∧
      Relation.ReflTransGen FunctionBuilder.Change s.builder after.builder
  | [], s, valid, allowed => ⟨s, rfl, valid, allowed, .refl⟩
  | step :: rest, s, valid, allowed => by
    obtain ⟨call, referred, others⟩ := allowed
    obtain ⟨next, called, valid', first⟩ := valid.call call referred
    obtain ⟨after, ran, valid'', allowed', changes⟩ := Valid.calls valid' (others next called)
    refine ⟨after, ?_, valid'', allowed', first.trans changes⟩
    rw [calls?, called]
    exact ran

end Session

namespace FunctionBuilder

variable {b : FunctionBuilder}

/-- No block that has a place is missing from the function. -/
theorem Regular.blocks_build (regular : b.Regular) : b.build.blocks.map some = b.attached.map (b.arena[·]?) := by
  have each : ∀ ids : List Nat, (∀ id ∈ ids, id < b.arena.length) →
      (ids.filterMap (b.arena[·]?)).map some = ids.map (b.arena[·]?) := by
    intro ids known
    induction ids with
    | nil => rfl
    | cons id rest ih =>
      have found := List.getElem?_eq_getElem (known id List.mem_cons_self)
      rw [List.filterMap_cons_some found, List.map_cons, List.map_cons, found,
        ih fun other member => known other (List.mem_cons_of_mem _ member)]
  exact each b.attached fun id member => regular.placed member

/-- After any calls, and whatever calls are made later: blocks are found under their numbers and placed at most once,
registers are written once, the entry begins with its slots, a block with a terminator stays as it is but for slots that
are put behind those of the entry, and the function has the blocks that were placed, in that order. -/
theorem sessions_stay_regular (name : String) (params : List Param) (returns : Ty) (calls later : List BuildStep)
    (allowed : (Session.start name params returns).Allows (calls ++ later)) :
    ∃ now after, (Session.start name params returns).calls? calls = some now ∧ now.calls? later = some after ∧
      (∀ {id : Nat} {block : Block}, now.builder.arena[id]? = some block → block.id = id) ∧
      now.builder.attached.Nodup ∧
      (now.builder.registers.map (·.id)).Nodup ∧ (∀ r ∈ now.builder.registers, r.id < now.builder.nextReg) ∧
      (∀ entry ∈ now.builder.attached.head?, ∃ block, now.builder.arena[entry]? = some block ∧
        now.builder.entrySlots ≤ block.instructions.length ∧
        ∀ i ∈ block.instructions.take now.builder.entrySlots, i.isSlot) ∧
      now.builder.Spares after.builder ∧
      now.builder.build.blocks.map some = now.builder.attached.map (now.builder.arena[·]?) := by
  obtain ⟨now, ran, valid, allowed', -⟩ := (Session.valid_start name params returns).calls allowed
  rw [← later.append_nil] at allowed'
  obtain ⟨after, ran', -, -, changes⟩ := valid.calls allowed'
  have regular := valid.regular
  refine ⟨now, after, ran, ran', regular.numbered, regular.distinct, regular.once, fun r member => regular.below member, ?_,
    regular.spares changes, regular.blocks_build⟩
  intro entry first
  have found := List.getElem?_eq_getElem (regular.placed (List.mem_of_head? first))
  exact ⟨_, found, regular.front first found⟩

/-- A slot is asked for before any block has a place, so it stays where it is; the block is finished before it becomes the
entry, and then gets a slot in front of its code; what is written next opens a block of its own. -/
theorem sessions_stay_regular_late :
    (Session.start "f" [] .void).Allows
      ([.create "a", .switchTo 0, .alloca (.int 64), .terminate (.ret none)] ++
        [.append 0, .alloca (.float 64), .neg (.int 1 64)]) ∧
    ∃ now after : Session,
      now.builder.arena = [⟨0, "a", [.alloca ⟨0, .ptr⟩ (.int 64)], some (.ret none)⟩] ∧
      after.builder.arena = [⟨0, "a", [.alloca ⟨1, .ptr⟩ (.float 64), .alloca ⟨0, .ptr⟩ (.int 64)], some (.ret none)⟩,
        ⟨1, "dead", [.neg ⟨2, .int 64⟩ (.int 1 64)], none⟩] ∧
      now.builder.Spares after.builder := by
  have allowed : (Session.start "f" [] .void).Allows
      ([.create "a", .switchTo 0, .alloca (.int 64), .terminate (.ret none)] ++
        [.append 0, .alloca (.float 64), .neg (.int 1 64)]) := by
    iterate 7
      refine ⟨rfl, by decide, ?_⟩
      rintro _ ⟨⟩
    trivial
  obtain ⟨now, after, ran, ran', -, -, -, -, -, spares, -⟩ := sessions_stay_regular "f" [] .void _ _ allowed
  cases ran
  cases ran'
  exact ⟨allowed, _, _, rfl, rfl, spares⟩

end FunctionBuilder

end StructLang.Ir
