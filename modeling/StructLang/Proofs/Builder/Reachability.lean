import StructLang.Proofs.Builder.Finished
import StructLang.Proofs.Builder.Labels

namespace StructLang.Ir

inductive Function.Enters (f : Function) : Block → Prop
  | first {entry rest} : f.blocks = entry :: rest → f.Enters entry
  | next {b b' t} : f.Enters b → b.terminator = some t → b'.id ∈ t.successors → b' ∈ f.blocks → f.Enters b'

namespace FunctionBuilder

variable {b b' b'' : FunctionBuilder}

inductive Reaches (b : FunctionBuilder) : Nat → Prop
  | entry : b.Reaches 0
  | next {id t target} : b.Reaches id → b.exit id = some t → target ∈ t.successors → b.Reaches target

theorem Reaches.invariant {P : Nat → Prop} (entry : P 0)
    (kept : ∀ {id t target}, P id → b.exit id = some t → target ∈ t.successors → P target) {id : Nat}
    (reached : b.Reaches id) : P id := by
  induction reached with
  | entry => exact entry
  | next _ exit branch ih => exact kept ih exit branch

theorem Reaches.same (exits : ∀ id, b'.exit id = b.exit id) {id : Nat} (reached : b'.Reaches id) : b.Reaches id :=
  reached.invariant .entry fun before exit branch => before.next (exits _ ▸ exit) branch

theorem Sound.reaches_lt (sound : b.Sound) {id : Nat} (reached : b.Reaches id) : id < b.arena.length :=
  reached.invariant sound.laid.size_pos fun _ exit branch => (sound.exits exit).known _ branch

def Dead (b : FunctionBuilder) : Prop := ¬ b.Reaches b.target

theorem Sound.dead_of_terminated (sound : b.Sound) (finished : b.isTerminated = true) : b.Dead := by
  intro reached
  have known := sound.reaches_lt reached
  rcases sound.laid.target_cases with ⟨unfinished, -⟩ | ⟨-, new⟩
  · rw [finished] at unfinished
    cases unfinished
  · omega

theorem dead_switchTo {id : Nat} (unreached : ¬ b.Reaches id) (unfinished : (b.switchTo id).isTerminated = false) :
    (b.switchTo id).Dead := by
  have here : (b.switchTo id).target = id := by rw [target, ensureOpen_of_open _ rfl unfinished]
  rw [Dead, here]
  exact fun reached => unreached (reached.same (exit_switchTo b id))

section Dead

variable (sound : b.Sound) (dead : b.Dead) (advances : b.Advances b')
include sound dead advances

/-- The blocks on a path have their exits already. -/
theorem Dead.exit_eq {id : Nat} (reached : b.Reaches id) : b'.exit id = b.exit id := by
  cases exit : b.exit id with
  | some t => exact (advances.grows.finished exit).1
  | none =>
    have away : b.current ≠ some id := by
      intro current
      have unfinished : b.isTerminated = false := by rw [b.isTerminated_eq current, exit]; rfl
      rw [Dead, target, b.ensureOpen_of_open current unfinished] at dead
      exact dead reached
    rw [(advances.frame.elsewhere (sound.reaches_lt reached) away).2, exit]

/-- Nothing that is written from here on opens a way. -/
theorem Dead.reaches {id : Nat} (reached : b'.Reaches id) : b.Reaches id :=
  reached.invariant .entry fun before exit branch => before.next (dead.exit_eq sound advances before ▸ exit) branch

theorem Dead.advance (sound' : b'.Sound) : b'.Dead := by
  intro reached
  have before := dead.reaches sound advances reached
  have known := sound.reaches_lt before
  rcases sound'.laid.target_cases with ⟨-, current⟩ | ⟨-, new⟩
  · rcases advances.frame.ends with same | ⟨id, now, new⟩
    · have exit := dead.exit_eq sound advances before
      rw [sound'.laid.exit_target] at exit
      have current := same ▸ current
      have unfinished : b.isTerminated = false := by rw [b.isTerminated_eq current, ← exit]; rfl
      rw [Dead, target, b.ensureOpen_of_open current unfinished] at dead
      exact dead before
    · cases current.symm.trans now
      omega
  · have := advances.grows.size
    omega

end Dead

structure OpensFrom (n : Nat) (b b' : FunctionBuilder) : Prop where
  size : b.arena.length ≤ b'.arena.length
  exits : ∀ {id t}, b'.exit id = some t → b.exit id = some t ∨ t ≠ .unreachable ∧ ∀ target ∈ t.successors, n ≤ target

namespace OpensFrom

variable {n : Nat}

theorem same (size : b.arena.length ≤ b'.arena.length) (exits : ∀ id, b'.exit id = b.exit id) : b.OpensFrom n b' :=
  ⟨size, fun exit => .inl (exits _ ▸ exit)⟩

theorem refl (b : FunctionBuilder) : OpensFrom n b b := same (Nat.le_refl _) fun _ => rfl

theorem trans (first : OpensFrom n b b') (second : OpensFrom n b' b'') : OpensFrom n b b'' :=
  ⟨Nat.le_trans first.size second.size, fun exit => (second.exits exit).elim first.exits .inr⟩

theorem create (b : FunctionBuilder) (label : String) : OpensFrom n b (b.create label).2 :=
  same (by rw [size_create]; exact Nat.le_succ _) fun _ => exit_create ..

theorem append (b : FunctionBuilder) (id : Nat) : OpensFrom n b (b.append id) :=
  same (Nat.le_of_eq (by rw [arena_append])) fun _ => exit_append ..

theorem attach (b : FunctionBuilder) (label : String) : OpensFrom n b (b.attach label).2 :=
  (create b label).trans (append _ _)

theorem switchTo (b : FunctionBuilder) (id : Nat) : OpensFrom n b (b.switchTo id) := same (Nat.le_refl _) fun _ => rfl

theorem bump (b : FunctionBuilder) (next : Nat) : OpensFrom n b { b with nextReg := next } :=
  same (Nat.le_refl _) fun _ => rfl

theorem ensureOpen (b : FunctionBuilder) : OpensFrom n b b.ensureOpen.2 := by
  have dead : OpensFrom n b (ensureOpen.openDead b).2 := (attach b "dead").trans (switchTo _ _)
  unfold FunctionBuilder.ensureOpen
  split
  · split
    · exact dead
    · exact refl b
  · exact dead

theorem emit (b : FunctionBuilder) (i : Instruction) : OpensFrom n b (b.emit i) :=
  (ensureOpen b).trans (same (by simp [FunctionBuilder.emit, update]) fun _ => exit_update _ _ _ fun _ => rfl)

theorem alloca (b : FunctionBuilder) (ty : Ty) : OpensFrom n b (b.alloca ty).2 := by
  unfold FunctionBuilder.alloca
  simp only [newReg]
  split
  · exact (bump b _).trans (emit _ _)
  · exact same (by simp [update]) fun _ => exit_update b _ _ fun _ => rfl

theorem terminate (b : FunctionBuilder) {t : Terminator} (returns : t ≠ .unreachable)
    (new : ∀ target ∈ t.successors, n ≤ target) : OpensFrom n b (b.terminate t) := by
  refine (ensureOpen b).trans ⟨by simp [FunctionBuilder.terminate, update], fun found => ?_⟩
  rcases exit_terminated _ found with rfl | earlier
  · exact .inr ⟨returns, new⟩
  · exact .inl earlier

theorem jump (b : FunctionBuilder) {id : Nat} (new : n ≤ id) : OpensFrom n b (b.terminate (.br id)) :=
  terminate b (by simp) (by simpa [Terminator.successors] using new)

theorem choose (b : FunctionBuilder) (cond : Value) {onTrue onFalse : Nat} (new : n ≤ onTrue) (new' : n ≤ onFalse) :
    OpensFrom n b (b.terminate (.condBr cond onTrue onFalse)) :=
  terminate b (by simp) (by simpa [Terminator.successors] using ⟨new, new'⟩)

theorem enterLoop (low : n ≤ b.arena.length) : OpensFrom n b b.enterLoop :=
  ((((attach b "loop.cond").trans (attach _ "loop.body")).trans (create _ "loop.end")).trans (jump _ low)).trans
    (switchTo _ _)

theorem enterBranch (low : n ≤ b.arena.length) (cond : Value) : OpensFrom n b (b.enterBranch cond) :=
  (((attach b "if.then").trans (create _ "if.else")).trans (choose _ cond low (Nat.le_succ_of_le low))).trans (switchTo _ _)

/-- The blocks that were there before are entered only if they were entered before. -/
theorem reaches (opens : OpensFrom b.arena.length b b') {id : Nat} (reached : b'.Reaches id) :
    b.Reaches id ∨ b.arena.length ≤ id := by
  refine reached.invariant (P := fun id => b.Reaches id ∨ b.arena.length ≤ id) (.inl .entry) ?_
  intro id t target before exit branch
  rcases opens.exits exit with old | ⟨-, new⟩
  · rcases before with before | later
    · exact .inl (before.next old branch)
    · rw [b.exit_ge later] at old
      cases old
  · exact .inr (new target branch)

end OpensFrom

/-- A path of the finished function enters the blocks that were reached when it was written, and leaves them as they
were written. -/
theorem Finished.enters (done : b.Finished) {block : Block} (entered : b.build.Enters block) :
    b.Reaches block.id ∧ block.terminator = b.exit block.id := by
  obtain ⟨label, blocks⟩ := done.blocks_eq
  have written {block : Block} (member : block ∈ b.build.blocks) : block.terminator = b.exit block.id := by
    rw [blocks] at member
    obtain ⟨id, -, rfl⟩ := List.mem_map.mp member
    rfl
  induction entered with
  | @first entry rest front =>
    obtain ⟨label, others, front'⟩ := done.entry
    cases front.symm.trans front'
    exact ⟨.entry, rfl⟩
  | next _ exit branch member ih => exact ⟨ih.1.next (ih.2 ▸ exit) branch, written member⟩

end FunctionBuilder

end StructLang.Ir
