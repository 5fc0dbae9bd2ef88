import StructLang.Proofs.Builder.Registers

namespace StructLang.Ir.FunctionBuilder

variable {b b' b'' : FunctionBuilder}

@[simp] theorem current_append (b : FunctionBuilder) (id : Nat) : (b.append id).current = b.current := by
  unfold append
  split <;> rfl

@[simp] theorem attach_fst (b : FunctionBuilder) (label : String) : (b.attach label).1 = b.arena.length := rfl

@[simp] theorem create_fst (b : FunctionBuilder) (label : String) : (b.create label).1 = b.arena.length := rfl

theorem isTerminated_create (b : FunctionBuilder) (label : String) {id : Nat} (current : b.current = some id) :
    (b.create label).2.isTerminated = b.isTerminated := by
  rw [isTerminated_eq (b.create label).2 current, isTerminated_eq b current, exit_create]

theorem isTerminated_append (b : FunctionBuilder) (other : Nat) {id : Nat} (current : b.current = some id) :
    (b.append other).isTerminated = b.isTerminated := by
  rw [isTerminated_eq b current, isTerminated_eq _ ((current_append b other).trans current), exit_append]

theorem isTerminated_attach (b : FunctionBuilder) (label : String) {id : Nat} (current : b.current = some id) :
    (b.attach label).2.isTerminated = b.isTerminated :=
  (isTerminated_append (b.create label).2 b.arena.length current).trans (b.isTerminated_create label current)

@[simp] theorem size_attach (b : FunctionBuilder) (label : String) :
    (b.attach label).2.arena.length = b.arena.length + 1 := by
  simp [attach]

theorem Laid.attach (laid : b.Laid) (label : String) : (b.attach label).2.Laid :=
  (laid.create label).append (by simp)

theorem mem_append (b : FunctionBuilder) (id : Nat) : id ∈ (b.append id).attached := by
  unfold append
  split
  · rename_i placed
    simpa using placed
  · simp

theorem attached_attach (b : FunctionBuilder) (label : String) : b.arena.length ∈ (b.attach label).2.attached :=
  mem_append _ _

structure Idle (b : FunctionBuilder) (id : Nat) : Prop where
  known : id < b.arena.length
  away : b.current ≠ some id
  code : b.code id = []
  exit : b.exit id = none

namespace Idle

variable {id : Nat}

theorem created (laid : b.Laid) (label : String) : (b.create label).2.Idle b.arena.length where
  known := by simp
  away := by
    obtain ⟨now, current, placed⟩ := laid.current
    have known := laid.placed placed
    change b.current ≠ _
    rw [current]
    rintro ⟨⟩
    exact Nat.lt_irrefl _ known
  code := by rw [code_create, code_ge _ (Nat.le_refl _)]
  exit := by rw [exit_create, exit_ge _ (Nat.le_refl _)]

theorem create (idle : b.Idle id) (label : String) : (b.create label).2.Idle id where
  known := by
    have := idle.known
    rw [size_create]
    omega
  away := idle.away
  code := by rw [code_create, idle.code]
  exit := by rw [exit_create, idle.exit]

theorem append (idle : b.Idle id) (other : Nat) : (b.append other).Idle id where
  known := by rw [arena_append]; exact idle.known
  away := by rw [current_append]; exact idle.away
  code := by rw [FunctionBuilder.code, instructions_append]; exact idle.code
  exit := by rw [exit_append, idle.exit]

theorem attached (laid : b.Laid) (label : String) : (b.attach label).2.Idle b.arena.length :=
  (created laid label).append _

theorem attach (idle : b.Idle id) (label : String) : (b.attach label).2.Idle id :=
  (idle.create label).append _

theorem isTerminated_switchTo (idle : b.Idle id) : (b.switchTo id).isTerminated = false := by
  rw [isTerminated_eq _ rfl, exit_switchTo, idle.exit]
  rfl

theorem switchTo (idle : b.Idle id) {other : Nat} (different : other ≠ id) : (b.switchTo other).Idle id where
  known := idle.known
  away := fun same => different (Option.some.inj same)
  code := idle.code
  exit := idle.exit

theorem advance (idle : b.Idle id) (advances : b.Advances b') : b'.Idle id where
  known := Nat.lt_of_lt_of_le idle.known advances.grows.size
  away := by
    rcases advances.frame.ends with same | ⟨other, current, new⟩
    · rw [same]
      exact idle.away
    · rw [current]
      rintro ⟨⟩
      exact Nat.lt_irrefl _ (Nat.lt_of_lt_of_le idle.known new)
  code := by rw [(advances.frame.elsewhere idle.known idle.away).1, idle.code]
  exit := by rw [(advances.frame.elsewhere idle.known idle.away).2, idle.exit]

end Idle

structure Track (b : FunctionBuilder) (waiting : List Nat) (b' : FunctionBuilder) : Prop where
  sound : b'.Sound
  grows : b.Grows b'
  frame : b.Frame b'
  complete : ∀ {pending}, b.Complete pending → b'.Complete (waiting ++ pending)

namespace Track

variable {waiting : List Nat}

theorem start (sound : b.Sound) : b.Track [] b := ⟨sound, .refl b, .refl b, id⟩

theorem finish (track : b.Track [] b') : b.Advances b' := ⟨track.grows, track.frame, track.complete⟩

theorem create (track : b.Track waiting b') (label : String) :
    b.Track (b'.arena.length :: waiting) (b'.create label).2 where
  sound := track.sound.create label
  grows := track.grows.trans (.create b' label)
  frame := {
    elsewhere := fun earlier away => by
      rw [code_create, exit_create]
      exact track.frame.elsewhere earlier away
    ends := track.frame.ends }
  complete complete := (track.complete complete).create label

theorem append (track : b.Track waiting b') {id : Nat} (known : id < b'.arena.length) :
    b.Track waiting (b'.append id) where
  sound := track.sound.append known
  grows := track.grows.trans (.append b' id)
  frame := {
    elsewhere := fun earlier away => by
      rw [FunctionBuilder.code, instructions_append, exit_append]
      exact track.frame.elsewhere earlier away
    ends := by rw [current_append]; exact track.frame.ends }
  complete complete := (track.complete complete).append id

theorem attach (track : b.Track waiting b') (label : String) :
    b.Track (b'.arena.length :: waiting) (b'.attach label).2 :=
  (track.create label).append (by simp [FunctionBuilder.create])

theorem advance (track : b.Track waiting b') (advances : b'.Advances b'') (sound : b''.Sound) :
    b.Track waiting b'' where
  sound := sound
  grows := track.grows.trans advances.grows
  frame := track.frame.trans track.grows.size advances.frame
  complete complete := advances.complete (track.complete complete)

/-- Once the block being written is finished, the next one of the waiting blocks is filled. -/
theorem switchTo {id : Nat} (track : b.Track (id :: waiting) b') (finished : b'.isTerminated = true)
    (placed : id ∈ b'.attached) (new : b.arena.length ≤ id) : b.Track waiting (b'.switchTo id) where
  sound := track.sound.switchTo placed
  grows := track.grows.trans (.switchTo b' id)
  frame := ⟨track.frame.elsewhere, .inr ⟨id, rfl, new⟩⟩
  complete complete := (track.complete complete).switchTo finished placed

theorem reorder {waiting' : List Nat} (track : b.Track waiting b') (subset : waiting ⊆ waiting') :
    b.Track waiting' b' where
  sound := track.sound
  grows := track.grows
  frame := track.frame
  complete complete := by
    intro id known
    rcases track.complete complete id known with member | done
    · rcases List.mem_append.mp member with member | member
      · exact .inl (List.mem_append_left _ (subset member))
      · exact .inl (List.mem_append_right _ member)
    · exact .inr done

/-- Leaves the block being written for one that waits. -/
theorem branch {id : Nat} {t : Terminator} (track : b.Track (id :: waiting) b') (placed : id ∈ b'.attached)
    (new : b.arena.length ≤ id) (sound : (b'.terminate t).Sound) :
    b.Track waiting ((b'.terminate t).switchTo id) := by
  have laid := track.sound.laid
  exact (track.advance (laid.advances_terminate t) sound).switchTo (laid.isTerminated_terminate t)
    ((laid.grows_terminate t).attached.subset placed) new

/-- Places a block that waits and goes on in it. -/
theorem continueIn {id : Nat} (track : b.Track (id :: waiting) b') (finished : b'.isTerminated = true)
    (known : id < b'.arena.length) (new : b.arena.length ≤ id) :
    b.Track waiting ((b'.append id).switchTo id) := by
  refine (track.append known).switchTo ?_ (mem_append b' id) new
  obtain ⟨now, current, -⟩ := track.sound.laid.current
  rw [isTerminated_append _ _ current, finished]

end Track

/-- The blocks of a loop are created, and the code goes on with the test. The body is the next block
after it, and the one where the loop ends comes last. -/
def enterLoop (b : FunctionBuilder) : FunctionBuilder :=
  ((((b.attach "loop.cond").2.attach "loop.body").2.create "loop.end").2.terminate
    (.br b.arena.length)).switchTo b.arena.length

structure InTest (b b' : FunctionBuilder) : Prop where
  track : b.Track [b.arena.length + 1, b.arena.length + 2] b'
  current : b'.current = some b.arena.length
  code : b'.code b.arena.length = []
  exit : b'.exit b.arena.length = none
  body : b'.Idle (b.arena.length + 1)
  bodyPlaced : b.arena.length + 1 ∈ b'.attached
  stop : b'.Idle (b.arena.length + 2)

theorem Sound.enterLoop (sound : b.Sound) : b.InTest b.enterLoop := by
  have t₁ := (Track.start sound).attach "loop.cond"
  have t₂ := t₁.attach "loop.body"
  have t₃ := t₂.create "loop.end"
  simp only [size_attach] at t₂ t₃
  have test := ((Idle.attached sound.laid "loop.cond").attach "loop.body").create "loop.end"
  have body := (Idle.attached t₁.sound.laid "loop.body").create "loop.end"
  have stop := Idle.created t₂.sound.laid "loop.end"
  simp only [size_attach] at body stop
  have bodyPlaced := attached_attach (b.attach "loop.cond").2 "loop.body"
  have testPlaced := ((Track.start t₁.sound).attach "loop.body").grows.attached.subset (attached_attach b "loop.cond")
  rw [size_attach] at bodyPlaced
  have away := t₃.sound.laid.advances_terminate (.br b.arena.length)
  have sound' := t₃.sound.terminate (t := .br b.arena.length) (by simp [Terminator.operands])
    (by simpa [Terminator.successors] using test.known) trivial
  have reordered : b.Track [b.arena.length, b.arena.length + 1, b.arena.length + 2] _ :=
    t₃.reorder (by intro id; simp; omega)
  exact {
    track := reordered.branch testPlaced (Nat.le_refl _) sound'
    current := rfl
    code := (test.advance away).code
    exit := (test.advance away).exit
    body := (body.advance away).switchTo (by omega)
    bodyPlaced := away.grows.attached.subset bodyPlaced
    stop := (stop.advance away).switchTo (by omega) }

/-- The blocks of a branch are created, and the code goes on where the condition holds. The block for
the other case is the next one. -/
def enterBranch (b : FunctionBuilder) (cond : Value) : FunctionBuilder :=
  (((b.attach "if.then").2.create "if.else").2.terminate
    (.condBr cond b.arena.length (b.arena.length + 1))).switchTo b.arena.length

structure InBranch (b b' : FunctionBuilder) : Prop where
  track : b.Track [b.arena.length + 1] b'
  current : b'.current = some b.arena.length
  code : b'.code b.arena.length = []
  exit : b'.exit b.arena.length = none
  onFalse : b'.Idle (b.arena.length + 1)

theorem Sound.enterBranch (sound : b.Sound) {cond : Value} (available : b.Available cond)
    (bit : cond.ty = .int 1) : b.InBranch (b.enterBranch cond) := by
  have t₁ := (Track.start sound).attach "if.then"
  have t₂ := t₁.create "if.else"
  simp only [size_attach] at t₂
  have onTrue := (Idle.attached sound.laid "if.then").create "if.else"
  have onFalse := Idle.created t₁.sound.laid "if.else"
  simp only [size_attach] at onFalse
  have away := t₂.sound.laid.advances_terminate (.condBr cond b.arena.length (b.arena.length + 1))
  have available' : ((b.attach "if.then").2.create "if.else").2.Available cond := by
    obtain ⟨now, current, -⟩ := sound.laid.current
    refine available.grow sound.laid t₂.sound.laid t₂.grows fun unfinished => ⟨?_, current_append _ _⟩
    have current' : (b.attach "if.then").2.current = some now := (current_append _ _).trans current
    rw [isTerminated_create _ _ current', isTerminated_attach _ _ current, unfinished]
  have sound' := t₂.sound.terminate (t := .condBr cond b.arena.length (b.arena.length + 1))
    (by simpa [Terminator.operands] using available')
    (by
      intro target branch
      simp only [Terminator.successors, List.mem_cons, List.not_mem_nil, or_false] at branch
      rcases branch with rfl | rfl
      · exact onTrue.known
      · exact onFalse.known) bit
  have reordered : b.Track [b.arena.length, b.arena.length + 1] _ := t₂.reorder (by intro id; simp; omega)
  exact {
    track := reordered.branch (attached_attach b "if.then") (Nat.le_refl _) sound'
    current := rfl
    code := (onTrue.advance away).code
    exit := (onTrue.advance away).exit
    onFalse := (onFalse.advance away).switchTo (by omega) }

end StructLang.Ir.FunctionBuilder
