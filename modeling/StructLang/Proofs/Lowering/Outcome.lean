import StructLang.Proofs.Builder.Finished
import StructLang.Proofs.Lowering.Success

namespace StructLang

open Ir

namespace Ir.FunctionBuilder

variable {b b' b'' : FunctionBuilder}

theorem returnsMatch_congr (exits : ∀ id, b'.exit id = b.exit id) (returns : b'.returns = b.returns) :
    b'.ReturnsMatch ↔ b.ReturnsMatch := by
  simp only [ReturnsMatch, exits, returns]

theorem Laid.returnsMatch_terminate (laid : b.Laid) (t : Terminator) :
    (b.terminate t).ReturnsMatch ↔ b.ReturnsMatch ∧ ∀ value, t = .ret value → (value.isSome = true ↔ b.returns ≠ .void) := by
  have returns := (laid.grows_terminate t).returns
  constructor
  · intro fits
    constructor
    · intro id value exit
      have away : id ≠ b.target := by
        rintro rfl
        cases laid.exit_target.symm.trans exit
      rw [← returns]
      exact fits (by rw [laid.exit_terminate, if_neg away]; exact exit)
    · rintro value rfl
      have exit : (b.terminate (.ret value)).exit b.target = some (.ret value) := by rw [laid.exit_terminate, if_pos rfl]
      rw [← returns]
      exact fits exit
  · rintro ⟨fits, new⟩ id value exit
    rw [returns]
    rw [laid.exit_terminate] at exit
    split at exit
    · exact new value (Option.some.inj exit)
    · exact fits exit

structure Moves (b b' : FunctionBuilder) : Prop where
  writes : ∀ i, b'.Writes i ↔ b.Writes i
  returns : b'.ReturnsMatch ↔ b.ReturnsMatch

namespace Moves

theorem trans (first : b.Moves b') (second : b'.Moves b'') : b.Moves b'' :=
  ⟨fun i => (second.writes i).trans (first.writes i), second.returns.trans first.returns⟩

theorem create (b : FunctionBuilder) (label : String) : b.Moves (b.create label).2 where
  writes := writes_congr fun id => by rw [code, instructions_create, code]
  returns := returnsMatch_congr (b.exit_create label) rfl

theorem append (b : FunctionBuilder) (id : Nat) : b.Moves (b.append id) where
  writes := writes_congr fun other => by rw [code, instructions_append, code]
  returns := returnsMatch_congr (b.exit_append id) (Grows.append b id).returns

theorem attach (b : FunctionBuilder) (label : String) : b.Moves (b.attach label).2 :=
  (create b label).trans (append _ _)

theorem switchTo (b : FunctionBuilder) (id : Nat) : b.Moves (b.switchTo id) :=
  ⟨writes_congr fun _ => rfl, returnsMatch_congr (fun _ => rfl) rfl⟩

theorem terminate (laid : b.Laid) {t : Terminator} (leaves : ∀ value, t ≠ .ret value) : b.Moves (b.terminate t) where
  writes := laid.writes_terminate t
  returns := by
    rw [laid.returnsMatch_terminate]
    exact and_iff_left fun value same => absurd same (leaves value)

theorem alloca (laid : b.Laid) (ty : Ty) : b.Moves (b.alloca ty).2 where
  writes := laid.writes_alloca ty
  returns := returnsMatch_congr (laid.exit_alloca ty) (laid.advances_alloca ty).grows.returns

theorem enterLoop (laid : b.Laid) : b.Moves b.enterLoop := by
  have created := (attach b "loop.cond").trans ((attach _ "loop.body").trans (create _ "loop.end"))
  have laid' := ((laid.attach "loop.cond").attach "loop.body").create "loop.end"
  exact created.trans ((terminate laid' (t := .br b.arena.length) nofun).trans (switchTo _ _))

theorem enterBranch (laid : b.Laid) (cond : Value) : b.Moves (b.enterBranch cond) := by
  have created := (attach b "if.then").trans (create _ "if.else")
  have laid' := (laid.attach "if.then").create "if.else"
  exact created.trans ((terminate laid' (t := .condBr cond b.arena.length (b.arena.length + 1)) nofun).trans (switchTo _ _))

end Moves

theorem Adds.returnsMatch (adds : b.Adds b') (grows : b.Grows b') : b'.ReturnsMatch ↔ b.ReturnsMatch :=
  returnsMatch_congr adds.exits grows.returns

end Ir.FunctionBuilder

variable {s s' : FunctionState}

theorem Linked.moves (linked : Linked s) {b : FunctionBuilder} (moves : s.function.Moves b) :
    Linked { s with function := b } :=
  ⟨linked.links.of_writes moves.writes, linked.interned⟩

namespace Lower

variable {scope : Scope} {Γ Γ' : Context} {P Q : Prop}

theorem moves_goOnIn (s : FunctionState) (id : Nat) : s.function.Moves (goOnIn s id).function :=
  (FunctionBuilder.Moves.append _ _).trans (.switchTo _ _)

theorem moves_joined (ready : Ready s) (merge : Nat) : s.function.Moves (joined s merge).function := by
  unfold joined
  split
  · exact ⟨fun _ => Iff.rfl, Iff.rfl⟩
  · exact .terminate ready.sound.laid nofun

theorem linked_joined (ready : Ready s) (linked : Linked s) (merge : Nat) : Linked (joined s merge) := by
  unfold joined
  split
  · exact linked
  · exact linked.moves (.terminate ready.sound.laid nofun)

theorem moves_inBody (ready : Ready s) (test : Nat) (cond : Ir.Value) :
    s.function.Moves (inBody s test cond).function :=
  (FunctionBuilder.Moves.terminate ready.sound.laid (t := .condBr cond (test + 1) (test + 2)) nofun).trans (.switchTo _ _)

/-- The body of a loop starts in an empty block. -/
theorem isTerminated_inBody {emits : Bool} {cond : Ir.Value} (ready : Ready s)
    (tested : Yields { s with function := s.function.enterLoop } emits [cond] s') (bit : cond.ty = .int 1) :
    (inBody s' s.function.arena.length cond).function.isTerminated = false := by
  have entered := ready.sound.enterLoop
  have atTest := ready.track entered.track
  have bodyIdle := entered.body.advance tested.straight.toAdvances
  have stopIdle := entered.stop.advance tested.straight.toAdvances
  have chosen := (tested.ready atTest).choose (tested.available _ (by simp)) bit bodyIdle.known stopIdle.known
  exact (bodyIdle.advance chosen.advances).isTerminated_switchTo

structure Tested (Γ : Context) (s : FunctionState) (cond : Ir.Value) (s' : FunctionState) : Prop where
  yields : ∃ emits, Yields s emits [cond] s'
  bit : cond.ty = .int 1
  agrees : Agrees Γ s'
  linked : Linked s'
  returns : s'.function.ReturnsMatch ↔ s.function.ReturnsMatch

theorem settles_condition (tables : Tables scope Γ) {e : Expr} {width : Nat} (typed : HasType .strict Γ e (.int width))
    (ready : Ready s) (agrees : Agrees Γ s) (linked : Linked s) :
    Settles (condition scope e) s (e.Valued Γ) (Tested Γ s) := by
  have added : Settles (condition scope e) s (e.Valued Γ) fun _ s' => s.function.Adds s'.function ∧ Linked s' := by
    have evaluated := settles_expr tables e .value typed (by rintro ⟨⟩) ready agrees linked
    refine (settles_value tables typed ready agrees evaluated).finish fun {result s₁} found => ?_
    have type : result.value.ty = .int width := found.fits.value
    split
    · exact ⟨found.adds, found.linked⟩
    · rename_i other _ _
      have laid := found.ready.sound.laid
      have known : ∀ v ∈ [result.value, .int 0 other], s₁.module.module.Knows v :=
        List.forall_mem_cons.mpr ⟨found.refers.known, List.forall_mem_singleton.mpr (by rintro _ ⟨⟩)⟩
      exact ⟨found.adds.trans (laid.adds_define (t := .int 1) (f := (.icmp · .ne result.value (.int 0 other))) rfl rfl),
        found.linked.define found.ready (f := (.icmp · .ne result.value (.int 0 other))) rfl rfl known (by rintro _ _ _ _ ⟨⟩)⟩
    · rename_i different
      exact absurd type (different width)
  have shape := (makes_condition scope e ready).and (gives_condition tables typed ready agrees (c := .start .strict .empty))
  refine (shape.and added).imp ?_ fun _ _ failed => failed.2
  rintro cond s' ⟨⟨⟨⟨emits, yields⟩, bit⟩, agrees', -⟩, holds, adds, linked'⟩
  exact ⟨holds, ⟨emits, yields⟩, bit, agrees', linked', adds.returnsMatch yields.straight.grows⟩

/-- Lowering succeeds, and returns go on matching, exactly if `P` holds. What is written fits the module. -/
abbrev Decides (x : Lower Unit) (s : FunctionState) (P : Prop) (post : FunctionState → Prop) : Prop :=
  Wp x s (fun _ s' => (s'.function.ReturnsMatch ↔ s.function.ReturnsMatch ∧ P) ∧ post s') fun _ _ => ¬P

structure Advanced (Γ : Context) (s s' : FunctionState) : Prop where
  passes : Passes s s'
  agrees : Agrees Γ s'
  linked : Linked s'

theorem Decides.advanced {x : Lower Unit} {finishes : Bool} {blame : LoweringError → Prop}
    (run : Decides x s P Linked)
    (passes : Wp x s (fun _ s' => Passes s s' ∧ s'.function.isTerminated = finishes) fun _ _ => True)
    (gives : Gives x s Γ (fun _ _ => True) blame) :
    Decides x s P fun s' => Advanced Γ s s' ∧ s'.function.isTerminated = finishes :=
  ((passes.and gives).and run).imp
    (fun _ _ ⟨⟨⟨passed, finished⟩, agrees, _⟩, returns, linked⟩ => ⟨returns, ⟨passed, agrees, linked⟩, finished⟩)
    fun _ _ failed => failed.2

theorem Decides.congr {x : Lower Unit} {post : FunctionState → Prop} (run : Decides x s P post) (same : P ↔ Q) :
    Decides x s Q post := by
  rwa [propext same] at run

theorem Decides.andThen {x y : Lower Unit} {post post' : FunctionState → Prop} (first : Decides x s P post)
    (next : ∀ {s'}, post s' → Decides y s' Q post') : Decides (x >>= fun _ => y) s (P ∧ Q) post' := by
  rw [Decides, wp_bind]
  refine first.imp (fun _ s₁ ⟨returns₁, done⟩ => ?_) fun _ _ fails both => fails both.1
  refine (next done).imp (fun _ s₂ ⟨returns₂, done'⟩ => ⟨?_, done'⟩) fun _ _ fails both => fails both.2
  rw [returns₂, returns₁, and_assoc]

/-- The body of a loop, which starts in an empty block. -/
theorem Decides.inLoop {body : Block} (run : Decides (block scope true body) s P Linked) (tables : Tables scope Γ)
    (typed : BlockTyped .strict Γ body Γ) (ready : Ready s) (agrees : Agrees Γ s)
    (opened : s.function.isTerminated = false) :
    Decides (block scope true body) s P fun s' =>
      Advanced Γ s s' ∧ s'.function.isTerminated = body.stmts.foldl Stmt.finishes false :=
  run.advanced (opened ▸ passes_block scope true body ready)
    (gives_block body tables typed ready agrees (c := .start .strict .empty))

/-- A loop is decided by its parts; its step counts if the end of the body is reached. -/
theorem decides_loop (tables : Tables scope Γ) {test : Expr} {width : Nat} {body step : Lower Unit} {finishes : Bool}
    (tested : HasType .strict Γ test (.int width)) (ready : Ready s) (agrees : Agrees Γ s) (linked : Linked s)
    (bodyRun : ∀ {s}, Ready s → Agrees Γ s → Linked s → s.function.isTerminated = false →
      Decides body s P fun s' => Advanced Γ s s' ∧ s'.function.isTerminated = finishes)
    (stepRun : ∀ {s}, Ready s → Agrees Γ s → Linked s → Decides step s Q (Advanced Γ s)) :
    Decides (loop scope test body step) s (test.Valued Γ ∧ P ∧ (finishes = false → Q)) Linked := by
  have laid := ready.sound.laid
  have atTest := ready.track ready.sound.enterLoop.track
  have entered : s.function.Moves s.function.enterLoop := .enterLoop laid
  rw [Decides, wp_loop rfl]
  refine (settles_condition tables tested atTest (agrees.enterLoop ready) (linked.moves entered)).imp ?_
    fun _ _ fails all => fails all.1
  intro cond s₁ ⟨valued, found⟩
  obtain ⟨emits, yields⟩ := found.yields
  have ready₁ := yields.ready atTest
  obtain ⟨ready₂, -, -⟩ := inBody_track ready yields found.bit
  have moved := moves_inBody ready₁ s.function.arena.length cond
  have returns₂ := moved.returns.trans (found.returns.trans entered.returns)
  refine (bodyRun ready₂ (found.agrees.inBody ready₁ _ cond) (found.linked.moves moved)
    (isTerminated_inBody ready yields found.bit)).imp ?_ fun _ _ fails all => fails all.2.1
  intro _ s₃ ⟨returns₃, filled, finished⟩
  split
  · rename_i left
    have unreached : finishes = true := finished.symm.trans left
    have moved₃ := moves_goOnIn s₃ (s.function.arena.length + 2)
    refine ⟨?_, filled.linked.moves moved₃⟩
    rw [moved₃.returns, returns₃, returns₂, unreached]
    exact and_congr_right fun _ => ⟨fun holds => ⟨valued, holds, nofun⟩, fun all => all.2.1⟩
  · rename_i left
    have reached : finishes = false := finished.symm.trans (Bool.eq_false_iff.mpr left)
    refine (stepRun filled.passes.ready filled.agrees filled.linked).imp ?_ fun _ _ fails all => fails (all.2.2 reached)
    intro _ s₄ ⟨returns₄, stepped⟩
    have moved₄ : s₄.function.Moves (s₄.function.terminate (.br s.function.arena.length)) :=
      .terminate stepped.passes.ready.sound.laid nofun
    have moved₅ := moved₄.trans (moves_goOnIn
      { s₄ with function := s₄.function.terminate (.br s.function.arena.length) } (s.function.arena.length + 2))
    refine ⟨?_, stepped.linked.moves moved₅⟩
    rw [moved₅.returns, returns₄, returns₃, returns₂, and_assoc]
    exact and_congr_right fun _ => ⟨fun ⟨holds, holds'⟩ => ⟨valued, holds, fun _ => holds'⟩,
      fun all => ⟨all.2.1, all.2.2 reached⟩⟩

theorem decides_evaluate (tables : Tables scope Γ) {e : Expr} {ty : Ty} (typed : HasType .strict Γ e ty) (ready : Ready s)
    (agrees : Agrees Γ s) (linked : Linked s) : Decides (evaluate scope e) s (e.Supported Γ) (Advanced Γ s) := by
  have given := (gives_expr tables e .value typed (by rintro ⟨⟩) ready agrees (c := .start .strict .empty)).along
    (makes_expr scope .value e ready)
  simp only [Decides, evaluate, wp_bind, wp_pure]
  refine (given.and (settles_expr tables e .value typed (by rintro ⟨⟩) ready agrees linked)).imp ?_ fun _ _ failed => failed.2
  rintro result s' ⟨⟨-, yields, agrees', -⟩, holds, adds, linked', -⟩
  refine ⟨?_, yields.passes ready, agrees', linked'⟩
  rw [adds.returnsMatch yields.straight.grows]
  exact (and_iff_left holds).symm

theorem ofSource_void_iff {ty : Ty} : Ir.Ty.ofSource ty = .void ↔ ty = .void := by
  cases ty <;> simp [Ir.Ty.ofSource]

mutual

theorem decides_stmt : (st : Stmt) → {Γ Γ' : Context} → {s : FunctionState} → Tables scope Γ →
    StmtTyped .strict Γ st Γ' → Ready s → Agrees Γ s → Linked s →
    Decides (stmt scope true st) s (st.Supported Γ) Linked
  | .letIn _ name ty none, _, _, s, tables, .declare, ready, agrees, linked => by
    have moved := FunctionBuilder.Moves.alloca ready.sound.laid (.ofSource ty)
    have slot := linked.moves moved
    simp only [Decides, stmt, wp_bind, wp_build, wp_bindLocal]
    exact ⟨moved.returns.trans (and_iff_left trivial).symm, slot.links, slot.interned⟩
  | .letIn _ name ty (some e), _, _, s, tables, .initialise typed, ready, agrees, linked => by
    have moved := FunctionBuilder.Moves.alloca ready.sound.laid (.ofSource ty)
    have slot := ready.alloca (.ofSource ty)
    have ready₁ := slot.ready ready
    have agrees₁ := agrees.alloca ready (.ofSource ty)
    have refers : Refers _ .address ty _ := Refers.alloca ready (.ofSource ty)
    have evaluated := settles_expr tables e .value typed nofun ready₁ agrees₁ (linked.moves moved)
    simp only [Decides, stmt, wp_bind, wp_build, wp_write, wp_bindLocal]
    refine (settles_value tables typed ready₁ agrees₁ evaluated).imp ?_ fun _ _ => id
    intro result s₁ ⟨holds, found⟩
    have stored := found.linked.store found.ready found.refers.known (refers.grow found.adds found.gains) found.fits.value
    have adds := found.adds.trans (found.ready.sound.laid.adds_store result.value (s.function.alloca (.ofSource ty)).1)
    have grows := found.straight.grows.trans
      (found.ready.sound.laid.grows_emit (i := .store result.value (s.function.alloca (.ofSource ty)).1) rfl)
    refine ⟨?_, stored.links, stored.interned⟩
    exact (adds.returnsMatch grows).trans (moved.returns.trans (and_iff_left holds).symm)
  | .ret _ none, Γ, _, s, tables, .ret, ready, agrees, linked => by
    have laid := ready.sound.laid
    refine ⟨?_, linked.links.of_writes (laid.writes_terminate _), linked.interned⟩
    rw [laid.returnsMatch_terminate, agrees.returns]
    simp [Stmt.Supported, ofSource_void_iff]
  | .ret _ (some e), Γ, _, s, tables, .retValue typed, ready, agrees, linked => by
    have evaluated := settles_expr tables e .value typed nofun ready agrees linked
    simp only [Decides, stmt, wp_bind, wp_terminate]
    refine (settles_value tables typed ready agrees evaluated).imp ?_ fun _ _ fails both => fails both.1
    intro result s₁ ⟨holds, found⟩
    have laid := found.ready.sound.laid
    refine ⟨?_, found.linked.links.of_writes (laid.writes_terminate _), found.linked.interned⟩
    rw [laid.returnsMatch_terminate, found.agrees.returns, found.adds.returnsMatch found.straight.grows]
    have some_iff : (∀ value, Terminator.ret (some result.value) = .ret value →
        (value.isSome = true ↔ Ir.Ty.ofSource Γ.returns ≠ .void)) ↔ Γ.returns ≠ .void := by
      simp [ofSource_void_iff]
    rw [some_iff]
    exact and_congr_right fun _ => (and_iff_right holds).symm
  | .cond _ chain, Γ, _, s, tables, .cond typed, ready, agrees, linked => by
    have track := (FunctionBuilder.Track.start ready.sound).create "if.end"
    have idle := FunctionBuilder.Idle.created ready.sound.laid "if.end"
    have agrees₁ := agrees.blocks (.create _ "if.end") (agrees.code.create "if.end")
    have created := FunctionBuilder.Moves.create s.function "if.end"
    simp only [Decides, stmt, wp_bind, wp_build, wp_continueIn, FunctionBuilder.create_fst]
    refine (decides_ifChain chain tables typed (ready.track track) idle.known agrees₁ (linked.moves created)).mono ?_
    intro _ s₁ ⟨returns, linked₁⟩
    have moved := moves_goOnIn s₁ s.function.arena.length
    exact ⟨moved.returns.trans (returns.trans (and_congr_left' created.returns)), linked₁.moves moved⟩
  | .while _ test body, Γ, _, s, tables, .while tested typed, ready, agrees, linked => by
    cases typed.strict_eq
    have run : Decides (loop scope test (block scope true body) (pure ())) s
        (test.Valued Γ ∧ body.Supported Γ ∧ (body.stmts.foldl Stmt.finishes false = false → True)) Linked := by
      refine decides_loop tables tested ready agrees linked ?_ ?_
      · exact fun ready agrees linked opened =>
          (decides_block body tables typed ready agrees linked).inLoop tables typed ready agrees opened
      · exact fun ready agrees linked => ⟨(and_iff_left trivial).symm, ready.passes, agrees, linked⟩
    exact run.congr (and_congr_right fun _ => and_iff_left fun _ => trivial)
  | .for _ init test step body, Γ, _, s, tables, .for started tested stepped typed, ready, agrees, linked => by
    cases typed.strict_eq
    cases started.after_eq
    have tables₁ := tables.same started.sameTables
    have first := (decides_stmt init tables started ready agrees linked).advanced (passes_stmt scope true init ready)
      (gives_stmt init tables started ready agrees (c := .start .strict .empty))
    have run : Decides (stmt scope true init >>= fun _ => loop scope test (block scope true body) (evaluate scope step)) s
        (init.Supported Γ ∧ test.Valued (init.after Γ) ∧ body.Supported (init.after Γ) ∧
          (body.stmts.foldl Stmt.finishes false = false → step.Supported (init.after Γ))) Linked := by
      refine first.andThen fun ⟨done, _⟩ => decides_loop tables₁ tested done.passes.ready done.agrees done.linked ?_ ?_
      · exact fun ready agrees linked opened =>
          (decides_block body tables₁ typed ready agrees linked).inLoop tables₁ typed ready agrees opened
      · exact fun ready agrees linked => decides_evaluate tables₁ stepped ready agrees linked
    have same : body.stmts.foldl Stmt.finishes false = false ↔ body.isLeft = true := by simp [Block.isLeft]
    rw [same] at run
    simp only [Decides, stmt, wp_inScope, if_true]
    exact run.mono fun _ _ ⟨returns, linked₁⟩ => ⟨returns, linked₁.links, linked₁.interned⟩
  | .expr e, _, _, s, tables, .expr typed, ready, agrees, linked =>
    (decides_evaluate tables typed ready agrees linked).mono fun _ _ ⟨returns, executed⟩ => ⟨returns, executed.linked⟩
termination_by structural st => st

theorem decides_ifChain : (chain : IfChain) → {Γ Γ' : Context} → {s : FunctionState} → {merge : Nat} →
    Tables scope Γ → ChainTyped .strict Γ chain Γ' → Ready s → merge < s.function.arena.length → Agrees Γ s → Linked s →
    Decides (ifChain scope true merge chain) s (chain.Supported Γ) Linked
  | .branch test body rest, Γ, _, s, merge, tables, .branch tested typed others, ready, known, agrees, linked => by
    cases typed.strict_eq
    rw [Decides, wp_ifBranch]
    refine (settles_condition tables tested ready agrees linked).imp ?_ fun _ _ fails all => fails all.1
    intro cond s₁ ⟨valued, found⟩
    obtain ⟨emits, yields⟩ := found.yields
    have ready₁ := yields.ready ready
    have available := yields.available _ (List.mem_singleton_self _)
    have inBranch := ready₁.track (ready₁.sound.enterBranch available found.bit).track
    have agrees₁ := found.agrees.enterBranch ready₁ available found.bit
    have entered := FunctionBuilder.Moves.enterBranch ready₁.sound.laid cond
    have linked₁ := found.linked.moves entered
    refine ((decides_block body tables typed inBranch agrees₁ linked₁).advanced (passes_block scope true body inBranch)
      (gives_block body tables typed inBranch agrees₁ (c := .start .strict .empty))).imp ?_ fun _ _ fails all => fails all.2.1
    intro _ s₂ ⟨returns₂, filled, _⟩
    have known₁ := Nat.lt_of_lt_of_le known yields.straight.grows.size
    have next := passes_branch ready₁ available found.bit known₁ filled.passes
    have agrees₂ := (filled.agrees.joined filled.passes.ready merge).goOnIn (s₁.function.arena.length + 1)
    have moved := (moves_joined filled.passes.ready merge).trans
      (moves_goOnIn (joined s₂ merge) (s₁.function.arena.length + 1))
    have known₂ := Nat.lt_of_lt_of_le known₁ next.advances.grows.size
    have linked₂ := (linked_joined filled.passes.ready filled.linked merge).moves
      (moves_goOnIn _ (s₁.function.arena.length + 1))
    refine (decides_ifChain rest tables others next.ready known₂ agrees₂ linked₂).imp ?_ fun _ _ fails all => fails all.2.2
    intro _ s₃ ⟨returns₃, linked₃⟩
    refine ⟨?_, linked₃⟩
    rw [returns₃, moved.returns, returns₂, entered.returns, found.returns, and_assoc]
    exact and_congr_right fun _ => (and_iff_right valued).symm
  | .otherwise body, Γ, _, s, merge, tables, .otherwise typed, ready, known, agrees, linked => by
    simp only [Decides, ifChain, wp_bind, wp_branchTo]
    refine ((decides_block body tables typed ready agrees linked).advanced (passes_block scope true body ready)
      (gives_block body tables typed ready agrees (c := .start .strict .empty))).mono ?_
    intro _ s₁ ⟨returns, filled, _⟩
    exact ⟨(moves_joined filled.passes.ready merge).returns.trans returns,
      linked_joined filled.passes.ready filled.linked merge⟩
  | .done, _, _, s, merge, tables, .done, ready, known, agrees, linked => by
    simp only [Decides, ifChain, wp_branchTo]
    exact ⟨(moves_joined ready merge).returns.trans (and_iff_left trivial).symm, linked_joined ready linked merge⟩
termination_by structural chain => chain

theorem decides_block : (b : Block) → {Γ Γ' : Context} → {s : FunctionState} → Tables scope Γ →
    BlockTyped .strict Γ b Γ' → Ready s → Agrees Γ s → Linked s →
    Decides (block scope true b) s (b.Supported Γ) Linked
  | ⟨body, _⟩, Γ, _, s, tables, .block typed, ready, agrees, linked => by
    simp only [Decides, block, wp_inScope]
    exact (decides_stmts body tables typed ready agrees linked).mono
      fun _ _ ⟨returns, linked'⟩ => ⟨returns, linked'.links, linked'.interned⟩
termination_by structural b => b

theorem decides_stmts : (body : List Stmt) → {Γ Γ' : Context} → {s : FunctionState} → Tables scope Γ →
    StmtsTyped .strict Γ body Γ' → Ready s → Agrees Γ s → Linked s →
    Decides (stmts scope true body) s (Stmt.allSupported Γ body) Linked
  | [], _, _, s, tables, .nil, ready, agrees, linked => ⟨(and_iff_left trivial).symm, linked⟩
  | st :: rest, _, _, s, tables, .cons first others, ready, agrees, linked => by
    cases first.after_eq
    have done := (decides_stmt st tables first ready agrees linked).advanced (passes_stmt scope true st ready)
      (gives_stmt st tables first ready agrees (c := .start .strict .empty))
    refine done.andThen fun ⟨executed, _⟩ => ?_
    exact decides_stmts rest (tables.same first.sameTables) others executed.passes.ready executed.agrees executed.linked
termination_by structural body => body

end

theorem linked_storedParam (p : Param) (index : Nat) (ready : Ready s) (linked : Linked s) :
    Linked (storedParam s index p) ∧ s.function.Adds (storedParam s index p).function := by
  have ready₁ := (ready.alloca (.ofSource p.ty)).ready ready
  have refers : Refers _ .address p.ty _ := Refers.alloca ready (.ofSource p.ty)
  have typed : (Value.arg index (.ofSource p.ty)).ty = .ofSource p.ty := rfl
  have known : s.module.module.Knows (.arg index (.ofSource p.ty)) := fun _ => nofun
  have stored := (linked.alloca ready (.ofSource p.ty)).store ready₁ known refers typed
  exact ⟨⟨stored.links, stored.interned⟩,
    (ready.sound.laid.adds_alloca _).trans (ready₁.sound.laid.adds_store _ _)⟩

theorem linked_params : (ps : List Param) → (index : Nat) → {s : FunctionState} → Ready s → Linked s →
    index + ps.length ≤ s.function.params.length →
    Wp (params index ps) s (fun _ s' => Linked s' ∧ s.function.Adds s'.function) fun _ _ => True
  | [], _, _, _, linked, _ => ⟨linked, .refl _⟩
  | p :: rest, index, s, ready, linked, bound => by
    rw [List.length_cons] at bound
    have first := passes_storedParam p ready (by omega : index < s.function.params.length)
    obtain ⟨linked₁, adds⟩ := linked_storedParam p index ready linked
    rw [wp_params_cons]
    refine (linked_params rest (index + 1) first.ready linked₁ ?_).mono fun _ _ ⟨linked₂, adds'⟩ =>
      ⟨linked₂, adds.trans adds'⟩
    rw [first.advances.grows.params]
    omega

theorem linked_entered {m : ModuleBuilder} (interned : m.Interned) (f : FunctionDecl) : Linked (entered m f) := by
  have empty : ∀ i, ¬(entered m f).function.Writes i := by
    rintro i ⟨id, member⟩
    rw [code_entered] at member
    cases member
  exact ⟨⟨fun written => absurd written (empty _), fun written => absurd written (empty _),
    fun written => absurd written (empty _)⟩, interned⟩

theorem Context.returns_enter (Γ : Context) (f : Signature) : (Γ.enter f).returns = f.returns := by
  have bound (params : List Param) (Γ : Context) :
      (params.foldl (fun Γ p => Γ.bind p.name p.ty) Γ).returns = Γ.returns := by
    induction params generalizing Γ with
    | nil => rfl
    | cons p rest ih => exact ih _
  exact bound f.params _

/-- A body is lowered to code that fits the module and returns what it should, exactly if it is supported. -/
theorem decides_body {m : ModuleBuilder} {f : FunctionDecl} (interned : m.Interned)
    (tables : Tables scope (Γ.enter f.signature)) (typed : BlockTyped .strict (Γ.enter f.signature) f.body Γ')
    (declares : Declares Γ m.module) :
    Wp (body scope true f) (startOf m f)
      (fun _ s' => (s'.function.ReturnsMatch ↔ f.body.Supported (Γ.enter f.signature)) ∧ Linked s')
      fun _ _ => ¬f.body.Supported (Γ.enter f.signature) := by
  obtain ⟨s, stored, ready, agrees⟩ := gives_entered declares f
  have bound : 0 + f.signature.params.length ≤ (entered m f).function.params.length := by
    simp [params_entered, Signature.irParams]
  have ready₀ := ready_entered m f
  obtain ⟨linked, adds⟩ := (linked_params f.signature.params 0 ready₀ (linked_entered interned f) bound).ok stored
  have unreturned : s.function.ReturnsMatch := by
    intro id value exit
    rw [adds.exits, exit_entered] at exit
    cases exit
  rw [wp_body, Wp, stored]
  cases typed.strict_eq
  refine ((decides_block f.body tables typed ready agrees linked).advanced (passes_block scope true f.body ready)
    (gives_block f.body tables typed ready agrees (c := .start .strict .empty))).mono ?_
  rintro _ s₁ ⟨returns, executed, -⟩
  have returns := returns.trans (and_iff_right @unreturned)
  have laid := executed.passes.ready.sound.laid
  unfold closed
  split
  · exact ⟨returns, executed.linked⟩
  · refine ⟨?_, executed.linked.links.of_writes (laid.writes_terminate _), executed.linked.interned⟩
    rw [laid.returnsMatch_terminate, returns, executed.agrees.returns, Context.returns_enter]
    refine and_iff_left fun value same => ?_
    split at same
    · rename_i void
      cases same
      simp [void, Ir.Ty.ofSource]
    · cases same

end Lower

end StructLang
