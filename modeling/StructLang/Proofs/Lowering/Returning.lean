import Mathlib
import StructLang.Proofs.Builder.Reachability
import StructLang.Proofs.Lowering.Invariants
import StructLang.Proofs.Lowering.Structure

namespace StructLang

open Ir

mutual

/-- Whether the end of a statement is never reached: it is a return, or a conditional with a last branch that is always
taken, all of whose branches return. -/
def Stmt.alwaysReturns : Stmt → Bool
  | .ret .. => true
  | .cond _ chain => chain.alwaysReturn
  | .letIn .. | .while .. | .for .. | .expr _ => false
termination_by structural st => st

def IfChain.alwaysReturn : IfChain → Bool
  | .branch _ body rest => body.alwaysReturns && rest.alwaysReturn
  | .otherwise body => body.alwaysReturns
  | .done => false
termination_by structural chain => chain

def Block.alwaysReturns : Block → Bool
  | ⟨body, _⟩ => someReturns body
termination_by structural b => b

def someReturns : List Stmt → Bool
  | [] => false
  | st :: rest => st.alwaysReturns || someReturns rest
termination_by structural body => body

end

theorem Ir.FunctionBuilder.OpensFrom.unreached {b b' : FunctionBuilder} (opens : b.OpensFrom b.arena.length b') {id : Nat}
    (known : id < b.arena.length) (unreached : ¬ b.Reaches id) : ¬ b'.Reaches id := by
  intro reached
  rcases opens.reaches reached with before | new
  · exact unreached before
  · omega

namespace Lower

theorem Wp.both {α : Type} {x : Lower α} {s : FunctionState} {post post' : α → FunctionState → Prop}
    {fail fail' : LoweringError → FunctionState → Prop} (run : Wp x s post fail) (run' : Wp x s post' fail') :
    Wp x s (fun a s => post a s ∧ post' a s) fun _ _ => True :=
  (run.and run').imp (fun _ _ => id) fun _ _ _ => trivial

section Opening

variable {scope : Scope} {n : Nat} {b : FunctionBuilder}

abbrev Opened (n : Nat) (b : FunctionBuilder) (s : FunctionState) : Prop := b.OpensFrom n s.function

theorem invariant_opened (scope : Scope) (n : Nat) (b : FunctionBuilder) : Invariant scope (Opened n b) where
  emit next i _ opened := opened.trans ((FunctionBuilder.OpensFrom.bump _ next).trans (.emit _ i))
  alloca ty opened := opened.trans (.alloca _ ty)
  intern _ opened := opened

theorem Opened.goOnIn {s : FunctionState} (opened : Opened n b s) (id : Nat) : Opened n b (goOnIn s id) :=
  opened.trans ((FunctionBuilder.OpensFrom.append _ id).trans (.switchTo _ id))

theorem Opened.joined {s : FunctionState} (opened : Opened n b s) {merge : Nat} (new : n ≤ merge) :
    Opened n b (joined s merge) := by
  unfold Lower.joined
  split
  · exact opened
  · exact opened.trans (.jump _ new)

theorem opened_inScope {body : Lower Unit} (kept : Preserves (Opened n b) body) (blockScoping : Bool) :
    Preserves (Opened n b) (inScope blockScoping body) := by
  intro s opened
  rw [wp_inScope]
  refine (kept s opened).mono fun _ s' opened' => ?_
  cases blockScoping <;> exact opened'

theorem opened_loop (low : n ≤ b.arena.length) {test : Expr} {body step : Lower Unit}
    (bodyKept : Preserves (Opened n b) body) (stepKept : Preserves (Opened n b) step) :
    Preserves (Opened n b) (loop scope test body step) := by
  intro s opened
  rw [wp_loop rfl]
  have low' : n ≤ s.function.arena.length := Nat.le_trans low opened.size
  have entered : Opened n b { s with function := s.function.enterLoop } := opened.trans (.enterLoop low')
  refine ((invariant_opened scope n b).condition _ entered).mono fun cond s₁ tested => ?_
  have inside : Opened n b (inBody s₁ s.function.arena.length cond) :=
    tested.trans ((FunctionBuilder.OpensFrom.choose _ cond (by omega) (by omega)).trans (.switchTo _ _))
  refine (bodyKept _ inside).mono fun _ s₂ filled => ?_
  split
  · exact filled.goOnIn _
  · refine (stepKept _ filled).mono fun _ s₃ stepped => ?_
    have jumped : Opened n b { s₃ with function := s₃.function.terminate (.br s.function.arena.length) } :=
      stepped.trans (.jump _ low')
    exact jumped.goOnIn _

mutual

theorem opened_stmt (low : n ≤ b.arena.length) (blockScoping : Bool) : (st : Stmt) →
    Preserves (Opened n b) (stmt scope blockScoping st)
  | .letIn _ _ _ none => by
    simp only [stmt]
    exact (invariant_opened scope n b).slot.bind fun _ _ opened => opened
  | .letIn _ _ _ (some init) => by
    simp only [stmt]
    have invariant := invariant_opened scope n b
    refine invariant.slot.bind fun _ => (invariant.expr .value init).valueOf.bind fun _ => ?_
    exact invariant.store.bind fun _ _ opened => opened
  | .ret _ none => by
    simp only [stmt]
    exact fun s opened => opened.trans (.terminate _ (by simp) (by simp [Terminator.successors]))
  | .ret _ (some e) => by
    simp only [stmt]
    refine ((invariant_opened scope n b).expr .value e).valueOf.bind fun typed s opened => ?_
    exact opened.trans (.terminate _ (by simp) (by simp [Terminator.successors]))
  | .cond _ chain => by
    intro s opened
    simp only [stmt, wp_bind, wp_build, wp_continueIn, FunctionBuilder.create_fst]
    have merge : n ≤ s.function.arena.length := Nat.le_trans low opened.size
    have created : Opened n b { s with function := (s.function.create "if.end").2 } := opened.trans (.create _ _)
    exact (opened_ifChain low blockScoping chain merge _ created).mono fun _ s₁ filled => filled.goOnIn _
  | .while _ _ body => by
    simp only [stmt]
    exact opened_loop low (opened_block low blockScoping body) preserves_pure
  | .for _ init _ _ body => by
    simp only [stmt]
    refine opened_inScope ((opened_stmt low blockScoping init).bind fun _ => ?_) blockScoping
    exact opened_loop low (opened_block low blockScoping body) (invariant_opened scope n b).evaluate
  | .expr _ => by
    simp only [stmt]
    exact (invariant_opened scope n b).evaluate
termination_by structural st => st

theorem opened_ifChain (low : n ≤ b.arena.length) (blockScoping : Bool) : (chain : IfChain) → {merge : Nat} → n ≤ merge →
    Preserves (Opened n b) (ifChain scope blockScoping merge chain)
  | .branch test body rest, merge, new => by
    intro s opened
    rw [wp_ifBranch]
    refine ((invariant_opened scope n b).condition s opened).mono fun cond s₁ tested => ?_
    have entered : Opened n b { s₁ with function := s₁.function.enterBranch cond } :=
      tested.trans (.enterBranch (Nat.le_trans low tested.size) cond)
    refine (opened_block low blockScoping body _ entered).mono fun _ s₂ filled => ?_
    exact opened_ifChain low blockScoping rest new _ ((filled.joined new).goOnIn _)
  | .otherwise body, merge, new => by
    intro s opened
    simp only [ifChain, wp_bind, wp_branchTo]
    exact (opened_block low blockScoping body s opened).mono fun _ s₁ filled => filled.joined new
  | .done, merge, new => by
    intro s opened
    simp only [ifChain, wp_branchTo]
    exact opened.joined new
termination_by structural chain => chain

theorem opened_block (low : n ≤ b.arena.length) (blockScoping : Bool) : (body : Block) →
    Preserves (Opened n b) (block scope blockScoping body)
  | ⟨body, _⟩ => by
    simp only [block]
    exact opened_inScope (opened_stmts low blockScoping body) blockScoping
termination_by structural body => body

theorem opened_stmts (low : n ≤ b.arena.length) (blockScoping : Bool) : (body : List Stmt) →
    Preserves (Opened n b) (stmts scope blockScoping body)
  | [] => by
    simp only [stmts]
    exact preserves_pure
  | st :: rest => by
    simp only [stmts]
    exact (opened_stmt low blockScoping st).bind fun _ => opened_stmts low blockScoping rest
termination_by structural body => body

end

theorem opened_params : (ps : List Param) → (index : Nat) → Preserves (Opened n b) (params index ps)
  | [], _ => preserves_pure
  | p :: rest, index => by
    intro s opened
    rw [wp_params_cons]
    exact opened_params rest (index + 1) _ (opened.trans ((FunctionBuilder.OpensFrom.alloca _ _).trans (.emit _ _)))

end Opening

section Ends

variable {s : FunctionState}

theorem dead_goOnIn {merge : Nat} (unreached : ¬ s.function.Reaches merge)
    (unfinished : (goOnIn s merge).function.isTerminated = false) : (goOnIn s merge).function.Dead :=
  FunctionBuilder.dead_switchTo (fun reached => unreached (reached.same (FunctionBuilder.exit_append s.function merge)))
    unfinished

/-- Where a branch ends no path is left, so the jump to `merge` opens no way. -/
theorem unreached_joined {merge id : Nat} (ready : Ready s) (dead : s.function.Dead) (known : merge < s.function.arena.length)
    (unreached : ¬ s.function.Reaches id) : ¬ (joined s merge).function.Reaches id :=
  fun reached => unreached (dead.reaches ready.sound (passes_joined ready known).1.advances reached)

mutual

theorem dead_stmt (scope : Scope) (blockScoping : Bool) : (st : Stmt) → st.alwaysReturns = true → {s : FunctionState} →
    Ready s → Wp (stmt scope blockScoping st) s (fun _ s' => s'.function.Dead) fun _ _ => True
  | .ret span value, _, s, ready => by
    refine (passes_stmt scope blockScoping (.ret span value) ready).mono fun _ s' ⟨passes, finished⟩ => ?_
    exact passes.ready.sound.dead_of_terminated finished
  | .cond _ chain, returns, s, ready => by
    simp only [Stmt.alwaysReturns] at returns
    simp only [stmt, wp_bind, wp_build, wp_continueIn, FunctionBuilder.create_fst]
    have track := (FunctionBuilder.Track.start ready.sound).create "if.end"
    have idle := FunctionBuilder.Idle.created ready.sound.laid "if.end"
    have unreached : ¬ (s.function.create "if.end").2.Reaches s.function.arena.length := fun reached =>
      Nat.lt_irrefl _ (ready.sound.reaches_lt (reached.same (s.function.exit_create "if.end")))
    have passed := passes_ifChain scope blockScoping chain (ready.track track) idle.known
    have avoided := unreached_ifChain scope blockScoping chain returns (ready.track track) idle.known unreached
    refine (passed.both avoided).mono fun _ s₁ ⟨⟨passes, _⟩, unreached⟩ => ?_
    exact dead_goOnIn unreached ((idle.advance passes.advances).append _).isTerminated_switchTo
termination_by structural st => st

theorem unreached_ifChain (scope : Scope) (blockScoping : Bool) {merge : Nat} : (chain : IfChain) →
    chain.alwaysReturn = true → {s : FunctionState} → Ready s → merge < s.function.arena.length →
    ¬ s.function.Reaches merge →
    Wp (ifChain scope blockScoping merge chain) s (fun _ s' => ¬ s'.function.Reaches merge) fun _ _ => True
  | .branch test body rest, returns, s, ready, known, unreached => by
    simp only [IfChain.alwaysReturn, Bool.and_eq_true] at returns
    rw [wp_ifBranch]
    have opening := (invariant_opened scope s.function.arena.length s.function).condition (e := test) s (.refl _)
    refine ((makes_condition scope test ready).both opening).mono fun cond s₁ ⟨⟨⟨_, tested⟩, bit⟩, opened⟩ => ?_
    have ready₁ := tested.ready ready
    have known₁ := Nat.lt_of_lt_of_le known opened.size
    have available := tested.available _ (List.mem_singleton_self _)
    have entered := ready₁.sound.enterBranch available bit
    have opened' : s₁.function.OpensFrom s₁.function.arena.length (s₁.function.enterBranch cond) :=
      .enterBranch (Nat.le_refl _) cond
    have unreached' := opened'.unreached known₁ (opened.unreached known unreached)
    have atBranch := ready₁.track entered.track
    -- the branch is filled: its exits lead to its own blocks, and no path gets to its end
    have inside : Preserves (Opened _ (s₁.function.enterBranch cond)) (block scope blockScoping body) :=
      opened_block (Nat.le_refl _) blockScoping body
    have filling := (passes_block scope blockScoping body atBranch).both
      ((inside _ (.refl _)).both (dead_block scope blockScoping body returns.1 atBranch))
    refine filling.mono fun _ s₂ ⟨⟨filled, _⟩, opened₂, dead⟩ => ?_
    have unreached₂ := opened₂.unreached (Nat.lt_of_lt_of_le known₁ opened'.size) unreached'
    have known₂ := Nat.lt_of_lt_of_le known₁ (Nat.le_trans opened'.size opened₂.size)
    have left := unreached_joined filled.ready dead known₂ unreached₂
    have soFar := (tested.passes ready).trans (passes_branch ready₁ available bit known₁ filled)
    refine unreached_ifChain scope blockScoping rest returns.2 soFar.ready
      (Nat.lt_of_lt_of_le known soFar.advances.grows.size) fun reached => left (reached.same fun id => ?_)
    exact FunctionBuilder.exit_append ..
  | .otherwise body, returns, s, ready, known, unreached => by
    simp only [IfChain.alwaysReturn] at returns
    simp only [ifChain, wp_bind, wp_branchTo]
    have inside : Preserves (Opened _ s.function) (block scope blockScoping body) :=
      opened_block (Nat.le_refl _) blockScoping body
    have filling := (passes_block scope blockScoping body ready).both
      ((inside s (.refl _)).both (dead_block scope blockScoping body returns ready))
    refine filling.mono fun _ s₁ ⟨⟨filled, _⟩, opened, dead⟩ => ?_
    exact unreached_joined filled.ready dead (Nat.lt_of_lt_of_le known opened.size) (opened.unreached known unreached)
  | .done, returns, _, _, _, _ => by
    simp only [IfChain.alwaysReturn, Bool.false_eq_true] at returns
termination_by structural chain => chain

theorem dead_block (scope : Scope) (blockScoping : Bool) : (b : Block) → b.alwaysReturns = true → {s : FunctionState} →
    Ready s → Wp (block scope blockScoping b) s (fun _ s' => s'.function.Dead) fun _ _ => True
  | ⟨body, _⟩, returns, s, ready => by
    simp only [Block.alwaysReturns] at returns
    simp only [block, wp_inScope]
    refine (dead_stmts scope blockScoping body returns ready).mono fun _ s₁ dead => ?_
    cases blockScoping <;> exact dead
termination_by structural b => b

theorem dead_stmts (scope : Scope) (blockScoping : Bool) : (body : List Stmt) → someReturns body = true →
    {s : FunctionState} → Ready s → Wp (stmts scope blockScoping body) s (fun _ s' => s'.function.Dead) fun _ _ => True
  | [], returns, _, _ => by simp only [someReturns, Bool.false_eq_true] at returns
  | st :: rest, returns, s, ready => by
    simp only [someReturns, Bool.or_eq_true] at returns
    simp only [stmts, wp_bind]
    have first := passes_stmt scope blockScoping st ready
    rcases returns with here | later
    · refine (first.both (dead_stmt scope blockScoping st here ready)).mono fun _ s₁ ⟨⟨passes, _⟩, dead⟩ => ?_
      refine (passes_stmts scope blockScoping rest passes.ready).mono fun _ s₂ ⟨others, _⟩ => ?_
      exact dead.advance passes.ready.sound others.advances others.ready.sound
    · exact first.mono fun _ s₁ ⟨passes, _⟩ => dead_stmts scope blockScoping rest later passes.ready
termination_by structural body => body

end

end Ends

theorem Wp.runs {α : Type} {x : Lower α} {s : FunctionState} {post : α → FunctionState → Prop}
    (run : Wp x s post fun _ _ => False) : ∃ a s', x s = .ok a s' ∧ post a s' := by
  unfold Wp at run
  cases result : x s with
  | ok a s' => exact ⟨a, s', rfl, by rwa [result] at run⟩
  | error e s' => rw [result] at run; exact run.elim

section Bodies

variable {scope : Scope} {blockScoping : Bool} {m : ModuleBuilder} {f : FunctionDecl} {s : FunctionState}

theorem body_runs (lowered : body scope blockScoping f (startOf m f) = .ok () s) :
    ∃ s₁ s₂, params 0 f.signature.params (entered m f) = .ok () s₁ ∧ block scope blockScoping f.body s₁ = .ok () s₂ ∧
      s = closed f s₂ := by
  have run : Wp (body scope blockScoping f) (startOf m f) (fun _ s' => s = s') fun _ _ => False := by rw [Wp, lowered]
  obtain ⟨_, s₁, stored, run⟩ := (wp_body.mp run).runs
  obtain ⟨_, s₂, filled, same⟩ := run.runs
  exact ⟨s₁, s₂, stored, filled, same⟩

theorem ready_params {s₁ : FunctionState} (stored : params 0 f.signature.params (entered m f) = .ok () s₁) : Ready s₁ :=
  ((passes_params f.signature.params 0 (ready_entered m f) (by simp [params_entered, Signature.irParams])).ok stored).ready

/-- Before a body is given its end, none of its exits is a trap. -/
theorem exit_ne_unreachable {s₁ s₂ : FunctionState} (stored : params 0 f.signature.params (entered m f) = .ok () s₁)
    (filled : block scope blockScoping f.body s₁ = .ok () s₂) (id : Nat) : s₂.function.exit id ≠ some .unreachable := by
  intro trap
  have opened : Opened 0 (entered m f).function s₁ := (opened_params f.signature.params 0 _ (.refl _)).ok stored
  have opened' := (opened_block (Nat.zero_le _) blockScoping f.body s₁ opened).ok filled
  rcases opened'.exits trap with before | ⟨other, -⟩
  · rw [exit_entered] at before
    cases before
  · exact other rfl

/-- If the end of a body is dead, the paths are those of the body, whatever end it is given. -/
theorem enters_closed (ready : Ready s) (dead : s.function.Dead) (done : (closed f s).function.Finished) {block : Ir.Block}
    (entered : (closed f s).function.build.Enters block) :
    s.function.Reaches block.id ∧ s.function.exit block.id = block.terminator := by
  have advances : s.function.Advances (closed f s).function := by
    unfold closed
    split
    · exact .refl _
    · exact ready.sound.laid.advances_terminate _
  obtain ⟨reached, exit⟩ := done.enters entered
  have before := dead.reaches ready.sound advances reached
  exact ⟨before, (dead.exit_eq ready.sound advances before).symm.trans exit.symm⟩

end Bodies

end Lower

/-- No path through a function whose body always returns enters the block that is given an end after the body. Each
block on a path has the exit that was written for the body itself, and none is a trap. -/
theorem returning_body_never_falls_off {scope : Scope} {blockScoping : Bool} {m : ModuleBuilder} {f : FunctionDecl}
    {s : FunctionState} (returns : f.body.alwaysReturns = true)
    (lowered : Lower.body scope blockScoping f (Lower.startOf m f) = .ok () s) :
    ∃ s₁ s₂, Lower.params 0 f.signature.params (Lower.entered m f) = .ok () s₁ ∧
      Lower.block scope blockScoping f.body s₁ = .ok () s₂ ∧ s = Lower.closed f s₂ ∧
      ∀ block, s.function.build.Enters block →
        block.id ≠ s₂.function.target ∧ s₂.function.exit block.id = block.terminator ∧
          block.terminator ≠ some .unreachable := by
  obtain ⟨s₁, s₂, stored, filled, rfl⟩ := Lower.body_runs lowered
  refine ⟨s₁, s₂, stored, filled, rfl, fun block entered => ?_⟩
  have ready₁ := Lower.ready_params stored
  have ready₂ := ((Lower.passes_block scope blockScoping f.body ready₁).ok filled).1.ready
  have dead := (Lower.dead_block scope blockScoping f.body returns ready₁).ok filled
  obtain ⟨reached, exit⟩ := Lower.enters_closed ready₂ dead (Lower.finished_body lowered) entered
  refine ⟨?_, exit, ?_⟩
  · intro here
    exact dead (here ▸ reached)
  · rw [← exit]
    exact Lower.exit_ne_unreachable stored filled block.id

def branchingReturns : FunctionDecl where
  signature := ⟨"f", default, .int 64, [⟨"n", .int 64, default⟩], default⟩
  body :=
    let n := Expr.variable default "n"
    let assign := Stmt.expr (.assign default n (.int default 1))
    let return1 := Stmt.ret default (some (.int default 1))
    let inner := Stmt.cond default (.branch n ⟨[return1], default⟩ (.otherwise ⟨[return1, assign], default⟩))
    ⟨[.while default n ⟨[return1, assign], default⟩,
      .cond default (.branch n ⟨[inner, assign], default⟩ (.branch n ⟨[assign, return1], default⟩
        (.otherwise ⟨[return1], default⟩))),
      assign], default⟩
  span := default

/-- The function has a trap, and no path enters it. -/
theorem returning_body_never_falls_off_branching :
    ∃ s, Lower.body .empty true branchingReturns (Lower.startOf (.start "m") branchingReturns) = .ok () s ∧
      (∃ block ∈ s.function.build.blocks, block.terminator = some .unreachable) ∧
      ∀ block, s.function.build.Enters block → block.terminator ≠ some .unreachable := by
  have checked : (match Lower.body .empty true branchingReturns (Lower.startOf (.start "m") branchingReturns) with
      | .ok _ s => decide (∃ block ∈ s.function.build.blocks, block.terminator = some .unreachable)
      | .error .. => false) = true := by cbv
  revert checked
  generalize lowered : Lower.body _ _ _ _ = result
  intro checked
  cases result with
  | error e s => cases checked
  | ok _ s =>
    obtain ⟨_, _, -, -, -, avoids⟩ := returning_body_never_falls_off (by decide) lowered
    exact ⟨s, rfl, of_decide_eq_true checked, fun block entered => (avoids block entered).2.2⟩

end StructLang
