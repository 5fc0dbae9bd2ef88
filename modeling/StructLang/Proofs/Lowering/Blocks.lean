import StructLang.Proofs.Builder.Constructs
import StructLang.Proofs.Lowering.Shape

namespace StructLang

open Ir

/-- Whether the code after a statement has no block to go on in, if it was so before. -/
def Stmt.finishes (finished : Bool) : Stmt → Bool
  | .letIn _ _ _ none => finished
  | .letIn _ _ _ (some _) | .cond .. | .while .. | .for .. => false
  | .ret .. => true
  | .expr e => finished && !e.emits .value

variable {s s' s'' : FunctionState}

structure Passes (s s' : FunctionState) : Prop where
  ready : Ready s'
  advances : s.function.Advances s'.function
  gains : s.module.Gains s'.module

theorem Ready.passes (ready : Ready s) : Passes s s := ⟨ready, .refl _, .refl _⟩

theorem Passes.trans (first : Passes s s') (second : Passes s' s'') : Passes s s'' :=
  ⟨second.ready, first.advances.trans second.advances, first.gains.trans second.gains⟩

theorem Yields.passes {emits : Bool} {values : List Ir.Value} (ready : Ready s) (yields : Yields s emits values s') :
    Passes s s' :=
  ⟨yields.ready ready, yields.straight.toAdvances, yields.gains⟩

theorem Ready.track {b : FunctionBuilder} {waiting : List Nat} (ready : Ready s) (track : s.function.Track waiting b) :
    Ready { s with function := b } :=
  ready.grow track.sound track.grows rfl

theorem Ready.terminate (ready : Ready s) {t : Terminator} (reads : ∀ v ∈ t.operands, s.function.Available v)
    (known : ∀ target ∈ t.successors, target < s.function.arena.length) (typed : t.conditionTyped) :
    Passes s { s with function := s.function.terminate t } := by
  have advances := ready.sound.laid.advances_terminate t
  exact ⟨ready.grow (ready.sound.terminate reads known typed) advances.grows rfl, advances, .refl _⟩

theorem Ready.jump (ready : Ready s) (id : Nat) (known : id < s.function.arena.length) :
    Passes s { s with function := s.function.terminate (.br id) } :=
  ready.terminate (by simp [Terminator.operands]) (by simpa [Terminator.successors] using known) trivial

theorem Ready.choose (ready : Ready s) {cond : Ir.Value} (available : s.function.Available cond)
    (bit : cond.ty = .int 1) {onTrue onFalse : Nat} (known : onTrue < s.function.arena.length)
    (known' : onFalse < s.function.arena.length) :
    Passes s { s with function := s.function.terminate (.condBr cond onTrue onFalse) } :=
  ready.terminate (by simpa [Terminator.operands] using available)
    (by simpa [Terminator.successors] using ⟨known, known'⟩) bit

theorem Ready.ret (ready : Ready s) {value : Option Ir.Value} (available : ∀ v ∈ value, s.function.Available v) :
    Passes s { s with function := s.function.terminate (.ret value) } :=
  ready.terminate (by simpa [Terminator.operands] using available) (by simp [Terminator.successors]) trivial

/-- Forgetting the names that a construct declared. -/
theorem Passes.restore (ready : Ready s) (passes : Passes s s') (blockScoping : Bool) :
    Passes s (if blockScoping then { s' with locals := s.locals } else s') := by
  split
  · exact ⟨ready.grow passes.ready.sound passes.advances.grows rfl, passes.advances, passes.gains⟩
  · exact passes

theorem Passes.bindLocal (passes : Passes s s') {slot : Ir.Value} {r : Reg} (value : slot = .reg r)
    (member : r ∈ defs s'.function.slots) (name : String) (ty : Ty) :
    Passes s { s' with locals := s'.locals.insert name ⟨slot, ty⟩ } := by
  refine ⟨⟨passes.ready.sound, ?_⟩, passes.advances, passes.gains⟩
  intro other typed found
  rw [NameMap.get?_insert] at found
  split at found
  · cases found
    exact ⟨r, value, member⟩
  · exact passes.ready.slots found

/-- The state in the body of a loop whose test is the block `test`, once the condition has been found. -/
def Lower.inBody (s : FunctionState) (test : Nat) (cond : Ir.Value) : FunctionState :=
  { s with function := (s.function.terminate (.condBr cond (test + 1) (test + 2))).switchTo (test + 1) }

def Lower.goOnIn (s : FunctionState) (id : Nat) : FunctionState :=
  { s with function := (s.function.append id).switchTo id }

/-- The end of a construct: it goes on in the last block that waits. -/
theorem Ready.goOn {id : Nat} (ready : Ready s') (gains : s.module.Gains s'.module)
    (track : s.function.Track [id] s'.function)
    (finished : s'.function.isTerminated = true) (idle : s'.function.Idle id) (new : s.function.arena.length ≤ id) :
    Passes s (Lower.goOnIn s' id) ∧ (Lower.goOnIn s' id).function.isTerminated = false := by
  have whole := track.continueIn finished idle.known new
  exact ⟨⟨ready.grow whole.sound ((FunctionBuilder.Grows.append _ _).trans (.switchTo _ _)) rfl, whole.finish, gains⟩,
    (idle.append id).isTerminated_switchTo⟩

namespace Lower

theorem makes_condition (scope : Scope) (e : Expr) (ready : Ready s) :
    Wp (condition scope e) s (fun v s' => (∃ emits, Yields s emits [v] s') ∧ v.ty = .int 1) fun _ _ => True := by
  simp only [condition, wp_bind]
  refine (makes_expr scope .value e ready).valueOf.mono fun typed s₁ first => ?_
  cases ty : typed.value.ty with
  | int width =>
    by_cases bit : width = 1
    · subst bit
      exact ⟨⟨_, first⟩, ty⟩
    · have compared := (first.ready ready).define (t := .int 1) (f := (.icmp · .ne typed.value (.int 0 width))) rfl rfl
        (by simpa [Instruction.operands, FunctionBuilder.Available, Value.Known] using first.available)
      split
      · rename_i same
        cases same
        exact absurd rfl bit
      · rename_i same
        cases same
        exact ⟨⟨_, first.andThen ready compared⟩, rfl⟩
      · rename_i different
        exact absurd rfl (different width)
  | _ => trivial

theorem wp_loop {scope : Scope} {test : Expr} {body step : Lower Unit} {post : Unit → FunctionState → Prop}
    {fail : LoweringError → FunctionState → Prop} {n : Nat} (size : s.function.arena.length = n) :
    Wp (loop scope test body step) s post fail ↔
      Wp (condition scope test) { s with function := s.function.enterLoop } (fun cond s₁ =>
        Wp body (inBody s₁ n cond) (fun _ s₂ =>
          if s₂.function.isTerminated then post () (goOnIn s₂ (n + 2))
          else
            Wp step s₂ (fun _ s₃ =>
              post () (goOnIn { s₃ with function := s₃.function.terminate (.br n) } (n + 2))) fail) fail)
        fail := by
  subst size
  simp only [loop, wp_bind, wp_build, wp_terminate, wp_write, FunctionBuilder.attach_fst,
    FunctionBuilder.create_fst, FunctionBuilder.size_attach, wp_isTerminated, wp_ite, wp_continueIn]
  exact Iff.rfl

/-- On the way into the body of a loop. The block where the loop ends is still to be filled. -/
theorem inBody_track {emits : Bool} {cond : Ir.Value} (ready : Ready s)
    (tested : Yields { s with function := s.function.enterLoop } emits [cond] s') (bit : cond.ty = .int 1) :
    Ready (inBody s' s.function.arena.length cond) ∧
      s.function.Track [s.function.arena.length + 2] (inBody s' s.function.arena.length cond).function ∧
      (inBody s' s.function.arena.length cond).function.Idle (s.function.arena.length + 2) := by
  have entered := ready.sound.enterLoop
  have atTest := ready.track entered.track
  have bodyIdle := entered.body.advance tested.straight.toAdvances
  have stopIdle := entered.stop.advance tested.straight.toAdvances
  have chosen := (tested.ready atTest).choose (tested.available _ (by simp)) bit bodyIdle.known stopIdle.known
  have track := entered.track.advance tested.straight.toAdvances tested.sound
  have placed := tested.straight.grows.attached.subset entered.bodyPlaced
  have track := track.branch placed (Nat.le_succ _) chosen.ready.sound
  exact ⟨chosen.ready.grow track.sound (.switchTo _ _) rfl, track,
    (stopIdle.advance chosen.advances).switchTo (Nat.ne_of_lt (Nat.lt_succ_self _))⟩

theorem passes_loop (scope : Scope) (test : Expr) {body step : Lower Unit} (ready : Ready s)
    (bodyRun : ∀ {s}, Ready s → Wp body s (fun _ s' => Passes s s') fun _ _ => True)
    (stepRun : ∀ {s}, Ready s → Wp step s (fun _ s' => Passes s s') fun _ _ => True) :
    Wp (loop scope test body step) s (fun _ s' => Passes s s' ∧ s'.function.isTerminated = false)
      fun _ _ => True := by
  rw [wp_loop rfl]
  have atTest := ready.track ready.sound.enterLoop.track
  refine (makes_condition scope test atTest).mono fun cond s₁ ⟨⟨_, tested⟩, bit⟩ => ?_
  obtain ⟨ready₂, track₂, idle₂⟩ := inBody_track ready tested bit
  refine (bodyRun ready₂).mono fun _ s₃ filled => ?_
  have track₃ := track₂.advance filled.advances filled.ready.sound
  have idle₃ := idle₂.advance filled.advances
  have size : s.function.arena.length + 2 ≤ s₃.function.arena.length := Nat.le_of_lt idle₃.known
  split
  · rename_i finished
    exact filled.ready.goOn (tested.gains.trans filled.gains) track₃ finished idle₃ (Nat.le_add_right _ _)
  · refine (stepRun filled.ready).mono fun _ s₄ stepped => ?_
    have jumped := stepped.ready.jump s.function.arena.length (by have := stepped.advances.grows.size; omega)
    have both := stepped.trans jumped
    exact jumped.ready.goOn (tested.gains.trans (filled.trans both).gains) (track₃.advance both.advances jumped.ready.sound)
      (stepped.ready.sound.laid.isTerminated_terminate _) (idle₃.advance both.advances) (Nat.le_add_right _ _)

def joined (s : FunctionState) (merge : Nat) : FunctionState :=
  if s.function.isTerminated then s else { s with function := s.function.terminate (.br merge) }

theorem passes_joined (ready : Ready s) {merge : Nat} (known : merge < s.function.arena.length) :
    Passes s (joined s merge) ∧ (joined s merge).function.isTerminated = true := by
  unfold joined
  split
  · rename_i finished
    exact ⟨ready.passes, finished⟩
  · exact ⟨ready.jump merge known, ready.sound.laid.isTerminated_terminate _⟩

theorem wp_ifBranch {scope : Scope} {blockScoping : Bool} {merge : Nat} {test : Expr} {body : Block} {rest : IfChain}
    {post : Unit → FunctionState → Prop} {fail : LoweringError → FunctionState → Prop} :
    Wp (ifChain scope blockScoping merge (.branch test body rest)) s post fail ↔
      Wp (condition scope test) s (fun cond s₁ =>
        Wp (block scope blockScoping body) { s₁ with function := s₁.function.enterBranch cond } (fun _ s₂ =>
          Wp (ifChain scope blockScoping merge rest) (goOnIn (joined s₂ merge) (s₁.function.arena.length + 1))
            post fail) fail) fail := by
  simp only [ifChain, wp_bind, wp_build, wp_terminate, wp_write, wp_branchTo, wp_continueIn,
    FunctionBuilder.attach_fst, FunctionBuilder.create_fst, FunctionBuilder.size_attach]
  exact Iff.rfl

theorem passes_evaluate (scope : Scope) (e : Expr) (ready : Ready s) :
    Wp (evaluate scope e) s (fun _ s' => Passes s s') fun _ _ => True := by
  simp only [evaluate, wp_bind, wp_pure]
  exact (makes_expr scope .value e ready).mono fun _ _ yields => yields.passes ready

/-- A branch is left for the block where the others follow. -/
theorem passes_branch {merge : Nat} {cond : Ir.Value} (ready : Ready s) (available : s.function.Available cond)
    (bit : cond.ty = .int 1) (known : merge < s.function.arena.length)
    (filled : Passes { s with function := s.function.enterBranch cond } s') :
    Passes s (goOnIn (joined s' merge) (s.function.arena.length + 1)) := by
  have entered := ready.sound.enterBranch available bit
  have size := Nat.le_trans entered.track.grows.size filled.advances.grows.size
  obtain ⟨jumped, finished⟩ := passes_joined filled.ready (Nat.lt_of_lt_of_le known size)
  have both := filled.trans jumped
  exact (jumped.ready.goOn (s := s) both.gains (entered.track.advance both.advances jumped.ready.sound) finished
    (entered.onFalse.advance both.advances) (Nat.le_succ _)).1

mutual

theorem passes_stmt (scope : Scope) (blockScoping : Bool) : (st : Stmt) → {s : FunctionState} → Ready s →
    Wp (stmt scope blockScoping st) s
      (fun _ s' => Passes s s' ∧ s'.function.isTerminated = st.finishes s.function.isTerminated) fun _ _ => True
  | .letIn _ name ty none, s, ready => by
    simp only [stmt, wp_bind, wp_build, wp_bindLocal]
    obtain ⟨r, value, member⟩ := ready.sound.laid.slot_alloca (.ofSource ty)
    exact ⟨((ready.alloca (.ofSource ty)).passes ready).bindLocal value member name ty,
      ready.sound.laid.isTerminated_alloca _⟩
  | .letIn _ name ty (some e), s, ready => by
    simp only [stmt, wp_bind, wp_build, wp_write, wp_bindLocal]
    obtain ⟨r, value, member⟩ := ready.sound.laid.slot_alloca (.ofSource ty)
    have slot := ready.alloca (.ofSource ty)
    refine (makes_expr scope .value e (slot.ready ready)).valueOf.mono fun typed s₁ first => ?_
    have both := slot.trans ready first
    have stored := (both.ready ready).emit (i := .store typed.value (s.function.alloca (.ofSource ty)).1) rfl rfl
      fun v read => both.available v (by simpa [Instruction.operands, or_comm] using read)
    have whole := both.andThen ready stored
    have grows := first.straight.grows.trans stored.straight.grows
    exact ⟨(whole.passes ready).bindLocal value (defs_subset grows.slots member) name ty,
      (both.ready ready).sound.laid.isTerminated_emit _⟩
  | .ret _ none, s, ready => ⟨ready.ret (by simp), ready.sound.laid.isTerminated_terminate _⟩
  | .ret _ (some e), s, ready => by
    simp only [stmt, wp_bind, wp_terminate]
    refine (makes_expr scope .value e ready).valueOf.mono fun typed s₁ first => ?_
    exact ⟨(first.passes ready).trans ((first.ready ready).ret (by simpa using first.available)),
      first.sound.laid.isTerminated_terminate _⟩
  | .cond _ chain, s, ready => by
    simp only [stmt, wp_bind, wp_build, wp_continueIn, FunctionBuilder.create_fst]
    have track := (FunctionBuilder.Track.start ready.sound).create "if.end"
    have idle := FunctionBuilder.Idle.created ready.sound.laid "if.end"
    refine (passes_ifChain scope blockScoping chain (ready.track track) idle.known).mono fun _ s₁ ⟨passes, finished⟩ => ?_
    exact passes.ready.goOn passes.gains (track.advance passes.advances passes.ready.sound) finished
      (idle.advance passes.advances) (Nat.le_refl _)
  | .while _ test body, s, ready => by
    simp only [stmt]
    refine passes_loop scope test ready (fun ready => ?_) Ready.passes
    exact (passes_block scope blockScoping body ready).mono fun _ _ => And.left
  | .for _ init test step body, s, ready => by
    simp only [stmt, wp_inScope, wp_bind]
    refine (passes_stmt scope blockScoping init ready).mono fun _ s₁ ⟨first, _⟩ => ?_
    refine (passes_loop scope test first.ready (fun ready => ?_) fun ready => ?_).mono fun _ s₂ ⟨second, unfinished⟩ => ?_
    · exact (passes_block scope blockScoping body ready).mono fun _ _ => And.left
    · exact passes_evaluate scope step ready
    · refine ⟨(first.trans second).restore ready blockScoping, ?_⟩
      cases blockScoping <;> exact unfinished
  | .expr e, s, ready => by
    simp only [stmt, evaluate, wp_bind, wp_pure]
    exact (makes_expr scope .value e ready).mono fun _ _ yields => ⟨yields.passes ready, yields.finished⟩
termination_by structural st => st

theorem passes_ifChain (scope : Scope) (blockScoping : Bool) {merge : Nat} : (chain : IfChain) →
    {s : FunctionState} → Ready s → merge < s.function.arena.length →
    Wp (ifChain scope blockScoping merge chain) s
      (fun _ s' => Passes s s' ∧ s'.function.isTerminated = true) fun _ _ => True
  | .branch test body rest, s, ready, known => by
    rw [wp_ifBranch]
    refine (makes_condition scope test ready).mono fun cond s₁ ⟨⟨_, tested⟩, bit⟩ => ?_
    have ready₁ := tested.ready ready
    have available := tested.available _ (List.mem_singleton_self _)
    have entered := ready₁.sound.enterBranch available bit
    refine (passes_block scope blockScoping body (ready₁.track entered.track)).mono fun _ s₂ ⟨filled, _⟩ => ?_
    have known₁ := Nat.lt_of_lt_of_le known tested.straight.grows.size
    have soFar := (tested.passes ready).trans (passes_branch ready₁ available bit known₁ filled)
    refine (passes_ifChain scope blockScoping rest soFar.ready ?_).mono fun _ s₃ ⟨others, finished⟩ => ?_
    · exact Nat.lt_of_lt_of_le known soFar.advances.grows.size
    · exact ⟨soFar.trans others, finished⟩
  | .otherwise body, s, ready, known => by
    simp only [ifChain, wp_bind, wp_branchTo]
    refine (passes_block scope blockScoping body ready).mono fun _ s₁ ⟨filled, _⟩ => ?_
    obtain ⟨jumped, finished⟩ := passes_joined filled.ready (Nat.lt_of_lt_of_le known filled.advances.grows.size)
    exact ⟨filled.trans jumped, finished⟩
  | .done, s, ready, known => by
    simp only [ifChain, wp_branchTo]
    exact passes_joined ready known
termination_by structural chain => chain

theorem passes_block (scope : Scope) (blockScoping : Bool) : (b : Block) → {s : FunctionState} → Ready s →
    Wp (block scope blockScoping b) s
      (fun _ s' => Passes s s' ∧ s'.function.isTerminated = b.stmts.foldl Stmt.finishes s.function.isTerminated)
      fun _ _ => True
  | ⟨body, _⟩, s, ready => by
    simp only [block, wp_inScope]
    refine (passes_stmts scope blockScoping body ready).mono fun _ s₁ ⟨passes, finished⟩ => ?_
    refine ⟨passes.restore ready blockScoping, ?_⟩
    cases blockScoping <;> exact finished
termination_by structural b => b

theorem passes_stmts (scope : Scope) (blockScoping : Bool) : (body : List Stmt) → {s : FunctionState} → Ready s →
    Wp (stmts scope blockScoping body) s
      (fun _ s' => Passes s s' ∧ s'.function.isTerminated = body.foldl Stmt.finishes s.function.isTerminated)
      fun _ _ => True
  | [], s, ready => ⟨ready.passes, rfl⟩
  | st :: rest, s, ready => by
    simp only [stmts, wp_bind]
    refine (passes_stmt scope blockScoping st ready).mono fun _ s₁ ⟨first, finished⟩ => ?_
    refine (passes_stmts scope blockScoping rest first.ready).mono fun _ s₂ ⟨others, finished'⟩ => ?_
    exact ⟨first.trans others, by rw [finished', finished]; rfl⟩
termination_by structural body => body

end

def storedParam (s : FunctionState) (index : Nat) (p : Param) : FunctionState :=
  let slot := s.function.alloca (.ofSource p.ty)
  { s with
    function := slot.2.store (.arg index (.ofSource p.ty)) slot.1
    locals := s.locals.insert p.name ⟨slot.1, p.ty⟩ }

theorem wp_params_cons {index : Nat} {p : Param} {rest : List Param} {post : Unit → FunctionState → Prop}
    {fail : LoweringError → FunctionState → Prop} :
    Wp (params index (p :: rest)) s post fail ↔ Wp (params (index + 1) rest) (storedParam s index p) post fail := by
  simp only [params, wp_bind, wp_build, wp_write, wp_bindLocal]
  exact Iff.rfl

theorem passes_storedParam {index : Nat} (p : Param) (ready : Ready s) (bound : index < s.function.params.length) :
    Passes s (storedParam s index p) := by
  obtain ⟨r, value, member⟩ := ready.sound.laid.slot_alloca (.ofSource p.ty)
  have slot := ready.alloca (.ofSource p.ty)
  have params := slot.straight.grows.params
  have stored := (slot.ready ready).emit
    (i := .store (.arg index (.ofSource p.ty)) (s.function.alloca (.ofSource p.ty)).1) rfl rfl (by
      intro v read
      simp only [Instruction.operands, List.mem_cons, List.not_mem_nil, or_false] at read
      rcases read with rfl | rfl
      · change index < (s.function.alloca (.ofSource p.ty)).2.params.length
        rwa [params]
      · exact slot.available _ (by simp))
  have whole := slot.andThen ready stored
  exact (whole.passes ready).bindLocal value (defs_subset stored.straight.grows.slots member) p.name p.ty

theorem passes_params : (ps : List Param) → (index : Nat) → {s : FunctionState} → Ready s →
    index + ps.length ≤ s.function.params.length →
    Wp (params index ps) s (fun _ s' => Passes s s') fun _ _ => True
  | [], _, _, ready, _ => ready.passes
  | p :: rest, index, s, ready, bound => by
    rw [List.length_cons] at bound
    have first := passes_storedParam p ready (by omega : index < s.function.params.length)
    rw [wp_params_cons]
    refine (passes_params rest (index + 1) first.ready ?_).mono fun _ s₁ others => first.trans others
    rw [first.advances.grows.params]
    omega

structure Written (f : FunctionDecl) (b : FunctionBuilder) : Prop where
  sound : b.Sound
  complete : b.Complete []
  finished : b.isTerminated = true
  name : b.name = f.signature.name
  params : b.params = f.signature.irParams
  returns : b.returns = .ofSource f.signature.returns

def startOf (m : ModuleBuilder) (f : FunctionDecl) : FunctionState :=
  ⟨m, .start f.signature.name f.signature.irParams (.ofSource f.signature.returns), .empty⟩

def entered (m : ModuleBuilder) (f : FunctionDecl) : FunctionState :=
  { startOf m f with function := ((startOf m f).function.attach "entry").2.switchTo 0 }

theorem params_entered (m : ModuleBuilder) (f : FunctionDecl) :
    (entered m f).function.params = f.signature.irParams := rfl

def closed (f : FunctionDecl) (s : FunctionState) : FunctionState :=
  if s.function.isTerminated then s
  else { s with function := s.function.terminate (if f.signature.returns = .void then .ret none else .unreachable) }

theorem wp_body {scope : Scope} {blockScoping : Bool} {m : ModuleBuilder} {f : FunctionDecl}
    {post : Unit → FunctionState → Prop} {fail : LoweringError → FunctionState → Prop} :
    Wp (body scope blockScoping f) (startOf m f) post fail ↔
      Wp (params 0 f.signature.params) (entered m f) (fun _ s =>
        Wp (block scope blockScoping f.body) s (fun _ s' => post () (closed f s')) fail) fail := by
  simp only [body, wp_bind, wp_build, wp_write, FunctionBuilder.attach_fst, wp_isTerminated, closed]
  constructor
  all_goals
    refine fun run => run.mono fun _ s run => run.mono fun _ s' done => ?_
    cases finished : s'.function.isTerminated <;> simpa [finished, wp_terminate] using done

theorem instructions_entered (m : ModuleBuilder) (f : FunctionDecl) (id : Nat) :
    (entered m f).function.instructions id = [] := by
  cases id <;> rfl

theorem exit_entered (m : ModuleBuilder) (f : FunctionDecl) (id : Nat) : (entered m f).function.exit id = none := by
  cases id <;> rfl

theorem code_entered (m : ModuleBuilder) (f : FunctionDecl) (id : Nat) : (entered m f).function.code id = [] := by
  rw [FunctionBuilder.code, instructions_entered]
  rfl

theorem ready_entered (m : ModuleBuilder) (f : FunctionDecl) : Ready (entered m f) := by
  have slots : (entered m f).function.slots = [] := rfl
  refine ⟨{
    laid := {
      numbered := ?_
      front := rfl
      slotCount := rfl
      others := fun _ => by rw [instructions_entered, code_entered]
      entry := rfl
      nodup := List.nodup_cons.mpr ⟨List.not_mem_nil, List.nodup_nil⟩
      placed := fun member => by rw [List.mem_singleton.mp member]; exact Nat.zero_lt_one
      current := ⟨0, rfl, List.mem_singleton_self 0⟩ }
    below := ?_
    slotBelow := ?_
    once := ?_
    slotOnce := List.nodup_nil
    apart := ?_
    slotApart := ?_
    reads := ?_
    exits := ?_ }, ?_⟩
  · intro id block found
    cases id with
    | zero => cases found; rfl
    | succ id => cases found
  · intro id r written
    rw [code_entered] at written
    cases written
  · intro r written
    rw [slots] at written
    cases written
  · intro id
    rw [code_entered]
    exact List.nodup_nil
  · intro id id' r r' written
    rw [code_entered] at written
    cases written
  · intro id r r' written
    rw [slots] at written
    cases written
  · intro id
    rw [code_entered]
    trivial
  · intro id t found
    rw [exit_entered] at found
    cases found
  · intro name typed found
    cases found

theorem complete_entered (m : ModuleBuilder) (f : FunctionDecl) : (entered m f).function.Complete [] := by
  intro id known
  have first : id = 0 := by simpa [entered, startOf, FunctionBuilder.start] using known
  subst first
  exact .inr ⟨FunctionBuilder.attached_attach _ _, .inr rfl⟩

/-- A lowered body is a function that has been written to its end. -/
theorem written_body (scope : Scope) (blockScoping : Bool) (m : ModuleBuilder) (f : FunctionDecl) :
    Wp (body scope blockScoping f) (startOf m f) (fun _ s' => Written f s'.function ∧ m.Gains s'.module)
      fun _ _ => True := by
  rw [wp_body]
  have complete := complete_entered m f
  refine (passes_params f.signature.params 0 (ready_entered m f) ?_).mono fun _ s₁ stored => ?_
  · simp [params_entered, Signature.irParams]
  refine (passes_block scope blockScoping f.body stored.ready).mono fun _ s₂ ⟨filled, _⟩ => ?_
  have whole := stored.trans filled
  have grows := whole.advances.grows
  unfold closed
  split
  · rename_i finished
    exact ⟨⟨filled.ready.sound, whole.advances.complete complete, finished, grows.name, grows.params, grows.returns⟩,
      whole.gains⟩
  · have closed := filled.ready.terminate (t := if f.signature.returns = .void then .ret none else .unreachable)
      (by split <;> simp [Terminator.operands]) (by split <;> simp [Terminator.successors]) (by split <;> trivial)
    have grows := grows.trans closed.advances.grows
    exact ⟨⟨closed.ready.sound, closed.advances.complete (whole.advances.complete complete),
      filled.ready.sound.laid.isTerminated_terminate _, grows.name, grows.params, grows.returns⟩, whole.gains⟩

end Lower

end StructLang
