import StructLang.Proofs.Lowering.Agreement

namespace StructLang

open Ir

def Context.SameTables (Γ Γ' : Context) : Prop := ∃ names, Γ' = { Γ with names := names }

theorem BlockTyped.strict_eq {Γ Γ' : Context} {b : Block} (typed : BlockTyped .strict Γ b Γ') : Γ' = Γ := by
  cases typed
  rfl

theorem ChainTyped.strict_eq : (chain : IfChain) → {Γ Γ' : Context} → ChainTyped .strict Γ chain Γ' → Γ' = Γ
  | .branch _ _ rest, _, _, .branch _ typed others => (strict_eq rest others).trans typed.strict_eq
  | .otherwise _, _, _, .otherwise typed => typed.strict_eq
  | .done, _, _, .done => rfl
termination_by structural chain => chain

theorem StmtTyped.sameTables {Γ Γ' : Context} {st : Stmt} (typed : StmtTyped .strict Γ st Γ') : Γ.SameTables Γ' := by
  cases typed with
  | declare => exact ⟨_, rfl⟩
  | initialise => exact ⟨_, rfl⟩
  | ret => exact ⟨_, rfl⟩
  | retValue => exact ⟨_, rfl⟩
  | cond typed => exact ⟨_, ChainTyped.strict_eq _ typed⟩
  | «while» _ typed => exact ⟨_, typed.strict_eq⟩
  | «for» => exact ⟨_, rfl⟩
  | expr => exact ⟨_, rfl⟩

theorem StmtsTyped.sameTables {body : List Stmt} {Γ Γ' : Context} (typed : StmtsTyped .strict Γ body Γ') :
    Γ.SameTables Γ' := by
  induction body generalizing Γ with
  | nil =>
    cases typed
    exact ⟨_, rfl⟩
  | cons st rest ih =>
    cases typed with
    | cons first others =>
      obtain ⟨names, rfl⟩ := first.sameTables
      obtain ⟨names', rfl⟩ := ih others
      exact ⟨names', rfl⟩

theorem Tables.same {scope : Scope} {Γ Γ' : Context} (tables : Tables scope Γ) (same : Γ.SameTables Γ') :
    Tables scope Γ' := by
  obtain ⟨names, rfl⟩ := same
  exact ⟨tables.functions, tables.structs⟩

namespace Agrees

variable {Γ Γ' : Context} {s s' : FunctionState}

/-- Blocks are created, placed and entered. -/
theorem blocks (agrees : Agrees Γ s) {b : FunctionBuilder} (grows : s.function.Grows b)
    (typed : b.Typed s.module.module) : Agrees Γ { s with function := b } :=
  agrees.keep grows rfl (.refl _) typed

theorem terminate (ready : Ready s) (agrees : Agrees Γ s) {t : Terminator}
    (returns : ∀ {value}, t = .ret (some value) → value.ty = .ofSource Γ.returns) :
    Agrees Γ { s with function := s.function.terminate t } :=
  agrees.blocks (ready.sound.laid.grows_terminate t)
    (agrees.code.terminate ready.sound.laid fun ret => (returns ret).trans agrees.returns.symm)

theorem goOnIn (agrees : Agrees Γ s) (id : Nat) : Agrees Γ (Lower.goOnIn s id) :=
  agrees.blocks ((FunctionBuilder.Grows.append _ _).trans (.switchTo _ _)) ((agrees.code.append id).switchTo id)

theorem joined (ready : Ready s) (agrees : Agrees Γ s) (merge : Nat) : Agrees Γ (Lower.joined s merge) := by
  unfold Lower.joined
  split
  · exact agrees
  · exact agrees.terminate ready nofun

theorem inBody (ready : Ready s) (agrees : Agrees Γ s) (test : Nat) (cond : Ir.Value) :
    Agrees Γ (Lower.inBody s test cond) := by
  have chosen := agrees.terminate ready (t := .condBr cond (test + 1) (test + 2)) nofun
  exact chosen.blocks (.switchTo _ _) (chosen.code.switchTo _)

theorem enterLoop (ready : Ready s) (agrees : Agrees Γ s) : Agrees Γ { s with function := s.function.enterLoop } :=
  agrees.blocks ready.sound.enterLoop.track.grows (agrees.code.enterLoop ready.sound.laid)

theorem enterBranch (ready : Ready s) (agrees : Agrees Γ s) {cond : Ir.Value} (available : s.function.Available cond)
    (bit : cond.ty = .int 1) : Agrees Γ { s with function := s.function.enterBranch cond } :=
  agrees.blocks (ready.sound.enterBranch available bit).track.grows (agrees.code.enterBranch ready.sound.laid cond)

theorem bindLocal (agrees : Agrees Γ s) {name : String} {slot : Ir.Value} {ty : Ty}
    (fits : Fits s.function .address ty ⟨slot, ty⟩) :
    Agrees (Γ.bind name ty) { s with locals := s.locals.insert name ⟨slot, ty⟩ } where
  names other := by
    simp only [NameMap.get?_insert, Context.bind]
    split
    · rfl
    · exact agrees.names other
  slots found := by
    rw [NameMap.get?_insert] at found
    split at found
    · cases found
      exact fits
    · exact agrees.slots found
  functions := agrees.functions
  structs := agrees.structs
  returns := agrees.returns
  code := agrees.code

/-- The names that were known before a block are known again after it. -/
theorem restore (agrees : Agrees Γ s) (grows : s.function.Grows s'.function) (inner : Agrees Γ' s')
    (same : Γ.SameTables Γ') : Agrees Γ { s' with locals := s.locals } := by
  obtain ⟨names, rfl⟩ := same
  exact {
    names := agrees.names
    slots := fun found => (agrees.slots found).grow grows
    functions := inner.functions
    structs := inner.structs
    returns := inner.returns
    code := inner.code }

end Agrees

namespace Lower

variable {scope : Scope} {Γ : Context} {c : Checker} {s : FunctionState} {blame : LoweringError → Prop}

theorem gives_condition (tables : Tables scope Γ) {e : Expr} {width : Nat} (typed : HasType .strict Γ e (.int width))
    (ready : Ready s) (agrees : Agrees Γ s) :
    Gives (condition scope e) s Γ (fun _ _ => True) (Visit.Origin scope ⟨.condition e, c, s⟩) := by
  simp only [Gives, condition, wp_bind]
  refine (Gives.value ready (gives_expr tables e .value typed (by rintro ⟨⟩) ready agrees) .tested).mono ?_
  rintro result s₁ ⟨-, first, agrees₁, fits⟩
  have type : result.value.ty = .int width := fits.value
  split
  · exact ⟨agrees₁, trivial⟩
  · rename_i other _ same
    have typed : ∀ dest : Reg, (Instruction.icmp dest .ne result.value (.int 0 other)).Typed s₁.module.module :=
      fun _ => ⟨same, .inr ⟨other, same⟩⟩
    exact ⟨agrees₁.define (first.ready ready) (f := (.icmp · .ne result.value (.int 0 other))) rfl (typed _) rfl, trivial⟩
  · rename_i different
    exact absurd type (different width)

/-- What the parts of a loop keep, the loop keeps. -/
theorem gives_loop {test : Expr} {body step : Lower Unit} (ready : Ready s)
    (testRun : Gives (condition scope test) { s with function := s.function.enterLoop } Γ (fun _ _ => True) blame)
    (bodyRun : ∀ {cond s₁}, condition scope test { s with function := s.function.enterLoop } = .ok cond s₁ →
      Ready (inBody s₁ s.function.arena.length cond) → Agrees Γ (inBody s₁ s.function.arena.length cond) →
      Gives body (inBody s₁ s.function.arena.length cond) Γ (fun _ s₂ => Ready s₂) blame)
    (stepRun : ∀ {cond s₁ s₂}, condition scope test { s with function := s.function.enterLoop } = .ok cond s₁ →
      body (inBody s₁ s.function.arena.length cond) = .ok () s₂ → s₂.function.isTerminated = false → Ready s₂ →
      Agrees Γ s₂ → Gives step s₂ Γ (fun _ s₃ => Ready s₃) blame) :
    Gives (loop scope test body step) s Γ (fun _ _ => True) blame := by
  rw [Gives, wp_loop rfl]
  have atTest := ready.track ready.sound.enterLoop.track
  refine ((wp_self.and (makes_condition scope test atTest)).and testRun).imp ?_ fun _ _ failed => failed.2
  rintro cond s₁ ⟨⟨ran, ⟨_, tested⟩, bit⟩, agrees₁, -⟩
  obtain ⟨ready₂, -, -⟩ := inBody_track ready tested bit
  have agrees₂ := agrees₁.inBody (tested.ready atTest) s.function.arena.length cond
  refine (wp_self.and (bodyRun ran ready₂ agrees₂)).imp ?_ fun _ _ failed => failed.2
  rintro _ s₃ ⟨done, agrees₃, ready₃⟩
  split
  · exact ⟨agrees₃.goOnIn _, trivial⟩
  · rename_i reached
    refine (stepRun ran done (Bool.eq_false_iff.mpr reached) ready₃ agrees₃).mono ?_
    rintro _ s₄ ⟨agrees₄, ready₄⟩
    exact ⟨(agrees₄.terminate ready₄ (t := .br _) (by rintro _ ⟨⟩)).goOnIn _, trivial⟩

variable {s' : FunctionState}

/-- The typing and the shape of a statement or a block. -/
theorem Gives.passing {x : Lower Unit} {post : Unit → FunctionState → Prop} {P : FunctionState → Prop}
    (run : Gives x s Γ post blame) (passes : Wp x s (fun _ s' => Passes s s' ∧ P s') fun _ _ => True) :
    Wp x s (fun _ s' => x s = .ok () s' ∧ Passes s s' ∧ Agrees Γ s') fun e s' =>
      s'.function.Typed s'.module.module ∧ blame e :=
  (wp_self.and (passes.and run)).imp (fun _ _ ⟨ran, ⟨passed, _⟩, agrees, _⟩ => ⟨ran, passed, agrees⟩) fun _ _ failed =>
    failed.2.2

mutual

theorem gives_stmt : (st : Stmt) → {Γ Γ' : Context} → {s : FunctionState} → {c : Checker} → Tables scope Γ →
    StmtTyped .strict Γ st Γ' → Ready s → Agrees Γ s →
    Gives (stmt scope true st) s Γ' (fun _ _ => True) (Visit.Origin scope ⟨.stmt st, c, s⟩)
  | .letIn _ name ty none, _, _, s, c, tables, .declare, ready, agrees => by
    simp only [Gives, stmt, wp_bind, wp_build, wp_bindLocal]
    exact ⟨(agrees.alloca ready _).bindLocal (fits_alloca ready ty), trivial⟩
  | .letIn _ name ty (some e), _, _, s, c, tables, .initialise typed, ready, agrees => by
    simp only [Gives, stmt, wp_bind, wp_build, wp_write, wp_bindLocal]
    have slot := ready.alloca (.ofSource ty)
    have ready₁ := slot.ready ready
    refine (Gives.value ready₁ (gives_expr tables e .value typed nofun ready₁ (agrees.alloca ready _)) .initialised).mono
      fun result s₁ ⟨_, first, agrees₁, fits⟩ => ?_
    have place := (fits_alloca ready ty).grow first.straight.grows
    have ready₂ := first.ready ready₁
    have stored := agrees₁.store ready₂ ((place.address rfl).storeTyped fits.value)
    exact ⟨stored.bindLocal (place.grow (ready₂.sound.laid.grows_emit rfl)), trivial⟩
  | .ret _ none, _, _, s, c, tables, .ret, ready, agrees => ⟨agrees.terminate ready nofun, trivial⟩
  | .ret _ (some e), _, _, s, c, tables, .retValue typed, ready, agrees => by
    simp only [Gives, stmt, wp_bind, wp_terminate]
    refine (Gives.value ready (gives_expr tables e .value typed nofun ready agrees) .returned).mono
      fun result s₁ ⟨_, first, agrees₁, fits⟩ => ⟨agrees₁.terminate (first.ready ready) fun ret => ?_, trivial⟩
    cases ret
    exact fits.value
  | .cond _ chain, Γ, _, s, c, tables, .cond typed, ready, agrees => by
    simp only [Gives, stmt, wp_bind, wp_build, wp_continueIn, FunctionBuilder.create_fst]
    have track := (FunctionBuilder.Track.start ready.sound).create "if.end"
    have idle := FunctionBuilder.Idle.created ready.sound.laid "if.end"
    have agrees₁ := agrees.blocks (.create _ "if.end") (agrees.code.create "if.end")
    refine ((gives_ifChain chain tables typed (ready.track track) idle.known agrees₁).inside .branches id).mono ?_
    exact fun _ s₁ ⟨agrees₂, _⟩ => ⟨agrees₂.goOnIn _, trivial⟩
  | .while _ test body, Γ, _, s, c, tables, .while tested typed, ready, agrees => by
    cases typed.strict_eq
    have atTest := ready.track ready.sound.enterLoop.track
    have agrees₁ := agrees.enterLoop ready
    simp only [stmt]
    refine gives_loop ready ((gives_condition tables tested atTest agrees₁).inside .whileTest error_discard)
      (fun ran ready agrees => ?_) fun _ _ _ ready agrees => ⟨agrees, ready⟩
    have filled := passes_block scope true body ready
    exact (((gives_block body tables typed ready agrees).inside (.whileBody ran) id).passing filled).mono
      fun _ _ ⟨_, passed, agrees⟩ => ⟨agrees, passed.ready⟩
  | .for _ init test step body, Γ, _, s, c, tables, .for started tested stepped typed, ready, agrees => by
    cases typed.strict_eq
    simp only [Gives, stmt, wp_inScope, wp_bind]
    refine (((gives_stmt init tables started ready agrees).inside .forInit id).passing
      (passes_stmt scope true init ready)).mono fun _ s₁ ⟨ran, first, agrees₁⟩ => ?_
    have ready₁ := first.ready
    have tables₁ := tables.same started.sameTables
    have atTest := ready₁.track ready₁.sound.enterLoop.track
    have passes := passes_loop scope test ready₁
      (fun ready => (passes_block scope true body ready).mono fun _ _ => And.left) (passes_evaluate scope step)
    refine ((gives_loop ready₁ ((gives_condition tables₁ tested atTest (agrees₁.enterLoop ready₁)).inside
      (.forTest ran) error_discard) (fun ran' ready agrees => ?_) fun ran' done reached ready agrees => ?_).passing
      passes).mono fun _ s₂ ⟨_, second, agrees₂⟩ => ?_
    · have filled := passes_block scope true body ready
      exact (((gives_block body tables₁ typed ready agrees).inside (.forBody ran ran') id).passing filled).mono
        fun _ _ ⟨_, passed, agrees⟩ => ⟨agrees, passed.ready⟩
    · simp only [evaluate, Gives, wp_bind, wp_pure]
      exact (((gives_expr tables₁ step .value stepped nofun ready agrees).inside (.forStep ran ran' done reached)
        error_discard).along (makes_expr scope .value step ready)).mono
        fun _ _ ⟨_, yields, agrees, _⟩ => ⟨agrees, yields.ready ready⟩
    · exact ⟨agrees.restore (first.trans second).advances.grows agrees₂ started.sameTables, trivial⟩
  | .expr e, _, _, s, c, tables, .expr typed, ready, agrees => by
    simp only [Gives, stmt, evaluate, wp_bind, wp_pure]
    exact ((gives_expr tables e .value typed nofun ready agrees).inside .evaluated error_discard).mono
      fun _ _ ⟨agrees, _⟩ => ⟨agrees, trivial⟩
termination_by structural st => st

theorem gives_ifChain : (chain : IfChain) → {Γ Γ' : Context} → {s : FunctionState} → {c : Checker} → {merge : Nat} →
    Tables scope Γ → ChainTyped .strict Γ chain Γ' → Ready s → merge < s.function.arena.length → Agrees Γ s →
    Gives (ifChain scope true merge chain) s Γ' (fun _ _ => True) (Visit.Origin scope ⟨.chain merge chain, c, s⟩)
  | .branch test body rest, Γ, _, s, c, merge, tables, .branch tested typed others, ready, known, agrees => by
    cases typed.strict_eq
    rw [Gives, wp_ifBranch]
    refine ((wp_self.and (makes_condition scope test ready)).and
      ((gives_condition tables tested ready agrees).inside .branchTest error_discard)).imp ?_ fun _ _ failed => failed.2
    intro cond s₁ ⟨⟨ran, ⟨_, tested⟩, bit⟩, agrees₁, _⟩
    have ready₁ := tested.ready ready
    have available := tested.available _ (List.mem_singleton_self _)
    have inBranch := ready₁.track (ready₁.sound.enterBranch available bit).track
    have agrees₂ := agrees₁.enterBranch ready₁ available bit
    refine (((gives_block body tables typed inBranch agrees₂).inside (.branchBody ran) id).passing
      (passes_block scope true body inBranch)).mono fun _ s₂ ⟨done, filled, agrees₂⟩ => ?_
    have known₁ := Nat.lt_of_lt_of_le known tested.straight.grows.size
    have next := passes_branch ready₁ available bit known₁ filled
    have agrees₃ := (agrees₂.joined filled.ready merge).goOnIn (s₁.function.arena.length + 1)
    have known₃ := Nat.lt_of_lt_of_le known₁ next.advances.grows.size
    exact (gives_ifChain rest tables others next.ready known₃ agrees₃).inside (.laterBranches ran done) id
  | .otherwise body, Γ, _, s, c, merge, tables, .otherwise typed, ready, known, agrees => by
    simp only [Gives, ifChain, wp_bind, wp_branchTo]
    exact (((gives_block body tables typed ready agrees).inside .otherwise id).passing
      (passes_block scope true body ready)).mono
      fun _ s₁ ⟨_, passed, agrees₁⟩ => ⟨agrees₁.joined passed.ready merge, trivial⟩
  | .done, _, _, s, c, merge, tables, .done, ready, known, agrees => by
    simp only [Gives, ifChain, wp_branchTo]
    exact ⟨agrees.joined ready merge, trivial⟩
termination_by structural chain => chain

theorem gives_block : (b : Block) → {Γ Γ' : Context} → {s : FunctionState} → {c : Checker} → Tables scope Γ →
    BlockTyped .strict Γ b Γ' → Ready s → Agrees Γ s →
    Gives (block scope true b) s Γ' (fun _ _ => True) (Visit.Origin scope ⟨.block b, c, s⟩)
  | ⟨body, _⟩, Γ, _, s, c, tables, .block typed, ready, agrees => by
    simp only [Gives, block, wp_inScope]
    exact (((gives_stmts body tables typed ready agrees).inside .inside id).passing
      (passes_stmts scope true body ready)).mono
      fun _ s₁ ⟨_, passed, agrees₁⟩ => ⟨agrees.restore passed.advances.grows agrees₁ typed.sameTables, trivial⟩
termination_by structural b => b

theorem gives_stmts : (body : List Stmt) → {Γ Γ' : Context} → {s : FunctionState} → {c : Checker} → Tables scope Γ →
    StmtsTyped .strict Γ body Γ' → Ready s → Agrees Γ s →
    Gives (stmts scope true body) s Γ' (fun _ _ => True) (Visit.Origin scope ⟨.stmts body, c, s⟩)
  | [], _, _, s, c, tables, .nil, ready, agrees => ⟨agrees, trivial⟩
  | st :: rest, _, _, s, c, tables, .cons first others, ready, agrees => by
    simp only [Gives, stmts, wp_bind]
    refine (((gives_stmt st tables first ready agrees).inside .first id).passing
      (passes_stmt scope true st ready)).mono fun _ s₁ ⟨done, passed, agrees₁⟩ => ?_
    exact (gives_stmts rest (tables.same first.sameTables) others passed.ready agrees₁).inside (.later done) id
termination_by structural body => body

end

theorem agrees_storedParam (p : Param) (index : Nat) (ready : Ready s) (agrees : Agrees Γ s) :
    Agrees (Γ.bind p.name p.ty) (storedParam s index p) := by
  have place := fits_alloca ready p.ty
  have ready₁ := (ready.alloca (.ofSource p.ty)).ready ready
  have typed : (Value.arg index (.ofSource p.ty)).ty = .ofSource p.ty := rfl
  have stored := (agrees.alloca ready (.ofSource p.ty)).store ready₁ ((place.address rfl).storeTyped typed)
  exact stored.bindLocal (place.grow (ready₁.sound.laid.grows_emit rfl))

/-- Parameters are bound from left to right, and storing them never fails. -/
theorem gives_params : (ps : List Param) → (index : Nat) → {Γ : Context} → {s : FunctionState} → Ready s → Agrees Γ s →
    index + ps.length ≤ s.function.params.length →
    Wp (params index ps) s (fun _ s' => Agrees (ps.foldl (fun Γ p => Γ.bind p.name p.ty) Γ) s') fun _ _ => False
  | [], _, _, _, _, agrees, _ => agrees
  | p :: rest, index, Γ, s, ready, agrees, bound => by
    rw [List.length_cons] at bound
    have first := passes_storedParam p ready (by omega : index < s.function.params.length)
    rw [wp_params_cons]
    refine gives_params rest (index + 1) first.ready (agrees_storedParam p index ready agrees) ?_
    rw [first.advances.grows.params]
    omega

theorem agrees_entered {m : ModuleBuilder} (declares : Declares Γ m.module) (f : FunctionDecl) :
    Agrees { Γ with names := fun _ => none, returns := f.signature.returns } (entered m f) where
  functions := declares.functions
  structs := declares.structs
  names _ := rfl
  slots := nofun
  returns := rfl
  code := {
    computes := fun member => by
      rw [code_entered] at member
      cases member
    stores := fun member => by
      rw [code_entered] at member
      cases member
    returns := fun exit => by
      rw [exit_entered] at exit
      cases exit
    entry := fun member => by
      rw [instructions_entered] at member
      cases member }

/-- The names of a body start out as the parameters. -/
theorem gives_entered {m : ModuleBuilder} (declares : Declares Γ m.module) (f : FunctionDecl) :
    ∃ s, params 0 f.signature.params (entered m f) = .ok () s ∧ Ready s ∧ Agrees (Γ.enter f.signature) s := by
  have ready := ready_entered m f
  have bound : 0 + f.signature.params.length ≤ (entered m f).function.params.length := by
    rw [params_entered]
    simp [Signature.irParams]
  have run := (wp_self.and (passes_params f.signature.params 0 ready bound)).and
    (gives_params f.signature.params 0 ready (agrees_entered declares f) bound)
  unfold Wp at run
  cases result : params 0 f.signature.params (entered m f) with
  | ok _ s =>
    rw [result] at run
    obtain ⟨⟨-, passes⟩, agrees⟩ := run
    exact ⟨s, rfl, passes.ready, agrees⟩
  | error e s =>
    rw [result] at run
    exact absurd run.2 id

/-- A body is lowered to well-typed code, and fails only if its block does. -/
theorem gives_body {m : ModuleBuilder} {f : FunctionDecl} {Γ' : Context} (tables : Tables scope (Γ.enter f.signature))
    (typed : BlockTyped .strict (Γ.enter f.signature) f.body Γ')
    (stored : params 0 f.signature.params (entered m f) = .ok () s) (ready : Ready s)
    (agrees : Agrees (Γ.enter f.signature) s) :
    Wp (body scope true f) (startOf m f) (fun _ s' => Agrees (Γ.enter f.signature) s') fun e s' =>
      s'.function.Typed s'.module.module ∧ Visit.Fails scope ⟨.block f.body, c, s⟩ e := by
  cases typed.strict_eq
  rw [wp_body, Wp, stored]
  have run := (wp_self.and (passes_block scope true f.body ready)).and (gives_block f.body tables typed ready agrees (c := c))
  refine run.imp ?_ ?_
  · rintro _ s₁ ⟨⟨-, passed, -⟩, agrees₁, -⟩
    unfold closed
    split
    · exact agrees₁
    · exact agrees₁.terminate passed.ready (by split <;> rintro _ ⟨⟩)
  · rintro e s₁ ⟨⟨failed, -⟩, code, -⟩
    exact ⟨code, s₁, failed⟩

end Lower

end StructLang
