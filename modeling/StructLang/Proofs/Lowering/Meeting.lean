import StructLang.Proofs.Lowering.Bodies
import StructLang.Proofs.Typing.Decision

namespace StructLang

open Ir Lower

/-- The parts that are made up in the same way whether or not blocks have scopes of their own, field values of struct
literals apart. -/
def Part.shared : Part → Bool
  | .inits .. | .stmt (.for ..) | .chain _ (.branch ..) | .stmts _ => false
  | _ => true

def Part.Accepted (o : Strictness) (Γ : Context) : Part → Prop
  | .expr _ e => ∃ ty, HasType o Γ e ty
  | .args es => ∃ ps, ArgsTyped o Γ ps es
  | .inits struct _ fields => ∃ d, Γ.structs struct = some d ∧ (o.structLiterals = true → InitsTyped o Γ d fields)
  | .condition e => ∃ width, HasType o Γ e (.int width)
  | .stmt st => ∃ Γ', StmtTyped o Γ st Γ'
  | .chain _ rest => ∃ Γ', ChainTyped o Γ rest Γ'
  | .block body => ∃ Γ', BlockTyped o Γ body Γ'
  | .stmts body => ∃ Γ', StmtsTyped o Γ body Γ'

def Part.Placed (b : FunctionBuilder) : Part → Prop
  | .expr want e => want = .address → e.hasStorage = true
  | .inits _ slot _ => b.Available slot
  | .chain merge _ => merge < b.arena.length
  | _ => True

namespace Part.Accepted

variable {o : Strictness} {Γ : Context} {span : Span} {init st : Stmt} {test step : Expr} {body : Block}

theorem of_while (accepted : (Part.stmt (.while span test body)).Accepted o Γ) :
    (Part.condition test).Accepted o Γ ∧ (Part.block body).Accepted o Γ := by
  obtain ⟨_, typed⟩ := accepted
  cases typed with
  | «while» tested typed => exact ⟨⟨_, tested⟩, _, typed⟩

theorem of_for (accepted : (Part.stmt (.for span init test step body)).Accepted o Γ) :
    ∃ Γ₁, StmtTyped o Γ init Γ₁ ∧ (Part.condition test).Accepted o Γ₁ ∧ (Part.expr .value step).Accepted o Γ₁ ∧
      (Part.block body).Accepted o Γ₁ := by
  obtain ⟨_, typed⟩ := accepted
  cases typed with
  | «for» started tested stepped typed => exact ⟨_, started, ⟨_, tested⟩, ⟨_, stepped⟩, _, typed⟩

theorem of_branch {merge : Nat} {rest : IfChain} (accepted : (Part.chain merge (.branch test body rest)).Accepted o Γ) :
    (Part.condition test).Accepted o Γ ∧ ∃ Γ₁, BlockTyped o Γ body Γ₁ ∧ (Part.chain merge rest).Accepted o Γ₁ := by
  obtain ⟨_, typed⟩ := accepted
  cases typed with
  | branch tested typed others => exact ⟨⟨_, tested⟩, _, typed, _, others⟩

theorem of_cons {rest : List Stmt} (accepted : (Part.stmts (st :: rest)).Accepted o Γ) :
    ∃ Γ₁, StmtTyped o Γ st Γ₁ ∧ (Part.stmts rest).Accepted o Γ₁ := by
  obtain ⟨_, typed⟩ := accepted
  cases typed with
  | cons first rest => exact ⟨_, first, _, rest⟩

end Part.Accepted

namespace Visit

structure Valid (scope : Scope) (v : Visit) : Prop where
  strict : v.checker.options = .strict
  tables : Tables scope v.checker.scope.context
  ready : Ready v.state
  agrees : Agrees v.checker.scope.context v.state
  typed : v.part.Accepted .strict v.checker.scope.context
  placed : v.part.Placed v.state.function

section Shared

variable {scope : Scope} {v w : Visit}

/-- The checker sees the parts of a shared part in one context. -/
theorem Sub.sameContext (shared : v.part.shared = true) (sub : v.Sub scope w) :
    w.checker.options = v.checker.options ∧ w.checker.scope.context = v.checker.scope.context := by
  cases sub with
  | @inside _ _ c => exact ⟨c.options_openBlock, c.context_openBlock⟩
  | _ => first | exact ⟨rfl, rfl⟩ | cases shared

theorem Sub.accepted {o : Strictness} {Γ : Context} (shared : v.part.shared = true) (sub : v.Sub scope w)
    (accepted : v.part.Accepted o Γ) : w.part.Accepted o Γ := by
  cases sub with
  | assignValue =>
    obtain ⟨ty, typed⟩ := accepted
    exact ⟨ty, (HasType.assign_iff.mp typed).2⟩
  | assignTarget =>
    obtain ⟨ty, typed⟩ := accepted
    exact ⟨ty, (HasType.assign_iff.mp typed).1⟩
  | left =>
    obtain ⟨ty, typed⟩ := accepted
    obtain ⟨operand, left, -, -⟩ := HasType.binary_iff.mp typed
    exact ⟨operand, left⟩
  | right =>
    obtain ⟨ty, typed⟩ := accepted
    obtain ⟨operand, -, right, -⟩ := HasType.binary_iff.mp typed
    exact ⟨operand, right⟩
  | referred =>
    obtain ⟨ty, typed⟩ := accepted
    obtain ⟨inner, typed, -⟩ := HasType.ref_iff.mp typed
    exact ⟨inner, typed⟩
  | dereferenced =>
    obtain ⟨ty, typed⟩ := accepted
    exact ⟨_, HasType.deref_iff.mp typed⟩
  | negated =>
    obtain ⟨ty, typed⟩ := accepted
    exact ⟨ty, HasType.neg_iff.mp typed⟩
  | passed =>
    obtain ⟨ty, typed⟩ := accepted
    obtain ⟨f, -, typed, -⟩ := HasType.call_iff.mp typed
    exact ⟨f.params, typed⟩
  | base =>
    obtain ⟨ty, typed⟩ := accepted
    obtain ⟨struct, d, index, decl, inner, -⟩ := HasType.field_iff.mp typed
    exact ⟨_, inner⟩
  | indexed =>
    obtain ⟨ty, typed⟩ := accepted
    exact ⟨_, (HasType.index_iff.mp typed).1⟩
  | offset =>
    obtain ⟨ty, typed⟩ := accepted
    obtain ⟨-, width, position⟩ := HasType.index_iff.mp typed
    exact ⟨_, position⟩
  | literal =>
    obtain ⟨ty, typed⟩ := accepted
    obtain ⟨d, known, typed, -⟩ := HasType.struct_iff.mp typed
    exact ⟨d, known, typed⟩
  | firstArg =>
    obtain ⟨ps, typed⟩ := accepted
    obtain ⟨p, others, -, first, -⟩ := ArgsTyped.cons_iff.mp typed
    exact ⟨_, first⟩
  | laterArgs =>
    obtain ⟨ps, typed⟩ := accepted
    obtain ⟨p, others, -, -, rest⟩ := ArgsTyped.cons_iff.mp typed
    exact ⟨others, rest⟩
  | tested =>
    obtain ⟨width, typed⟩ := accepted
    exact ⟨_, typed⟩
  | initialised =>
    obtain ⟨_, typed⟩ := accepted
    cases typed with
    | initialise typed => exact ⟨_, typed⟩
  | returned =>
    obtain ⟨_, typed⟩ := accepted
    cases typed with
    | retValue typed => exact ⟨_, typed⟩
  | branches =>
    obtain ⟨_, typed⟩ := accepted
    cases typed with
    | cond typed => exact ⟨_, typed⟩
  | whileTest => exact accepted.of_while.1
  | whileBody => exact accepted.of_while.2
  | evaluated =>
    obtain ⟨_, typed⟩ := accepted
    cases typed with
    | expr typed => exact ⟨_, typed⟩
  | otherwise =>
    obtain ⟨_, typed⟩ := accepted
    cases typed with
    | otherwise typed => exact ⟨_, typed⟩
  | inside =>
    obtain ⟨_, typed⟩ := accepted
    cases typed with
    | block typed => exact ⟨_, typed⟩
  | _ => cases shared

end Shared

variable {scope : Scope} {c c' : Checker} {s s' : FunctionState} {p q : Part}

namespace Valid

theorem after (valid : Valid scope ⟨p, c, s⟩) (ready : Ready s') (agrees : Agrees c.scope.context s')
    (typed : q.Accepted .strict c.scope.context) (placed : q.Placed s'.function) : Valid scope ⟨q, c, s'⟩ :=
  ⟨valid.strict, valid.tables, ready, agrees, typed, placed⟩

theorem same (valid : Valid scope ⟨p, c, s⟩) (typed : q.Accepted .strict c.scope.context) (placed : q.Placed s.function) :
    Valid scope ⟨q, c, s⟩ :=
  valid.after valid.ready valid.agrees typed placed

/-- The checker has looked at something that leaves the context as it is. -/
theorem checked (valid : Valid scope ⟨p, c, s⟩) (options : c'.options = c.options)
    (context : c'.scope.context = c.scope.context) : Valid scope ⟨p, c', s⟩ := by
  obtain ⟨strict, tables, ready, agrees, typed, placed⟩ := valid
  refine ⟨options.trans strict, ?_, ready, ?_, ?_, placed⟩ <;> simp only [context] <;> assumption

theorem evaluated {e : Expr} {ty : Ty} {typed : Typed} (valid : Valid scope ⟨p, c, s⟩)
    (hasType : HasType .strict c.scope.context e ty) (evaluated : valueOf e (expr scope .value e) s = .ok typed s') :
    Ready s' ∧ Agrees c.scope.context s' := by
  have given := gives_expr valid.tables e .value hasType (by rintro ⟨⟩) valid.ready valid.agrees (c := c)
  have run := given.valueOf (e := e) .void
  obtain ⟨-, first, agrees, -⟩ := (run.along (makes_expr scope .value e valid.ready).valueOf).ok evaluated
  exact ⟨first.ready valid.ready, agrees⟩

theorem tested {e : Expr} {cond : Ir.Value} (valid : Valid scope ⟨.condition e, c, s⟩)
    (tested : Lower.condition scope e s = .ok cond s') :
    (∃ emits, Yields s emits [cond] s') ∧ cond.ty = .int 1 ∧ Agrees c.scope.context s' := by
  obtain ⟨_, hasType⟩ := valid.typed
  obtain ⟨yields, bit⟩ := (makes_condition scope e valid.ready).ok tested
  exact ⟨yields, bit, ((gives_condition valid.tables hasType valid.ready valid.agrees (c := c)).ok tested).1⟩

/-- After a statement the checker knows what the rules say, and so does lowering. -/
theorem executed {st : Stmt} {Γ' : Context} (valid : Valid scope ⟨p, c, s⟩)
    (hasType : StmtTyped .strict c.scope.context st Γ') (executed : stmt scope true st s = .ok () s')
    (typed : q.Accepted .strict Γ') (placed : q.Placed s'.function) : Valid scope ⟨q, (c.stmt st).2, s'⟩ := by
  have passes := ((passes_stmt scope true st valid.ready).ok executed).1
  have agrees := ((gives_stmt st valid.tables hasType valid.ready valid.agrees (c := c)).ok executed).1
  have context := ((c.stmt_quiet_iff st Γ').mpr (valid.strict.symm ▸ hasType)).2
  refine ⟨(c.advance_stmt st).options.trans valid.strict, ?_, passes.ready, ?_, ?_, placed⟩ <;> simp only [context]
  · exact valid.tables.same hasType.sameTables
  · exact agrees
  · exact typed

theorem filled {b : Block} (valid : Valid scope ⟨.block b, c, s⟩) (filled : block scope true b s = .ok () s') :
    Passes s s' ∧ Agrees c.scope.context s' ∧ (c.block b).2.scope.context = c.scope.context := by
  obtain ⟨Γ', hasType⟩ := valid.typed
  have context := ((c.block_quiet_iff b Γ').mpr (valid.strict.symm ▸ hasType)).2
  cases hasType.strict_eq
  exact ⟨((passes_block scope true b valid.ready).ok filled).1,
    ((gives_block b valid.tables hasType valid.ready valid.agrees (c := c)).ok filled).1, context⟩

theorem openBlock (valid : Valid scope ⟨p, c, s⟩) : Valid scope ⟨p, c.openBlock, s⟩ :=
  valid.checked c.options_openBlock c.context_openBlock

/-- In the test of a loop. -/
theorem atTest {test : Expr} (valid : Valid scope ⟨.condition test, c, s⟩) :
    Valid scope ⟨.condition test, c, { s with function := s.function.enterLoop }⟩ :=
  valid.after (valid.ready.track valid.ready.sound.enterLoop.track) (valid.agrees.enterLoop valid.ready) valid.typed trivial

/-- In the body of a loop. -/
theorem inBody {test : Expr} {cond : Ir.Value} {body : Block} (valid : Valid scope ⟨.condition test, c, s⟩)
    (ran : Lower.condition scope test { s with function := s.function.enterLoop } = .ok cond s')
    (typed : (Part.block body).Accepted .strict c.scope.context) :
    Valid scope ⟨.block body, c, Lower.inBody s' s.function.arena.length cond⟩ := by
  obtain ⟨⟨_, yields⟩, bit, agrees⟩ := valid.atTest.tested ran
  obtain ⟨ready, -, -⟩ := inBody_track valid.ready yields bit
  exact valid.after ready (agrees.inBody (yields.ready valid.atTest.ready) _ _) typed trivial

/-- Around a loop that starts with a statement of its own. -/
theorem inFor {init : Stmt} {test step : Expr} {body : Block} {span : Span}
    (valid : Valid scope ⟨.stmt (.for span init test step body), c, s⟩) (started : stmt scope true init s = .ok () s') :
    Valid scope ⟨.condition test, (c.openBlock.stmt init).2, s'⟩ ∧
      (Part.expr .value step).Accepted .strict (c.openBlock.stmt init).2.scope.context ∧
      (Part.block body).Accepted .strict (c.openBlock.stmt init).2.scope.context := by
  obtain ⟨Γ, typed, tested, others⟩ := valid.typed.of_for
  have typed : StmtTyped .strict c.openBlock.scope.context init Γ := c.context_openBlock ▸ typed
  have context := ((c.openBlock.stmt_quiet_iff init Γ).mpr (valid.openBlock.strict.symm ▸ typed)).2
  exact ⟨valid.openBlock.executed typed started tested trivial, context ▸ others⟩

/-- In a branch of a conditional. -/
theorem inBranch {merge : Nat} {test : Expr} {body : Block} {rest : IfChain} {cond : Ir.Value}
    (valid : Valid scope ⟨.chain merge (.branch test body rest), c, s⟩)
    (ran : Lower.condition scope test s = .ok cond s') :
    Valid scope ⟨.block body, c.condition test, { s' with function := s'.function.enterBranch cond }⟩ ∧
      ∀ s₂, block scope true body { s' with function := s'.function.enterBranch cond } = .ok () s₂ →
        Valid scope ⟨.chain merge rest, ((c.condition test).block body).2,
          goOnIn (Lower.joined s₂ merge) (s'.function.arena.length + 1)⟩ := by
  obtain ⟨tested, Γ, typed, others⟩ := valid.typed.of_branch
  have atTest : Valid scope ⟨.condition test, c, s⟩ := valid.same tested trivial
  obtain ⟨⟨_, yields⟩, bit, agrees⟩ := atTest.tested ran
  have ready := yields.ready valid.ready
  have available := yields.available _ (List.mem_singleton_self _)
  have inside : Valid scope ⟨.block body, c, { s' with function := s'.function.enterBranch cond }⟩ :=
    valid.after (ready.track (ready.sound.enterBranch available bit).track) (agrees.enterBranch ready available bit)
      ⟨_, typed⟩ trivial
  have inside' : Valid scope ⟨.block body, c.condition test, _⟩ := inside.checked rfl rfl
  refine ⟨inside', fun s₂ done => ?_⟩
  obtain ⟨passes, agrees', context⟩ := inside'.filled done
  have known : merge < s'.function.arena.length := Nat.lt_of_lt_of_le valid.placed yields.straight.grows.size
  have next := passes_branch ready available bit known passes
  have later : Valid scope ⟨.chain merge rest, c.condition test, _⟩ :=
    inside'.after next.ready ((agrees'.joined passes.ready merge).goOnIn _) (typed.strict_eq ▸ others)
      (Nat.lt_of_lt_of_le known next.advances.grows.size)
  exact later.checked (Checker.advance_block _ body).options context

/-- Lowering gets to the parts of a shared part knowing what it knew. -/
theorem meets {v w : Visit} (valid : v.Valid scope) (shared : v.part.shared = true) (sub : v.Sub scope w) :
    Ready w.state ∧ Agrees v.checker.scope.context w.state ∧ w.part.Placed w.state.function := by
  cases sub with
  | assignTarget evaluated =>
    obtain ⟨_, typed⟩ := valid.typed
    obtain ⟨ready, agrees⟩ := valid.evaluated (HasType.assign_iff.mp typed).2 evaluated
    exact ⟨ready, agrees, hasStorage_of_place⟩
  | right evaluated =>
    obtain ⟨_, typed⟩ := valid.typed
    obtain ⟨operand, left, -, -⟩ := HasType.binary_iff.mp typed
    obtain ⟨ready, agrees⟩ := valid.evaluated left evaluated
    exact ⟨ready, agrees, by rintro ⟨⟩⟩
  | offset evaluated =>
    obtain ⟨_, typed⟩ := valid.typed
    obtain ⟨ready, agrees⟩ := valid.evaluated (HasType.index_iff.mp typed).1 evaluated
    exact ⟨ready, agrees, by rintro ⟨⟩⟩
  | laterArgs evaluated =>
    obtain ⟨_, typed⟩ := valid.typed
    obtain ⟨p, others, -, first, -⟩ := ArgsTyped.cons_iff.mp typed
    obtain ⟨ready, agrees⟩ := valid.evaluated first evaluated
    exact ⟨ready, agrees, trivial⟩
  | @literal _ _ name =>
    have slot := valid.ready.alloca (.struct name)
    exact ⟨slot.ready valid.ready, valid.agrees.alloca valid.ready _, slot.available _ (List.mem_singleton_self _)⟩
  | initialised =>
    exact ⟨(valid.ready.alloca _).ready valid.ready, valid.agrees.alloca valid.ready _, by rintro ⟨⟩⟩
  | branches =>
    have track := (FunctionBuilder.Track.start valid.ready.sound).create "if.end"
    exact ⟨valid.ready.track track, valid.agrees.blocks (.create _ _) (valid.agrees.code.create _),
      (FunctionBuilder.Idle.created valid.ready.sound.laid "if.end").known⟩
  | @whileTest _ test _ c s =>
    have tested : Valid scope ⟨.condition test, c, s⟩ := valid.same valid.typed.of_while.1 trivial
    exact ⟨tested.atTest.ready, tested.atTest.agrees, trivial⟩
  | @whileBody _ test body c s _ _ evaluated =>
    have tested : Valid scope ⟨.condition test, c, s⟩ := valid.same valid.typed.of_while.1 trivial
    have inside := tested.inBody evaluated valid.typed.of_while.2
    exact ⟨inside.ready, inside.agrees, trivial⟩
  | assignValue | left | dereferenced | negated | indexed | firstArg | tested | returned | evaluated =>
    exact ⟨valid.ready, valid.agrees, by rintro ⟨⟩⟩
  | referred | base => exact ⟨valid.ready, valid.agrees, hasStorage_of_place⟩
  | passed | otherwise | inside => exact ⟨valid.ready, valid.agrees, trivial⟩
  | _ => cases shared

end Valid

/-- What holds of a visit holds of the visits it is made of. -/
theorem Sub.valid {v w : Visit} (sub : v.Sub scope w) (valid : v.Valid scope) : w.Valid scope := by
  cases shared : v.part.shared with
  | true =>
    obtain ⟨options, context⟩ := sub.sameContext shared
    obtain ⟨ready, agrees, placed⟩ := valid.meets shared sub
    exact ⟨options.trans valid.strict, context ▸ valid.tables, ready, context ▸ agrees,
      context ▸ sub.accepted shared valid.typed, placed⟩
  | false =>
    cases sub with
    | firstField =>
      obtain ⟨d, -, typed⟩ := valid.typed
      obtain ⟨⟨index, field, -, typed⟩, -⟩ := InitsTyped.cons_iff.mp (typed rfl)
      exact valid.same ⟨_, typed⟩ (by rintro ⟨⟩)
    | @laterFields _ _ _ rest c _ _ initialised =>
      obtain ⟨d, known, typed⟩ := valid.typed
      obtain ⟨⟨index, field, found, value⟩, typed⟩ := InitsTyped.cons_iff.mp (typed rfl)
      have run := gives_init valid.tables known _ _ rest found value valid.placed valid.ready valid.agrees (c := c)
      obtain ⟨-, one, agrees, -⟩ := (run.along (makes_init scope _ _ _ valid.ready valid.placed)).ok initialised
      exact valid.after (one.ready valid.ready) agrees ⟨d, known, fun _ => typed⟩ (one.keeps valid.ready valid.placed)
    | forInit =>
      obtain ⟨_, started, -⟩ := valid.typed.of_for
      have inside : Valid scope ⟨.stmt _, _, _⟩ := valid.same ⟨_, started⟩ trivial
      exact inside.openBlock
    | forTest started => exact (valid.inFor started).1.atTest
    | forBody started evaluated =>
      obtain ⟨atTest, -, typed⟩ := valid.inFor started
      exact (atTest.inBody evaluated typed).checked rfl rfl
    | forStep started evaluated done reached =>
      obtain ⟨atTest, stepped, typed⟩ := valid.inFor started
      have inBody := atTest.inBody evaluated typed
      obtain ⟨passes, agrees, -⟩ := inBody.filled done
      have stepped : Valid scope ⟨.expr .value _, _, _⟩ := inBody.after passes.ready agrees stepped (by rintro ⟨⟩)
      exact stepped.checked rfl rfl
    | branchTest => exact valid.same valid.typed.of_branch.1 trivial
    | branchBody evaluated => exact (valid.inBranch evaluated).1
    | laterBranches evaluated done => exact (valid.inBranch evaluated).2 _ done
    | first =>
      obtain ⟨_, first, -⟩ := valid.typed.of_cons
      exact valid.same ⟨_, first⟩ trivial
    | later done =>
      obtain ⟨_, first, rest⟩ := valid.typed.of_cons
      exact valid.executed first done rest trivial
    | _ => cases shared

theorem wp_discard {α : Type} {x : Lower α} {post : α → FunctionState → Prop}
    {fail : LoweringError → FunctionState → Prop} (run : Wp x s post fail) {P : FunctionState → Prop}
    (ok : ∀ a s', post a s' → P s') : Wp (do let _ ← x : Lower Unit) s (fun _ s' => P s') fail := by
  rw [wp_bind]
  exact run.mono ok

/-- A visited part is lowered to well-typed code, whether or not lowering fails. -/
theorem Valid.run {v : Visit} (valid : v.Valid scope) :
    Wp (v.part.run scope) v.state (fun _ s' => s'.function.Typed s'.module.module) fun e s' =>
      s'.function.Typed s'.module.module ∧ v.Origin scope e := by
  obtain ⟨part, c, s⟩ := v
  obtain ⟨-, tables, ready, agrees, typed, placed⟩ := valid
  cases part with
  | expr want e =>
    obtain ⟨ty, typed⟩ := typed
    exact wp_discard (gives_expr tables e want typed placed ready agrees) fun _ _ kept => kept.1.code
  | args es =>
    obtain ⟨ps, typed⟩ := typed
    exact wp_discard (gives_exprs tables es typed ready agrees) fun _ _ kept => kept.1.code
  | inits struct slot fields =>
    obtain ⟨d, known, typed⟩ := typed
    exact (gives_inits tables known slot fields (typed rfl) placed ready agrees).mono fun _ _ kept => kept.1.code
  | condition e =>
    obtain ⟨width, typed⟩ := typed
    exact wp_discard (gives_condition tables typed ready agrees) fun _ _ kept => kept.1.code
  | stmt st =>
    obtain ⟨Γ', typed⟩ := typed
    exact (gives_stmt st tables typed ready agrees).mono fun _ _ kept => kept.1.code
  | chain merge rest =>
    obtain ⟨Γ', typed⟩ := typed
    exact (gives_ifChain rest tables typed ready placed agrees).mono fun _ _ kept => kept.1.code
  | block b =>
    obtain ⟨Γ', typed⟩ := typed
    exact (gives_block b tables typed ready agrees).mono fun _ _ kept => kept.1.code
  | stmts body =>
    obtain ⟨Γ', typed⟩ := typed
    exact (gives_stmts body tables typed ready agrees).mono fun _ _ kept => kept.1.code

end Visit

end StructLang
