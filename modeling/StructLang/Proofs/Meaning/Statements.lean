import StructLang.Proofs.Meaning.Expressions

namespace StructLang

open Ir

/-- What is needed for the function to return the result: what follows gets there, or it has been returned. -/
def Flow.Followed (result : Option Int64) (next : Prop) : Flow → Prop
  | .next => next
  | .returned value => result = value

namespace Ir

namespace FunctionBuilder

variable {b b' : FunctionBuilder} {id : Nat}

structure StartsAt (b : FunctionBuilder) (id : Nat) : Prop where
  current : b.current = some id
  known : id < b.arena.length
  code : b.code id = []
  exit : b.exit id = none
  later : id ≠ 0

theorem StartsAt.unfinished (starts : b.StartsAt id) : b.isTerminated = false := by
  rw [isTerminated_eq _ starts.current, starts.exit]
  rfl

theorem StartsAt.target (starts : b.StartsAt id) : b.target = id := by
  rw [FunctionBuilder.target, ensureOpen_of_open _ starts.current starts.unfinished]

theorem Idle.startsAt (idle : b.Idle id) (later : id ≠ 0) : (b.switchTo id).StartsAt id :=
  ⟨rfl, idle.known, idle.code, idle.exit, later⟩

theorem InTest.startsAt (entered : b.InTest b') (laid : b.Laid) : b'.StartsAt b.arena.length where
  current := entered.current
  known := Nat.lt_of_succ_lt entered.body.known
  code := entered.code
  exit := entered.exit
  later := Nat.ne_of_gt laid.size_pos

theorem InBranch.startsAt (entered : b.InBranch b') (laid : b.Laid) : b'.StartsAt b.arena.length where
  current := entered.current
  known := Nat.lt_of_succ_lt entered.onFalse.known
  code := entered.code
  exit := entered.exit
  later := Nat.ne_of_gt laid.size_pos

end FunctionBuilder

namespace Site

variable {site : Site} {s s' : FunctionBuilder} {slots : Slots} {l : Locals} {a : Activation} {result : Option Int64}

theorem Continues.jump {id : Nat} (next : site.Continues s a result) (starts : s.StartsAt id)
    (grows : s.Grows site.builder) : site.Exits (.br id) a result := by
  have target := starts.target
  subst target
  exact next.br starts.code starts.later (Nat.lt_of_lt_of_le starts.known grows.size)

theorem Continues.choose {id : Nat} (next : site.Continues s a result) (starts : s.StartsAt id)
    (grows : s.Grows site.builder) {cond : Value} {n : Int64} (tested : cond.eval site.args a = some n)
    {onTrue onFalse : Nat} (chosen : (if n ≠ 0 then onTrue else onFalse) = id) :
    site.Exits (.condBr cond onTrue onFalse) a result := by
  have target := starts.target
  subst target
  exact next.condBr starts.code starts.later (Nat.lt_of_lt_of_le starts.known grows.size) tested chosen

/-- Creating blocks does not move the code that is being written. -/
theorem Continues.create {label : String} (next : site.Continues (s.create label).2 a result) (laid : s.Laid)
    (unfinished : s.isTerminated = false) : site.Continues s a result := by
  obtain ⟨id, current, -⟩ := laid.current
  have unfinished' := s.isTerminated_create label current
  refine next.same (laid.target_eq (laid.create label) unfinished (unfinished'.trans unfinished) rfl) ?_
  rw [FunctionBuilder.code_create]

theorem Continues.attach {label : String} (next : site.Continues (s.attach label).2 a result) (laid : s.Laid)
    (unfinished : s.isTerminated = false) : site.Continues s a result := by
  obtain ⟨id, current, -⟩ := laid.current
  have unfinished' := s.isTerminated_attach label current
  refine next.same (laid.target_eq (laid.attach label) unfinished (unfinished'.trans unfinished) ?_) ?_
  · exact FunctionBuilder.current_append _ _
  · rw [FunctionBuilder.attach, FunctionBuilder.code, FunctionBuilder.instructions_append]
    exact FunctionBuilder.code_create ..

theorem Continues.alloca (ty : Ty) (laid : s.Laid) (unfinished : s.isTerminated = false)
    (next : site.Continues (s.alloca ty).2 a result) : site.Continues s a result := by
  have stays := (laid.straight_alloca ty).stays unfinished
  exact next.same (laid.target_eq (laid.alloca ty) unfinished stays.1 stays.2) (laid.code_alloca ty _)

theorem unfinished_attach (label : String) (laid : s.Laid) (unfinished : s.isTerminated = false) :
    (s.attach label).2.isTerminated = false := by
  obtain ⟨id, current, -⟩ := laid.current
  rw [s.isTerminated_attach label current, unfinished]

theorem Continues.enterLoop (next : site.Continues s.enterLoop a result) (sound : s.Sound)
    (unfinished : s.isTerminated = false) (grows : s.enterLoop.Grows site.builder) : site.Continues s a result := by
  have laid := sound.laid
  have exits := next.jump (sound.enterLoop.startsAt laid) grows
  have unfinished₁ := unfinished_attach "loop.cond" laid unfinished
  have unfinished₂ := unfinished_attach "loop.body" (laid.attach _) unfinished₁
  have terminated := Continues.terminate (((laid.attach _).attach _).create _)
    ((FunctionBuilder.Grows.switchTo _ _).trans grows) exits
  exact ((terminated.create ((laid.attach _).attach _) unfinished₂).attach (laid.attach _) unfinished₁).attach laid unfinished

theorem Continues.enterBranch {cond : Value} (next : site.Exits (.condBr cond s.arena.length (s.arena.length + 1)) a result)
    (laid : s.Laid) (unfinished : s.isTerminated = false) (grows : (s.enterBranch cond).Grows site.builder) :
    site.Continues s a result := by
  have unfinished₁ := unfinished_attach "if.then" laid unfinished
  have terminated := Continues.terminate ((laid.attach _).create _) ((FunctionBuilder.Grows.switchTo _ _).trans grows) next
  exact (terminated.create (laid.attach _) unfinished₁).attach laid unfinished

def Resumes (site : Site) (s : FunctionBuilder) (slots : Slots) (l : Locals) (result : Option Int64) : Prop :=
  ∀ a, site.Matches slots l a → site.Continues s a result

/-- The code from the place `s` on does what `run` says, where `after` says what follows it. -/
def Performs (site : Site) (s : FunctionBuilder) (slots : Slots) (run : Locals → Option (Flow × Locals))
    (after : Locals → Option Int64 → Prop) : Prop :=
  ∀ l flow l' result, run l = some (flow, l') → flow.Followed result (after l' result) →
    site.Resumes s slots l result

def Follows (site : Site) (s : FunctionBuilder) (slots : Slots) (l : Locals) (result : Option Int64) : Prop :=
  s.isTerminated = false → site.Resumes s slots l result

/-- The rounds of a loop: from the test the code goes on inside, and from there back to the test. -/
theorem performs_iterate {test : Locals → Option (Bool × Locals)} {body : Locals → Option (Flow × Locals)}
    {step : Locals → Option Locals} {start inside stop : FunctionBuilder} {after : Locals → Option Int64 → Prop}
    (tests : ∀ l holds l' result, test l = some (holds, l') →
      site.Resumes (if holds then inside else stop) slots l' result → site.Resumes start slots l result)
    (bodies : site.Performs inside slots body after)
    (steps : ∀ l l' result, step l = some l' → site.Resumes start slots l' result → after l result) (bound : Nat) :
    site.Performs start slots (iterate test body step bound) fun l result => site.Resumes stop slots l result := by
  induction bound with
  | zero => intro l flow l' result ran; cases ran
  | succ bound ih =>
    intro l flow l' result ran followed
    obtain ⟨⟨holds, l₁⟩, tested, ran⟩ := Option.bind_eq_some_iff.mp ran
    refine tests l holds l₁ result tested ?_
    cases holds with
    | false =>
      cases ran
      exact followed
    | true =>
      obtain ⟨⟨flow₁, l₂⟩, inside, ran⟩ := Option.bind_eq_some_iff.mp ran
      refine bodies l₁ flow₁ l₂ result inside ?_
      cases flow₁ with
      | returned value =>
        cases ran
        exact followed
      | next =>
        obtain ⟨l₃, stepped, ran⟩ := Option.bind_eq_some_iff.mp ran
        exact steps l₂ l₃ result stepped (ih l₃ flow l' result ran followed)

end Site

end Ir

namespace Lower

variable {scope : Scope} {call : Answers} {site : Site} {s s' : FunctionState}

structure Enclosed (site : Site) (s s' : FunctionState) (run : Locals → Option (Flow × Locals)) : Prop where
  locals : s'.locals = s.locals
  performs : ∀ {slots}, Binds s slots → s.function.isTerminated = false → s'.function.Grows site.builder →
    site.Performs s.function slots run (site.Follows s'.function slots)

def Executed (site : Site) (s s' : FunctionState) (run : Locals → Option (Flow × Locals)) : Prop :=
  ∀ slots, Binds s slots → ∃ slots', slots <:+ slots' ∧ Binds s' slots' ∧
    (s.function.isTerminated = false → s'.function.Grows site.builder →
      site.Performs s.function slots run (site.Follows s'.function slots'))

/-- A conditional has been written, whose branches all end in the block `merge`. -/
structure Merged (site : Site) (merge : Nat) (s s' : FunctionState) (run : Locals → Option (Flow × Locals)) : Prop where
  locals : s'.locals = s.locals
  performs : ∀ {slots}, Binds s slots → s.function.isTerminated = false → s'.function.Grows site.builder →
    site.Performs s.function slots run fun l result => ∀ a, site.Matches slots l a → site.Exits (.br merge) a result

theorem Enclosed.executed {run : Locals → Option (Flow × Locals)} (enclosed : Enclosed site s s' run)
    (grows : s.function.Grows s'.function) : Executed site s s' run :=
  fun _ binds => ⟨_, List.suffix_refl _, binds.grow grows enclosed.locals, enclosed.performs binds⟩

theorem grows_goOnIn (s : FunctionState) (id : Nat) : s.function.Grows (goOnIn s id).function :=
  (FunctionBuilder.Grows.append _ _).trans (.switchTo _ _)

theorem startsAt_goOnIn {id : Nat} (idle : s.function.Idle id) (later : id ≠ 0) : (goOnIn s id).function.StartsAt id :=
  (idle.append id).startsAt later

/-- A loop whose parts have been written, and which ends at `e`. -/
theorem enclosed_rounds {test : Locals → Option (Bool × Locals)} {body : Locals → Option (Flow × Locals)}
    {step : Locals → Option Locals} {emits : Bool} {cond : Ir.Value} {s₁ s₂ e : FunctionState} (ready : Ready s)
    (tested : Yields { s with function := s.function.enterLoop } emits [cond] s₁)
    (tests : ∀ slots, Binds { s with function := s.function.enterLoop } slots → s.function.enterLoop.isTerminated = false →
      s₁.function.Grows site.builder → site.Leads s.function.enterLoop s₁.function slots test fun holds a =>
        ∃ n, cond.eval site.args a = some n ∧ (n ≠ 0 ↔ holds = true))
    (filled : (inBody s₁ s.function.arena.length cond).function.Grows s₂.function)
    (bodies : Enclosed site (inBody s₁ s.function.arena.length cond) s₂ body)
    (ends : s₂.function.Grows e.function) (stops : e.function.StartsAt (s.function.arena.length + 2))
    (locals : e.locals = s₂.locals)
    (steps : ∀ {slots}, Binds s₂ slots → e.function.Grows site.builder → ∀ l l' result, step l = some l' →
      site.Resumes s.function.enterLoop slots l' result → site.Follows s₂.function slots l result) (bound : Nat) :
    Enclosed site s e (iterate test body step bound) := by
  have entered := ready.sound.enterLoop
  have starts := entered.startsAt ready.sound.laid
  have laid := tested.sound.laid
  have left := laid.advances_terminate (.condBr cond (s.function.arena.length + 1) (s.function.arena.length + 2))
  have inside := ((entered.body.advance tested.straight.toAdvances).advance left).startsAt (Nat.succ_ne_zero _)
  refine ⟨locals.trans (bodies.locals.trans tested.locals), fun {slots} binds unfinished grows => ?_⟩
  have growsBody := filled.trans (ends.trans grows)
  have growsLeft := (FunctionBuilder.Grows.switchTo _ _).trans growsBody
  have growsTest := left.grows.trans growsLeft
  have binds₁ : Binds { s with function := s.function.enterLoop } slots := binds.grow entered.track.grows rfl
  have binds₂ : Binds (inBody s₁ s.function.arena.length cond) slots :=
    binds₁.grow (tested.straight.grows.trans (left.grows.trans (.switchTo _ _))) tested.locals
  have rounds : site.Performs s.function.enterLoop slots (iterate test body step bound) (site.Resumes e.function slots) := by
    refine Site.performs_iterate ?_ (bodies.performs binds₂ inside.unfinished (ends.trans grows))
      (steps (binds₂.grow filled bodies.locals) grows) bound
    intro l holds l₁ result found resumes a matched
    refine tests slots binds₁ starts.unfinished growsTest l a holds l₁ result matched found
      fun a₁ matched₁ _ ⟨n, value, chosen⟩ => Site.Continues.terminate laid growsLeft ?_
    cases holds with
    | true => exact (resumes a₁ matched₁).choose inside growsBody value (if_pos (chosen.mpr rfl))
    | false => exact (resumes a₁ matched₁).choose stops grows value (if_neg fun other => nomatch chosen.mp other)
  intro l flow l' result ran followed a matched
  refine (rounds l flow l' result ran ?_ a matched).enterLoop ready.sound unfinished
    (tested.straight.grows.trans growsTest)
  cases flow with
  | next => exact followed stops.unfinished
  | returned => exact followed

theorem locals_joined (s : FunctionState) (merge : Nat) : (joined s merge).locals = s.locals := by
  unfold joined
  split <;> rfl

/-- The end of a branch, if it is reached, leads to the block `merge`. -/
theorem continues_joined {merge : Nat} {a : Activation} {result : Option Int64} (laid : s.function.Laid)
    (unfinished : s.function.isTerminated = false) (grows : (joined s merge).function.Grows site.builder)
    (next : site.Exits (.br merge) a result) : site.Continues s.function a result := by
  simp only [joined, unfinished, Bool.false_eq_true, if_false] at grows
  exact .terminate laid grows next

/-- A branch whose parts have been written, and the others after it. -/
theorem merged_branch {test : Locals → Option (Bool × Locals)} {body others : Locals → Option (Flow × Locals)} {emits : Bool}
    {cond : Ir.Value} {merge : Nat} {s₁ s₂ s₃ : FunctionState} (ready : Ready s) (tested : Yields s emits [cond] s₁)
    (bit : cond.ty = .int 1)
    (tests : ∀ slots, Binds s slots → s.function.isTerminated = false → s₁.function.Grows site.builder →
      site.Leads s.function s₁.function slots test fun holds a =>
        ∃ n, cond.eval site.args a = some n ∧ (n ≠ 0 ↔ holds = true))
    (filled : Passes { s₁ with function := s₁.function.enterBranch cond } s₂) (jumped : Passes s₂ (joined s₂ merge))
    (enclosed : Enclosed site { s₁ with function := s₁.function.enterBranch cond } s₂ body)
    (ends : (goOnIn (joined s₂ merge) (s₁.function.arena.length + 1)).function.Grows s₃.function)
    (merged : Merged site merge (goOnIn (joined s₂ merge) (s₁.function.arena.length + 1)) s₃ others) :
    Merged site merge s s₃ (fun l => do
      let (holds, l) ← test l
      if holds then body l else others l) := by
  have ready₁ := tested.ready ready
  have laid₁ := ready₁.sound.laid
  have entered := ready₁.sound.enterBranch (tested.available _ (List.mem_singleton_self _)) bit
  have starts := entered.startsAt laid₁
  have both := filled.trans jumped
  have onward := grows_goOnIn (joined s₂ merge) (s₁.function.arena.length + 1)
  have onFalse := startsAt_goOnIn (entered.onFalse.advance both.advances) (Nat.succ_ne_zero _)
  have locals := (locals_joined s₂ merge).trans enclosed.locals
  refine ⟨merged.locals.trans (locals.trans tested.locals), ?_⟩
  intro slots binds unfinished grows l flow l' result ran followed a matched
  have growsElse := ends.trans grows
  have growsJoined := onward.trans growsElse
  have growsIn := both.advances.grows.trans growsJoined
  have binds₁ : Binds s₁ slots := binds.grow tested.straight.grows tested.locals
  obtain ⟨⟨holds, l₁⟩, found, ran⟩ := Option.bind_eq_some_iff.mp ran
  refine tests slots binds unfinished (entered.track.grows.trans growsIn) l a holds l₁ result matched found
    fun a₁ matched₁ _ ⟨n, value, chosen⟩ => ?_
  refine Site.Continues.enterBranch ?_ laid₁ (tested.straight.stays unfinished).1 growsIn
  cases holds with
  | true =>
    have binds₂ : Binds { s₁ with function := s₁.function.enterBranch cond } slots := binds₁.grow entered.track.grows rfl
    have inside : site.Continues (s₁.function.enterBranch cond) a₁ result := by
      refine enclosed.performs binds₂ starts.unfinished (jumped.advances.grows.trans growsJoined) l₁ flow l' result ran ?_
        a₁ matched₁
      cases flow with
      | returned value => exact followed
      | next => exact fun unfinished₂ a₂ matched₂ =>
          continues_joined filled.ready.sound.laid unfinished₂ growsJoined (followed a₂ matched₂)
    exact inside.choose starts growsIn value (if_pos (chosen.mpr rfl))
  | false =>
    have binds₂ : Binds (goOnIn (joined s₂ merge) (s₁.function.arena.length + 1)) slots :=
      binds₁.grow (entered.track.grows.trans (both.advances.grows.trans onward)) locals
    have below := merged.performs binds₂ onFalse.unfinished grows l₁ flow l' result ran followed a₁ matched₁
    exact below.choose onFalse growsElse value (if_neg fun other => nomatch chosen.mp other)

/-- What is known of an action that writes a construct, all in one. -/
theorem Carries.with {x : Lower Unit} {post : Unit → FunctionState → Prop} (carries : Carries scope x s)
    (run : Wp x s post fun _ _ => True) :
    Wp x s (fun _ s' => (Passes s s' ∧ Integer scope s') ∧ post () s') fun _ _ => True :=
  (carries.and run).imp (fun _ _ ⟨⟨passes, integer, _⟩, holds⟩ => ⟨⟨passes, integer⟩, holds⟩) fun _ _ _ => trivial

section Induction

variable (functions : scope.IsInteger) (answers : site.Answers scope call)
include functions answers

/-- A loop is written once, and its code is run in every round. -/
theorem enclosed_loop {test : Expr} (tests : test.isTest = true) {body step : Lower Unit}
    {bodyRun : Locals → Option (Flow × Locals)} {stepRun : Locals → Option Locals} (ready : Ready s)
    (integer : Integer scope s)
    (bodies : ∀ {s}, Ready s → Integer scope s → Wp body s (fun _ s' =>
      (Passes s s' ∧ Integer scope s') ∧ Enclosed site s s' bodyRun) fun _ _ => True)
    (steps : ∀ {s}, Ready s → Integer scope s → Wp step s (fun _ s' =>
      (Passes s s' ∧ Integer scope s') ∧ Enclosed site s s' fun l => (stepRun l).map (Flow.next, ·)) fun _ _ => True)
    (bound : Nat) :
    Wp (loop scope test body step) s (fun _ s' =>
      Enclosed site s s' (iterate (test.test call) bodyRun stepRun bound)) fun _ _ => True := by
  rw [wp_loop rfl]
  have entered := ready.sound.enterLoop
  have starts := entered.startsAt ready.sound.laid
  have atTest := ready.track entered.track
  have integer₁ := integer.enterLoop ready
  refine (((makes_condition scope test atTest).and (stays_condition functions tests atTest integer₁)).and
    (simulates_condition functions answers tests atTest integer₁)).imp
    (fun cond s₁ ⟨⟨⟨⟨_, tested⟩, bit⟩, integer₂, _⟩, leads⟩ => ?_) fun _ _ _ => trivial
  obtain ⟨ready₂, track₂, idle₂⟩ := inBody_track ready tested bit
  refine (bodies ready₂ (integer₂.inBody (tested.ready atTest) _ cond)).mono
    fun _ s₂ ⟨⟨filled, integer₃⟩, bodies⟩ => ?_
  have inside : s.function.enterLoop.Grows (inBody s₁ s.function.arena.length cond).function :=
    tested.straight.grows.trans ((tested.sound.laid.grows_terminate _).trans (.switchTo _ _))
  split
  · rename_i finished
    have idle₃ := idle₂.advance filled.advances
    refine enclosed_rounds ready tested leads filled.advances.grows bodies (grows_goOnIn s₂ _)
      (startsAt_goOnIn idle₃ (Nat.succ_ne_zero _)) rfl
      (fun binds grows l l' result stepped resumes unfinished => ?_) bound
    cases finished.symm.trans unfinished
  · refine (steps filled.ready integer₃).mono fun _ s₃ ⟨⟨stepped, _⟩, steps⟩ => ?_
    have whole := filled.advances.trans stepped.advances
    have jumped := stepped.ready.sound.laid.advances_terminate (.br s.function.arena.length)
    have idle₄ := (idle₂.advance whole).advance jumped
    have onward := grows_goOnIn { s₃ with function := s₃.function.terminate (.br s.function.arena.length) }
      (s.function.arena.length + 2)
    refine enclosed_rounds ready tested leads filled.advances.grows bodies
      (stepped.advances.grows.trans (jumped.grows.trans onward))
      (startsAt_goOnIn idle₄ (Nat.succ_ne_zero _)) steps.locals
      (fun binds grows l l' result found resumes unfinished => ?_) bound
    have growsLeft := onward.trans grows
    refine steps.performs binds unfinished (jumped.grows.trans growsLeft) l .next l' result (by simp [found]) ?_
    intro unfinished a matched
    exact Site.Continues.terminate stepped.ready.sound.laid growsLeft
      ((resumes a matched).jump starts (inside.trans (whole.grows.trans (jumped.grows.trans growsLeft))))

theorem executed_let {span : Span} {name : String} {e : Expr} (number : e.isNumber = true) (ready : Ready s)
    (integer : Integer scope s) (bound : Nat) :
    Wp (stmt scope true (.letIn span name (.int 64) (some e))) s
      (fun _ s' => Executed site s s' ((Stmt.letIn span name (.int 64) (some e)).exec call bound ·)) fun _ _ => True := by
  have laid := ready.sound.laid
  have slot := ready.alloca (.int 64)
  have ready₁ := slot.ready ready
  have unfinished₁ := laid.isTerminated_alloca (.int 64)
  simp only [stmt, wp_bind, wp_build, wp_write, wp_bindLocal]
  refine ((simulates_expr functions answers e number ready₁ (integer.alloca ready)).valueOf.along
    (makes_expr scope .value e ready₁).valueOf (stays_expr functions e number ready₁ (integer.alloca ready)).valueOf).mono ?_
  rintro typed s₂ ⟨second, -, -, leads⟩
  have laid₂ := second.sound.laid
  have address : (s.function.alloca (.ofSource (.int 64))).1 = .reg ⟨s.function.nextReg, .ptr⟩ := by rw [laid.alloca_eq]
  have stored := laid₂.grows_emit (i := .store typed.value (s.function.alloca (.int 64)).1) rfl
  intro slots binds
  refine ⟨_, List.suffix_cons .., binds.declare ready.sound name (second.straight.grows.trans stored)
      (by rw [second.locals]; rfl),
    fun unfinished grows l flow l' result ran followed a matched => ?_⟩
  obtain ⟨n, l₁, number, rfl, rfl⟩ := Stmt.exec_letIn ran
  have binds₁ : Binds { s with function := (s.function.alloca (.int 64)).2 } slots :=
    binds.grow slot.straight.grows rfl
  refine Site.Continues.alloca (.int 64) laid unfinished ?_
  refine leads slots binds₁ (unfinished₁.trans unfinished) (stored.trans grows) l a n l₁ result matched number ?_
  rintro a₁ matched₁ - ⟨-, shown⟩
  have placed := laid.mem_slots_alloca (.int 64)
  obtain ⟨content, held⟩ := matched₁.framed _ (defs_subset (second.straight.grows.trans (stored.trans grows)).slots placed)
  rw [address] at grows followed
  refine Site.Continues.store laid₂ (second.straight.stays (unfinished₁.trans unfinished)).1 grows shown held ?_
  exact followed (laid₂.isTerminated_emit _) _ (matched₁.initialise (binds.fresh ready.sound) name n)

theorem enclosed_evaluate {e : Expr} {run : Locals → Option (Flow × Locals)} (test : e.isTest = true) (ready : Ready s)
    (integer : Integer scope s)
    (evaluates : ∀ {l flow l'}, run l = some (flow, l') → ∃ v, e.eval call l = some (v, l') ∧ flow = .next) :
    Wp (evaluate scope e) s (fun _ s' => Enclosed site s s' run) fun _ _ => True := by
  have yields : Wp (evaluate scope e) s (fun _ s' => s'.locals = s.locals ∧ s.function.Straight s'.function)
      fun _ _ => True := by
    simp only [evaluate, wp_bind, wp_pure]
    exact (makes_expr scope .value e ready).mono fun _ _ yields => ⟨yields.locals, yields.straight⟩
  refine (yields.and (simulates_evaluate functions answers test ready integer)).imp ?_ fun _ _ _ => trivial
  rintro _ s₁ ⟨⟨locals, straight⟩, leads⟩
  refine ⟨locals, ?_⟩
  intro slots binds unfinished grows l flow l' result ran followed a matched
  obtain ⟨v, evaluated, rfl⟩ := evaluates ran
  exact leads slots binds unfinished grows l a v l' result matched evaluated
    fun a₁ matched₁ _ _ => followed (straight.stays unfinished).1 a₁ matched₁

end Induction

mutual

theorem executed_stmt (functions : scope.IsInteger) (answers : site.Answers scope call) (bound : Nat) :
    (st : Stmt) → st.isInteger = true → {s : FunctionState} → Ready s → Integer scope s →
    Wp (stmt scope true st) s (fun _ s' => Executed site s s' (st.exec call bound ·)) fun _ _ => True
  | .letIn _ name ty none, int, s, ready, integer => by
    simp only [Stmt.isInteger, decide_eq_true_eq] at int
    subst int
    have laid := ready.sound.laid
    simp only [stmt, wp_bind, wp_build, wp_bindLocal]
    intro slots binds
    refine ⟨_, List.suffix_cons .., binds.declare ready.sound name (.refl _) rfl,
      fun unfinished grows l flow l' result ran followed a matched => ?_⟩
    cases ran
    obtain ⟨content, held⟩ := matched.framed _ (defs_subset grows.slots (laid.mem_slots_alloca _))
    have unfinished' := (laid.isTerminated_alloca (.int 64)).trans unfinished
    exact Site.Continues.alloca (.int 64) laid unfinished (followed unfinished' a (matched.declare name held nofun))
  | .letIn span name ty (some e), int, s, ready, integer => by
    simp only [Stmt.isInteger, Bool.and_eq_true, decide_eq_true_eq] at int
    obtain ⟨rfl, number⟩ := int
    exact executed_let functions answers number ready integer bound
  | .ret _ none, _, s, ready, integer => by
    have laid := ready.sound.laid
    simp only [stmt, wp_terminate]
    intro slots binds
    refine ⟨slots, List.suffix_refl _, binds.grow (laid.grows_terminate _) rfl,
      fun unfinished grows l flow l' result ran followed a matched => ?_⟩
    cases ran
    obtain rfl : result = none := followed
    exact Site.Continues.terminate laid grows .ret
  | .ret _ (some e), int, s, ready, integer => by
    rw [Stmt.isInteger] at int
    simp only [stmt, wp_bind, wp_terminate]
    refine ((simulates_expr functions answers e int ready integer).valueOf.along (makes_expr scope .value e ready).valueOf
      (stays_expr functions e int ready integer).valueOf).mono fun typed s₁ ⟨first, _, _, leads⟩ => ?_
    have laid₁ := first.sound.laid
    have left := laid₁.grows_terminate (.ret (some typed.value))
    intro slots binds
    refine ⟨slots, List.suffix_refl _, binds.grow (first.straight.grows.trans left) first.locals,
      fun unfinished grows l flow l' result ran followed a matched => ?_⟩
    obtain ⟨n, number, rfl⟩ := Stmt.exec_ret ran
    obtain rfl : result = some n := followed
    refine leads slots binds unfinished (left.trans grows) l a n l' _ matched number fun a₁ _ _ ⟨_, shown⟩ => ?_
    exact Site.Continues.terminate laid₁ grows (.retValue shown)
  | .cond _ chain, int, s, ready, integer => by
    rw [Stmt.isInteger] at int
    simp only [stmt, wp_bind, wp_build, wp_continueIn, FunctionBuilder.create_fst]
    have laid := ready.sound.laid
    have track := (FunctionBuilder.Track.start ready.sound).create "if.end"
    have idle := FunctionBuilder.Idle.created laid "if.end"
    have later := Nat.ne_of_gt laid.size_pos
    have ready₁ := ready.track track
    refine ((passes_ifChain scope true chain ready₁ idle.known).and (merged_ifChain functions answers bound chain int ready₁
      (integer.blocks (integer.plain.create _)) idle.known later)).imp
      (fun _ s₁ ⟨⟨passes, _⟩, merged⟩ => ?_) fun _ _ _ => trivial
    have stops := startsAt_goOnIn (idle.advance passes.advances) later
    have onward := grows_goOnIn s₁ s.function.arena.length
    have enclosed : Enclosed site s (goOnIn s₁ s.function.arena.length) (chain.exec call bound ·) := by
      refine ⟨merged.locals, fun binds unfinished grows l flow l' result ran followed a matched => ?_⟩
      obtain ⟨id, current, -⟩ := laid.current
      have unfinished₁ := (s.function.isTerminated_create "if.end" current).trans unfinished
      refine Site.Continues.create (merged.performs (binds.grow track.grows rfl) unfinished₁ (onward.trans grows) l flow l'
        result ran ?_ a matched) laid unfinished
      cases flow with
      | next => exact fun a₁ matched₁ => (followed stops.unfinished a₁ matched₁).jump stops grows
      | returned => exact followed
    exact enclosed.executed (track.grows.trans (passes.advances.grows.trans onward))
  | .while span test body, int, s, ready, integer => by
    simp only [Stmt.isInteger, Bool.and_eq_true] at int
    have bodies {s} (ready : Ready s) (integer : Integer scope s) :=
      ((stays_block functions body int.2 ready integer).passingBlock ready).with
        (enclosed_block functions answers bound body int.2 ready integer)
    have steps {s} (ready : Ready s) (integer : Integer scope s) : Wp (pure ()) s (fun _ s' =>
        (Passes s s' ∧ Integer scope s') ∧ Enclosed site s s' fun l => (some l).map (Flow.next, ·)) fun _ _ => True := by
      rw [wp_pure]
      refine ⟨⟨ready.passes, integer⟩, rfl, fun binds unfinished grows l flow l' result ran followed => ?_⟩
      cases ran
      exact followed unfinished
    have passes := passes_stmt scope true (.while span test body) ready
    have enclosed := enclosed_loop functions answers int.1 ready integer bodies steps bound
    simp only [stmt] at passes ⊢
    exact (passes.and enclosed).imp (fun _ s₁ ⟨⟨passes, _⟩, enclosed⟩ => enclosed.executed passes.advances.grows)
      fun _ _ _ => trivial
  | .for span init test step body, int, s, ready, integer => by
    simp only [Stmt.isInteger, Bool.and_eq_true] at int
    obtain ⟨⟨⟨int, tests⟩, steps⟩, bodies⟩ := int
    have bodies {s} (ready : Ready s) (integer : Integer scope s) :=
      ((stays_block functions body bodies ready integer).passingBlock ready).with
        (enclosed_block functions answers bound body bodies ready integer)
    have steps {s} (ready : Ready s) (integer : Integer scope s) :=
      ((stays_evaluate functions steps ready integer).passing (passes_evaluate scope step ready)).with
        (enclosed_evaluate functions answers steps ready integer Expr.eval_of_step)
    simp only [stmt, wp_inScope, wp_bind, if_true]
    refine (((stays_stmt functions init int ready integer).passingStmt ready).with
      (executed_stmt functions answers bound init int ready integer)).mono fun _ s₁ ⟨⟨passes₁, integer₁⟩, started⟩ => ?_
    have passes₂ := passes_loop scope test passes₁.ready
      (fun ready => (passes_block scope true body ready).mono fun _ _ => And.left) (passes_evaluate scope step)
    refine (passes₂.and (enclosed_loop functions answers tests passes₁.ready integer₁ bodies steps bound)).imp
      (fun _ s₂ ⟨⟨passes₂, _⟩, looped⟩ => ?_) fun _ _ _ => trivial
    have enclosed : Enclosed site s { s₂ with locals := s.locals }
        ((Stmt.for span init test step body).exec call bound ·) := by
      refine ⟨rfl, fun {slots} binds unfinished grows l flow l' result ran followed a matched => ?_⟩
      obtain ⟨slots₁, suffix, binds₁, performs⟩ := started slots binds
      obtain ⟨⟨flow₁, inner⟩, ran₁, ran⟩ := Option.bind_eq_some_iff.mp ran
      refine performs unfinished (passes₂.advances.grows.trans grows) l flow₁ inner result ran₁ ?_ a matched
      cases flow₁ with
      | returned value =>
        cases ran
        exact followed
      | next =>
        obtain ⟨⟨flow₂, inner₂⟩, ran₂, ran⟩ := Option.bind_eq_some_iff.mp ran
        cases ran
        refine fun unfinished₁ => looped.performs binds₁ unfinished₁ grows inner flow inner₂ result ran₂ ?_
        cases flow with
        | returned value => exact followed
        | next => exact fun unfinished₂ a₂ matched₂ => followed unfinished₂ a₂ (matched.leave suffix matched₂)
    exact enclosed.executed (passes₁.trans passes₂).advances.grows
  | .expr e, int, s, ready, integer => by
    rw [Stmt.isInteger] at int
    simp only [stmt]
    refine ((passes_evaluate scope e ready).and (enclosed_evaluate functions answers int ready integer Stmt.exec_expr)).imp
      (fun _ s₁ ⟨passes, enclosed⟩ => enclosed.executed passes.advances.grows) fun _ _ _ => trivial
termination_by structural st => st

theorem merged_ifChain (functions : scope.IsInteger) (answers : site.Answers scope call) (bound : Nat)
    {merge : Nat} : (chain : IfChain) → chain.isInteger = true → {s : FunctionState} → Ready s → Integer scope s →
    merge < s.function.arena.length → merge ≠ 0 →
    Wp (ifChain scope true merge chain) s (fun _ s' => Merged site merge s s' (chain.exec call bound ·)) fun _ _ => True
  | .branch test body rest, int, s, ready, integer, known, later => by
    simp only [IfChain.isInteger, Bool.and_eq_true] at int
    obtain ⟨⟨tests, bodies⟩, others⟩ := int
    rw [wp_ifBranch]
    refine (((makes_condition scope test ready).and (stays_condition functions tests ready integer)).and
      (simulates_condition functions answers tests ready integer)).imp
      (fun cond s₁ ⟨⟨⟨⟨_, tested⟩, bit⟩, integer₁, _⟩, leads⟩ => ?_) fun _ _ _ => trivial
    have ready₁ := tested.ready ready
    have available := tested.available _ (List.mem_singleton_self _)
    have entered := ready₁.sound.enterBranch available bit
    have inside := ready₁.track entered.track
    have integerIn := integer₁.enterBranch ready₁ cond
    refine (((stays_block functions body bodies inside integerIn).passingBlock inside).with
      (enclosed_block functions answers bound body bodies inside integerIn)).mono fun _ s₂ ⟨⟨filled, integer₂⟩, enclosed⟩ => ?_
    have known₁ := Nat.lt_of_lt_of_le known tested.straight.grows.size
    have size := Nat.le_trans entered.track.grows.size filled.advances.grows.size
    have jumped := (passes_joined filled.ready (Nat.lt_of_lt_of_le known₁ size)).1
    have next := passes_branch ready₁ available bit known₁ filled
    have known₂ := Nat.lt_of_lt_of_le known₁ next.advances.grows.size
    refine ((passes_ifChain scope true rest next.ready known₂).and (merged_ifChain functions answers bound rest others
      next.ready ((integer₂.joined filled.ready later).goOnIn _) known₂ later)).imp (fun _ s₃ ⟨⟨passes₃, _⟩, merged⟩ => ?_)
      fun _ _ _ => trivial
    exact merged_branch ready tested bit leads filled jumped enclosed passes₃.advances.grows merged
  | .otherwise body, int, s, ready, integer, known, later => by
    rw [IfChain.isInteger] at int
    simp only [ifChain, wp_bind, wp_branchTo]
    refine (((stays_block functions body int ready integer).passingBlock ready).with
      (enclosed_block functions answers bound body int ready integer)).mono fun _ s₁ ⟨⟨filled, _⟩, enclosed⟩ => ?_
    have jumped := (passes_joined filled.ready (Nat.lt_of_lt_of_le known filled.advances.grows.size)).1
    refine ⟨(locals_joined s₁ merge).trans enclosed.locals, ?_⟩
    intro slots binds unfinished grows l flow l' result ran followed
    refine enclosed.performs binds unfinished (jumped.advances.grows.trans grows) l flow l' result ran ?_
    cases flow with
    | returned value => exact followed
    | next => exact fun unfinished₁ a₁ matched₁ =>
        continues_joined filled.ready.sound.laid unfinished₁ grows (followed a₁ matched₁)
  | .done, _, s, ready, integer, known, later => by
    simp only [ifChain, wp_branchTo]
    refine ⟨locals_joined s merge, ?_⟩
    intro slots binds unfinished grows l flow l' result ran followed a matched
    cases ran
    exact continues_joined ready.sound.laid unfinished grows (followed a matched)
termination_by structural chain => chain

theorem enclosed_block (functions : scope.IsInteger) (answers : site.Answers scope call) (bound : Nat) :
    (b : Block) → b.isInteger = true → {s : FunctionState} → Ready s → Integer scope s →
    Wp (block scope true b) s (fun _ s' => Enclosed site s s' (b.exec call bound ·)) fun _ _ => True
  | ⟨body, _⟩, int, s, ready, integer => by
    rw [Block.isInteger] at int
    simp only [block, wp_inScope, if_true]
    refine (executed_stmts functions answers bound body int ready integer).mono fun _ s₁ executed => ⟨rfl, ?_⟩
    intro slots binds unfinished grows l flow l' result ran followed a matched
    obtain ⟨slots₁, suffix, binds₁, performs⟩ := executed slots binds
    obtain ⟨⟨flow₁, inner⟩, ran₁, ran⟩ := Option.bind_eq_some_iff.mp ran
    cases ran
    refine performs unfinished grows l flow inner result ran₁ ?_ a matched
    cases flow with
    | returned value => exact followed
    | next => exact fun unfinished₁ a₁ matched₁ => followed unfinished₁ a₁ (matched.leave suffix matched₁)
termination_by structural b => b

theorem executed_stmts (functions : scope.IsInteger) (answers : site.Answers scope call) (bound : Nat) :
    (body : List Stmt) → Stmt.areInteger body = true → {s : FunctionState} → Ready s → Integer scope s →
    Wp (stmts scope true body) s (fun _ s' => Executed site s s' (Stmt.execAll call bound · body)) fun _ _ => True
  | [], _, s, _, integer => by
    intro slots binds
    refine ⟨slots, List.suffix_refl _, binds, fun unfinished grows l flow l' result ran followed => ?_⟩
    cases ran
    exact followed unfinished
  | st :: rest, int, s, ready, integer => by
    simp only [Stmt.areInteger, Bool.and_eq_true] at int
    simp only [stmts, wp_bind]
    refine (((stays_stmt functions st int.1 ready integer).passingStmt ready).with
      (executed_stmt functions answers bound st int.1 ready integer)).mono fun _ s₁ ⟨⟨passes₁, integer₁⟩, first⟩ => ?_
    refine ((passes_stmts scope true rest passes₁.ready).and
      (executed_stmts functions answers bound rest int.2 passes₁.ready integer₁)).imp
      (fun _ s₂ ⟨⟨passes₂, _⟩, others⟩ => ?_) fun _ _ _ => trivial
    intro slots binds
    obtain ⟨slots₁, suffix₁, binds₁, performs₁⟩ := first slots binds
    obtain ⟨slots₂, suffix₂, binds₂, performs₂⟩ := others slots₁ binds₁
    refine ⟨slots₂, suffix₁.trans suffix₂, binds₂, fun unfinished grows l flow l' result ran followed => ?_⟩
    obtain ⟨⟨flow₁, l₁⟩, ran₁, ran⟩ := Option.bind_eq_some_iff.mp ran
    refine performs₁ unfinished (passes₂.advances.grows.trans grows) l flow₁ l₁ result ran₁ ?_
    cases flow₁ with
    | returned value =>
      cases ran
      exact followed
    | next => exact fun unfinished₁ => performs₂ unfinished₁ grows l₁ flow l' result ran followed
termination_by structural body => body

end

end Lower

end StructLang
