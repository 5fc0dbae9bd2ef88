import StructLang.Proofs.Lowering.Blocks
import StructLang.Proofs.Meaning.Source

namespace StructLang

open Ir

def Ir.Value.IsAddress (v : Value) : Prop := ∃ id, v = .reg ⟨id, .ptr⟩

def Ir.Instruction.Plain (scope : Scope) : Instruction → Prop
  | .load dest ty addr => dest.ty = .int 64 ∧ ty = .int 64 ∧ addr.IsAddress
  | .store value addr => value.ty = .int 64 ∧ addr.IsAddress
  | .binary dest op lhs rhs => dest.ty = .int 64 ∧ lhs.ty = .int 64 ∧ rhs.ty = .int 64 ∧
    (op = .add ∨ op = .sub ∨ op = .mul ∨ op = .sdiv)
  | .neg dest operand => dest.ty = .int 64 ∧ operand.ty = .int 64
  | .icmp dest _ lhs rhs => dest.ty = .int 1 ∧ lhs.ty = .int 64 ∧ rhs.ty = .int 64
  | .call dest callee values => (∀ v ∈ values, v.ty = .int 64) ∧ ∃ f, scope.functions.get? callee = some f ∧
    dest.elim (f.returns = .void) fun dest => f.returns = .int 64 ∧ dest.ty = .int 64
  | _ => False

def Ir.Terminator.Plain (t : Terminator) : Prop :=
  (∀ v, t = .ret (some v) → v.ty = .int 64) ∧ 0 ∉ t.successors

namespace Ir.FunctionBuilder

structure Plain (scope : Scope) (b : FunctionBuilder) : Prop where
  code : ∀ {id i}, i ∈ b.code id → i.Plain scope
  slots : ∀ {i}, i ∈ b.slots → ∃ id, i = .alloca ⟨id, .ptr⟩ (.int 64)
  exits : ∀ {id t}, b.exit id = some t → t.Plain

variable {scope : Scope} {b b' : FunctionBuilder}

namespace Plain

/-- Creating, placing and entering blocks changes no code. -/
theorem blocks (plain : b.Plain scope) (same : ∀ id, b'.instructions id = b.instructions id)
    (exits : ∀ id, b'.exit id = b.exit id) : b'.Plain scope := by
  have code : ∀ id, b'.code id = b.code id := fun id => by rw [FunctionBuilder.code, same, FunctionBuilder.code]
  have slots : b'.slots = b.slots := by rw [FunctionBuilder.slots, same, FunctionBuilder.slots]
  exact ⟨fun member => plain.code (code _ ▸ member), fun member => plain.slots (slots ▸ member),
    fun exit => plain.exits (exits _ ▸ exit)⟩

theorem create (plain : b.Plain scope) (label : String) : (b.create label).2.Plain scope :=
  plain.blocks (b.instructions_create label) (b.exit_create label)

theorem append (plain : b.Plain scope) (id : Nat) : (b.append id).Plain scope :=
  plain.blocks (b.instructions_append id) (b.exit_append id)

theorem attach (plain : b.Plain scope) (label : String) : (b.attach label).2.Plain scope :=
  (plain.create label).append _

theorem switchTo (plain : b.Plain scope) (id : Nat) : (b.switchTo id).Plain scope :=
  plain.blocks (fun _ => rfl) fun _ => rfl

theorem emit (laid : b.Laid) (plain : b.Plain scope) {n : Nat} {i : Instruction} (new : i.Plain scope) :
    ({ b with nextReg := n }.emit i).Plain scope := by
  have laid := laid.bump n
  have ordinary : i.isSlot = false := by
    cases i with
    | alloca => exact new.elim
    | _ => rfl
  refine ⟨?_, ?_, ?_⟩
  · intro id j member
    rw [laid.code_emit ordinary] at member
    split at member
    · rcases List.mem_append.mp member with before | here
      · exact plain.code before
      · exact List.mem_singleton.mp here ▸ new
    · exact plain.code member
  · intro j member
    rw [laid.slots_emit ordinary] at member
    exact plain.slots member
  · intro id t exit
    rw [laid.exit_emit] at exit
    exact plain.exits exit

theorem alloca (laid : b.Laid) (plain : b.Plain scope) : (b.alloca (.int 64)).2.Plain scope := by
  refine ⟨?_, ?_, ?_⟩
  · intro id i member
    rw [laid.code_alloca] at member
    exact plain.code member
  · intro i member
    rw [laid.slots_alloca, List.mem_append, List.mem_singleton] at member
    rcases member with before | rfl
    · exact plain.slots before
    · exact ⟨_, rfl⟩
  · intro id t exit
    rw [laid.exit_alloca] at exit
    exact plain.exits exit

theorem terminate (laid : b.Laid) (plain : b.Plain scope) {t : Terminator} (new : t.Plain) :
    (b.terminate t).Plain scope := by
  refine ⟨?_, ?_, ?_⟩
  · intro id i member
    rw [laid.code_terminate] at member
    exact plain.code member
  · intro i member
    rw [laid.slots_terminate] at member
    exact plain.slots member
  · intro id t' exit
    rw [laid.exit_terminate] at exit
    split at exit
    · cases exit
      exact new
    · exact plain.exits exit

end Plain

end Ir.FunctionBuilder

structure Integer (scope : Scope) (s : FunctionState) : Prop where
  plain : s.function.Plain scope
  locals : ∀ {name typed}, s.locals.get? name = some typed → typed.ty = .int 64 ∧ typed.value.IsAddress

theorem Ir.Terminator.plain_br {id : Nat} (later : id ≠ 0) : (Terminator.br id).Plain :=
  ⟨nofun, by simpa [successors] using Ne.symm later⟩

theorem Ir.Terminator.plain_condBr {cond : Ir.Value} {onTrue onFalse : Nat} (later : onTrue ≠ 0) (later' : onFalse ≠ 0) :
    (Terminator.condBr cond onTrue onFalse).Plain :=
  ⟨nofun, by simpa [successors] using ⟨Ne.symm later, Ne.symm later'⟩⟩

def Scope.IsInteger (scope : Scope) : Prop := ∀ {name f}, scope.functions.get? name = some f → f.isInteger = true

namespace Integer

variable {scope : Scope} {s : FunctionState}

theorem define (ready : Ready s) (integer : Integer scope s) {t : Ir.Ty} {f : Reg → Instruction}
    (new : (f ⟨s.function.nextReg, t⟩).Plain scope) :
    Integer scope { s with function := (s.function.define t f).2 } :=
  ⟨integer.plain.emit ready.sound.laid new, integer.locals⟩

theorem emit (ready : Ready s) (integer : Integer scope s) {i : Instruction} (new : i.Plain scope) :
    Integer scope { s with function := s.function.emit i } :=
  ⟨integer.plain.emit ready.sound.laid (n := s.function.nextReg) new, integer.locals⟩

theorem alloca (ready : Ready s) (integer : Integer scope s) :
    Integer scope { s with function := (s.function.alloca (.int 64)).2 } :=
  ⟨integer.plain.alloca ready.sound.laid, integer.locals⟩

theorem terminate (ready : Ready s) (integer : Integer scope s) {t : Terminator} (new : t.Plain) :
    Integer scope { s with function := s.function.terminate t } :=
  ⟨integer.plain.terminate ready.sound.laid new, integer.locals⟩

/-- Code goes on elsewhere, with the same locals. -/
theorem blocks (integer : Integer scope s) {b : FunctionBuilder} (plain : b.Plain scope) :
    Integer scope { s with function := b } :=
  ⟨plain, integer.locals⟩

theorem enterLoop (ready : Ready s) (integer : Integer scope s) :
    Integer scope { s with function := s.function.enterLoop } := by
  have laid := ready.sound.laid
  have later := Nat.ne_of_gt laid.size_pos
  exact integer.blocks (((((integer.plain.attach _).attach _).create _).terminate
    (((laid.attach _).attach _).create _) (Terminator.plain_br later)).switchTo _)

theorem enterBranch (ready : Ready s) (integer : Integer scope s) (cond : Ir.Value) :
    Integer scope { s with function := s.function.enterBranch cond } := by
  have laid := ready.sound.laid
  have later := Nat.ne_of_gt laid.size_pos
  exact integer.blocks ((((integer.plain.attach _).create _).terminate ((laid.attach _).create _)
    (Terminator.plain_condBr later (Nat.succ_ne_zero _))).switchTo _)

theorem goOnIn (integer : Integer scope s) (id : Nat) : Integer scope (Lower.goOnIn s id) :=
  integer.blocks ((integer.plain.append id).switchTo id)

theorem inBody (ready : Ready s) (integer : Integer scope s) (test : Nat) (cond : Ir.Value) :
    Integer scope (Lower.inBody s test cond) :=
  integer.blocks ((integer.plain.terminate ready.sound.laid
    (Terminator.plain_condBr (Nat.succ_ne_zero _) (Nat.succ_ne_zero _))).switchTo _)

theorem joined (ready : Ready s) (integer : Integer scope s) {merge : Nat} (later : merge ≠ 0) :
    Integer scope (Lower.joined s merge) := by
  unfold Lower.joined
  split
  · exact integer
  · exact integer.terminate ready (Terminator.plain_br later)

theorem bindLocal (integer : Integer scope s) {slot : Ir.Value} (address : slot.IsAddress) (name : String) :
    Integer scope { s with locals := s.locals.insert name ⟨slot, .int 64⟩ } := by
  refine ⟨integer.plain, ?_⟩
  intro other typed found
  rw [NameMap.get?_insert] at found
  split at found
  · cases found
    exact ⟨rfl, address⟩
  · exact integer.locals found

theorem restore {s' : FunctionState} (integer : Integer scope s) (integer' : Integer scope s') :
    Integer scope { s' with locals := s.locals } :=
  ⟨integer'.plain, integer.locals⟩

end Integer

theorem Ir.FunctionBuilder.Laid.isAddress_alloca {b : FunctionBuilder} (laid : b.Laid) (ty : Ir.Ty) :
    (b.alloca ty).1.IsAddress :=
  ⟨b.nextReg, by rw [laid.alloca_eq]⟩

namespace Lower

variable {scope : Scope} {s : FunctionState} {α : Type} {x : Lower α} {post : α → Prop}

abbrev Stays (scope : Scope) (x : Lower α) (s : FunctionState) (post : α → Prop) : Prop :=
  Wp x s (fun a s' => Integer scope s' ∧ s'.module = s.module ∧ post a) fun _ _ => True

def Each (post : Typed → Prop) (result : Option Typed) : Prop := ∀ typed, result = some typed → post typed

abbrev Numeric : Option Typed → Prop := Each (·.value.ty = .int 64)

theorem Stays.along {emits : Bool} {values : α → List Ir.Value} (run : Stays scope x s post)
    (makes : Makes x s emits values) :
    Wp x s (fun a s' => Yields s emits (values a) s' ∧ Integer scope s' ∧ s'.module = s.module ∧ post a)
      fun _ _ => True :=
  (makes.and run).imp (fun _ _ => id) fun _ _ _ => trivial

theorem Stays.valueOf {e : Expr} {x : Lower (Option Typed)} {post : Typed → Prop}
    (run : Stays scope x s (Each post)) : Stays scope (valueOf e x) s post := by
  rw [Stays, wp_valueOf]
  refine run.mono fun result s' ⟨integer, same, holds⟩ => ?_
  cases result with
  | none => trivial
  | some typed => exact ⟨integer, same, holds typed rfl⟩

theorem stays_define (ready : Ready s) (integer : Integer scope s) {t : Ir.Ty} {f : Reg → Instruction} {g : Ir.Value → α}
    (new : (f ⟨s.function.nextReg, t⟩).Plain scope) (result : ∀ v : Ir.Value, v.ty = t → post (g v)) :
    Stays scope (build (·.define t f) >>= fun v => pure (g v)) s post := by
  simp only [Stays, wp_bind, wp_build, wp_pure]
  exact ⟨integer.define ready new, trivial, result _ rfl⟩

/-- Operators on numbers are computations or comparisons of them. -/
theorem stays_combine (ready : Ready s) (integer : Integer scope s) (op : BinaryOp) {lhs rhs : Typed}
    (left : lhs.value.ty = .int 64) (right : rhs.value.ty = .int 64) :
    Stays scope (combine op lhs rhs) s fun typed =>
      typed.value.ty = if op.isComparison then .int 1 else .int 64 := by
  simp only [combine, left]
  cases op <;> dsimp only [BinaryOp.onInts]
  all_goals
    refine stays_define ready integer ?_ fun v ty => ?_
    · simp [Instruction.Plain, left, right]
    · simp [ty, left, BinaryOp.isComparison]

theorem wp_callee (scope : Scope) (name : String) : Wp (callee scope name) s
    (fun returns s' => s' = s ∧ ∃ f, scope.functions.get? name = some f ∧ returns = f.returns) fun _ _ => True := by
  simp only [callee, wp_bind, wp_get]
  split
  · exact ⟨rfl, _, ‹_›, rfl⟩
  · trivial

theorem returns_of_isInteger {f : Signature} (integer : f.isInteger = true) : f.returns = .int 64 ∨ f.returns = .void := by
  simp only [Signature.isInteger, Bool.and_eq_true, Bool.or_eq_true, decide_eq_true_eq] at integer
  exact integer.2

/-- A call of a function over numbers. -/
theorem stays_call (ready : Ready s) (integer : Integer scope s) {name : String} {f : Signature}
    (known : scope.functions.get? name = some f) (returns : f.returns = .int 64 ∨ f.returns = .void)
    {values : List Ir.Value} (tys : ∀ v ∈ values, v.ty = .int 64) :
    Stays scope (build (·.call name values (.ofSource f.returns))) s fun result =>
      ∀ v, result = some v → v.ty = .int 64 := by
  simp only [Stays, wp_build, FunctionBuilder.call]
  rcases returns with number | nothing
  · simp only [number, Ir.Ty.ofSource, reduceCtorEq, if_false]
    refine ⟨integer.define ready ⟨tys, f, known, number, rfl⟩, trivial, ?_⟩
    rintro v ⟨⟩
    rfl
  · simp only [nothing, Ir.Ty.ofSource, if_true]
    exact ⟨integer.emit ready ⟨tys, f, known, nothing⟩, trivial, nofun⟩

theorem stays_binary (ready : Ready s) (span : Span) (op : BinaryOp) {lhs rhs : Expr}
    (left : Stays scope (expr scope .value lhs) s Numeric)
    (right : ∀ {s}, Ready s → Integer scope s → Stays scope (expr scope .value rhs) s Numeric) :
    Stays scope (expr scope .value (.binary span op lhs rhs)) s
      (Each (·.value.ty = if op.isComparison then .int 1 else .int 64)) := by
  simp only [Stays, expr, wp_bind]
  refine (left.valueOf.along (makes_expr scope .value lhs ready).valueOf).mono ?_
  rintro x s₁ ⟨first, integer₁, same₁, ty⟩
  have ready₁ := first.ready ready
  refine ((right ready₁ integer₁).valueOf.along (makes_expr scope .value rhs ready₁).valueOf).mono ?_
  rintro y s₂ ⟨second, integer₂, same₂, ty'⟩
  rw [wp_map]
  refine (stays_combine (second.ready ready₁) integer₂ op ty ty').mono ?_
  rintro z s₃ ⟨integer₃, same₃, ty''⟩
  refine ⟨integer₃, same₃.trans (same₂.trans same₁), ?_⟩
  rintro _ ⟨⟩
  exact ty''

mutual

theorem stays_expr (functions : scope.IsInteger) : (e : Expr) → e.isNumber = true → {s : FunctionState} → Ready s →
    Integer scope s → Stays scope (expr scope .value e) s Numeric
  | .int .., _, s, _, integer => ⟨integer, rfl, by rintro typed ⟨⟩; rfl⟩
  | .variable _ name, _, s, ready, integer => by
    simp only [Stays, expr, wp_bind, wp_get]
    cases found : s.locals.get? name with
    | none => trivial
    | some slot =>
      obtain ⟨ty, address⟩ := integer.locals found
      simp only [wp_map, access, ty]
      refine stays_define ready integer ?_ ?_
      · exact ⟨rfl, rfl, address⟩
      · rintro v ty _ ⟨⟩
        exact ty
  | .assign _ target value, number, s, ready, integer => by
    cases target with
    | «variable» _ name =>
      rw [Expr.isNumber] at number
      simp only [Stays, expr, wp_bind]
      refine ((stays_expr functions value number ready integer).valueOf.along
        (makes_expr scope .value value ready).valueOf).mono fun typed s₁ ⟨first, integer₁, same, ty⟩ => ?_
      simp only [addressOf, Expr.hasStorage, if_true, wp_valueOf, wp_bind, wp_get, wp_write, wp_pure]
      cases found : s₁.locals.get? name with
      | none => trivial
      | some slot =>
        obtain ⟨-, address⟩ := integer₁.locals found
        refine ⟨integer₁.emit (first.ready ready) ⟨ty, address⟩, same, ?_⟩
        rintro _ ⟨⟩
        exact ty
    | _ => simp [Expr.isNumber] at number
  | .binary _ op lhs rhs, number, s, ready, integer => by
    simp only [Expr.isNumber, Bool.and_eq_true, Bool.not_eq_true'] at number
    obtain ⟨⟨arithmetic, left⟩, right⟩ := number
    refine (stays_binary ready _ op (stays_expr functions lhs left ready integer)
      (stays_expr functions rhs right)).mono fun result s' ⟨integer', same, ty⟩ => ⟨integer', same, ?_⟩
    simpa [arithmetic] using ty
  | .unary _ .neg operand, number, s, ready, integer => by
    rw [Expr.isNumber] at number
    simp only [Stays, expr, wp_bind]
    refine ((stays_expr functions operand number ready integer).valueOf.along
      (makes_expr scope .value operand ready).valueOf).mono fun typed s₁ ⟨first, integer₁, same, ty⟩ => ?_
    rw [wp_map]
    simp only [negate, ty]
    refine (stays_define (first.ready ready) integer₁ ?_ ?_).mono fun result s₂ ⟨integer₂, same₂, ty'⟩ =>
      ⟨integer₂, same₂.trans same, ty'⟩
    · exact ⟨ty, ty⟩
    · rintro v ty' _ ⟨⟩
      exact ty'.trans ty
  | .call _ name _ args, number, s, ready, integer => by
    rw [Expr.isNumber] at number
    simp only [Stays, expr, wp_bind]
    refine (wp_callee scope name).mono fun returns s₁ ⟨unchanged, f, known, returned⟩ => ?_
    subst unchanged returned
    refine ((stays_exprs functions args number ready integer).along (makes_exprs scope args ready)).mono
      fun values s₂ ⟨second, integer₂, same, tys⟩ => ?_
    refine (stays_call (second.ready ready) integer₂ known (returns_of_isInteger (functions known)) tys).mono
      fun result s₃ ⟨integer₃, same₃, ty⟩ => ⟨integer₃, same₃.trans same, ?_⟩
    intro typed found
    obtain ⟨v, rfl, rfl⟩ := Option.map_eq_some_iff.mp found
    exact ty v rfl
  | .float .., number, _, _, _ | .string .., number, _, _, _ | .field .., number, _, _, _ | .index .., number, _, _, _
  | .struct .., number, _, _, _ | .unary _ .ref _, number, _, _, _ | .unary _ .deref _, number, _, _, _ => by
    simp [Expr.isNumber] at number
termination_by structural e => e

theorem stays_exprs (functions : scope.IsInteger) : (es : List Expr) → Expr.areNumbers es = true →
    {s : FunctionState} → Ready s → Integer scope s →
    Stays scope (exprs scope es) s fun values => ∀ v ∈ values, v.ty = .int 64
  | [], _, s, _, integer => ⟨integer, rfl, by simp⟩
  | e :: rest, numbers, s, ready, integer => by
    simp only [Expr.areNumbers, Bool.and_eq_true] at numbers
    simp only [Stays, exprs, wp_bind]
    refine ((stays_expr functions e numbers.1 ready integer).valueOf.along
      (makes_expr scope .value e ready).valueOf).mono fun typed s₁ ⟨first, integer₁, same₁, ty⟩ => ?_
    refine (stays_exprs functions rest numbers.2 (first.ready ready) integer₁).mono fun values s₂ ⟨integer₂, same₂, tys⟩ => ?_
    refine ⟨integer₂, same₂.trans same₁, ?_⟩
    simpa using ⟨ty, tys⟩
termination_by structural es => es

end

abbrev Testable : Option Typed → Prop := Each fun typed => typed.value.ty = .int 64 ∨ typed.value.ty = .int 1

theorem stays_test (functions : scope.IsInteger) {e : Expr} (test : e.isTest = true) (ready : Ready s)
    (integer : Integer scope s) : Stays scope (expr scope .value e) s Testable := by
  have number (number : e.isNumber = true) : Stays scope (expr scope .value e) s Testable :=
    (stays_expr functions e number ready integer).mono fun _ _ ⟨integer', same, ty⟩ =>
      ⟨integer', same, fun typed found => .inl (ty typed found)⟩
  cases e with
  | binary span op lhs rhs =>
    simp only [Expr.isTest, Bool.and_eq_true] at test
    refine (stays_binary ready span op (stays_expr functions lhs test.1 ready integer)
      (stays_expr functions rhs test.2)).mono fun result s' ⟨integer', same, ty⟩ => ⟨integer', same, ?_⟩
    intro typed found
    have := ty typed found
    split at this
    · exact .inr this
    · exact .inl this
  | _ => exact number test

theorem stays_evaluate (functions : scope.IsInteger) {e : Expr} (test : e.isTest = true) (ready : Ready s)
    (integer : Integer scope s) : Stays scope (evaluate scope e) s fun _ => True := by
  simp only [Stays, evaluate, wp_bind, wp_pure]
  exact (stays_test functions test ready integer).mono fun _ _ ⟨integer', same, _⟩ => ⟨integer', same, trivial⟩

theorem stays_condition (functions : scope.IsInteger) {e : Expr} (test : e.isTest = true) (ready : Ready s)
    (integer : Integer scope s) : Stays scope (condition scope e) s fun _ => True := by
  simp only [Stays, condition, wp_bind]
  refine ((stays_test functions test ready integer).valueOf.along (makes_expr scope .value e ready).valueOf).mono ?_
  rintro typed s₁ ⟨first, integer₁, same, ty⟩
  rcases ty with ty | ty
  · simp only [ty, wp_build]
    exact ⟨integer₁.define (first.ready ready) ⟨rfl, ty, rfl⟩, same, trivial⟩
  · simp only [ty, wp_pure]
    exact ⟨integer₁, same, trivial⟩

theorem module_joined (s : FunctionState) (merge : Nat) : (joined s merge).module = s.module := by
  unfold joined
  split <;> rfl

abbrev Carries (scope : Scope) (x : Lower Unit) (s : FunctionState) : Prop :=
  Wp x s (fun _ s' => Passes s s' ∧ Integer scope s' ∧ s'.module = s.module) fun _ _ => True

theorem Stays.passing {x : Lower Unit} (run : Stays scope x s fun _ => True)
    (passes : Wp x s (fun _ s' => Passes s s') fun _ _ => True) : Carries scope x s :=
  (passes.and run).imp (fun _ _ ⟨passes, integer, same, _⟩ => ⟨passes, integer, same⟩) fun _ _ _ => trivial

theorem Stays.passingBlock {b : Block} (run : Stays scope (block scope true b) s fun _ => True) (ready : Ready s) :
    Carries scope (block scope true b) s :=
  run.passing ((passes_block scope true b ready).mono fun _ _ => And.left)

theorem Stays.passingStmt {st : Stmt} (run : Stays scope (stmt scope true st) s fun _ => True) (ready : Ready s) :
    Carries scope (stmt scope true st) s :=
  run.passing ((passes_stmt scope true st ready).mono fun _ _ => And.left)

theorem stays_loop (functions : scope.IsInteger) {test : Expr} (tests : test.isTest = true) {body step : Lower Unit}
    (ready : Ready s) (integer : Integer scope s)
    (bodyRun : ∀ {s}, Ready s → Integer scope s → Carries scope body s)
    (stepRun : ∀ {s}, Ready s → Integer scope s → Carries scope step s) :
    Stays scope (loop scope test body step) s fun _ => True := by
  rw [Stays, wp_loop rfl]
  have atTest := ready.track ready.sound.enterLoop.track
  have integer₁ := integer.enterLoop ready
  refine ((makes_condition scope test atTest).and (stays_condition functions tests atTest integer₁)).imp
    (fun cond s₁ ⟨⟨⟨_, tested⟩, bit⟩, integer₂, same₂, _⟩ => ?_) fun _ _ _ => trivial
  have ready₂ := (inBody_track ready tested bit).1
  refine (bodyRun ready₂ (integer₂.inBody (tested.ready atTest) _ cond)).mono fun _ s₃ ⟨filled, integer₃, same₃⟩ => ?_
  split
  · exact ⟨integer₃.goOnIn _, same₃.trans same₂, trivial⟩
  · refine (stepRun filled.ready integer₃).mono fun _ s₄ ⟨stepped, integer₄, same₄⟩ => ?_
    have jumped := integer₄.terminate stepped.ready (Terminator.plain_br (Nat.ne_of_gt ready.sound.laid.size_pos))
    exact ⟨jumped.goOnIn _, same₄.trans (same₃.trans same₂), trivial⟩

mutual

theorem stays_stmt (functions : scope.IsInteger) : (st : Stmt) → st.isInteger = true → {s : FunctionState} →
    Ready s → Integer scope s → Stays scope (stmt scope true st) s fun _ => True
  | .letIn _ name ty none, int, s, ready, integer => by
    simp only [Stmt.isInteger, decide_eq_true_eq] at int
    subst int
    simp only [Stays, stmt, wp_bind, wp_build, wp_bindLocal]
    exact ⟨(integer.alloca ready).bindLocal (ready.sound.laid.isAddress_alloca _) name, trivial, trivial⟩
  | .letIn _ name ty (some e), int, s, ready, integer => by
    simp only [Stmt.isInteger, Bool.and_eq_true, decide_eq_true_eq] at int
    obtain ⟨rfl, number⟩ := int
    have slot := ready.alloca (.int 64)
    have address := ready.sound.laid.isAddress_alloca (.int 64)
    have ready₁ := slot.ready ready
    simp only [Stays, stmt, wp_bind, wp_build, wp_write, wp_bindLocal]
    refine ((stays_expr functions e number ready₁ (integer.alloca ready)).valueOf.along
      (makes_expr scope .value e ready₁).valueOf).mono fun typed s₂ ⟨second, integer₂, same, ty⟩ => ?_
    have stored := integer₂.emit (i := .store typed.value _) (second.ready ready₁) ⟨ty, address⟩
    exact ⟨stored.bindLocal address name, same, trivial⟩
  | .ret _ none, _, s, ready, integer => by
    simp only [Stays, stmt, wp_terminate]
    exact ⟨integer.terminate ready ⟨nofun, by simp [Terminator.successors]⟩, trivial, trivial⟩
  | .ret _ (some e), int, s, ready, integer => by
    rw [Stmt.isInteger] at int
    simp only [Stays, stmt, wp_bind, wp_terminate]
    refine ((stays_expr functions e int ready integer).valueOf.along (makes_expr scope .value e ready).valueOf).mono
      fun typed s₁ ⟨first, integer₁, same, ty⟩ => ?_
    refine ⟨integer₁.terminate (first.ready ready) ⟨?_, by simp [Terminator.successors]⟩, same, trivial⟩
    rintro v ⟨⟩
    exact ty
  | .cond _ chain, int, s, ready, integer => by
    rw [Stmt.isInteger] at int
    simp only [Stays, stmt, wp_bind, wp_build, wp_continueIn, FunctionBuilder.create_fst]
    have track := (FunctionBuilder.Track.start ready.sound).create "if.end"
    have idle := FunctionBuilder.Idle.created ready.sound.laid "if.end"
    refine (stays_ifChain functions chain int (ready.track track) (integer.blocks (integer.plain.create _)) idle.known
      (Nat.ne_of_gt ready.sound.laid.size_pos)).mono fun _ s₁ ⟨integer₁, same, _⟩ => ?_
    exact ⟨integer₁.goOnIn _, same, trivial⟩
  | .while _ test body, int, s, ready, integer => by
    simp only [Stmt.isInteger, Bool.and_eq_true] at int
    simp only [stmt]
    refine stays_loop functions int.1 ready integer (fun ready integer => ?_) fun ready integer => ?_
    · exact (stays_block functions body int.2 ready integer).passingBlock ready
    · exact ⟨ready.passes, integer, rfl⟩
  | .for _ init test step body, int, s, ready, integer => by
    simp only [Stmt.isInteger, Bool.and_eq_true] at int
    obtain ⟨⟨⟨int, tests⟩, steps⟩, bodies⟩ := int
    simp only [Stays, stmt, wp_inScope, wp_bind, if_true]
    refine ((stays_stmt functions init int ready integer).passingStmt ready).mono
      fun _ s₁ ⟨first, integer₁, same₁⟩ => ?_
    refine (stays_loop functions tests first.ready integer₁ (fun ready integer => ?_) fun ready integer => ?_).mono
      fun _ s₂ ⟨integer₂, same₂, _⟩ => ?_
    · exact (stays_block functions body bodies ready integer).passingBlock ready
    · exact (stays_evaluate functions steps ready integer).passing (passes_evaluate scope step ready)
    · exact ⟨integer.restore integer₂, same₂.trans same₁, trivial⟩
  | .expr e, int, s, ready, integer => by
    rw [Stmt.isInteger] at int
    simp only [stmt]
    exact stays_evaluate functions int ready integer
termination_by structural st => st

theorem stays_ifChain (functions : scope.IsInteger) {merge : Nat} : (chain : IfChain) → chain.isInteger = true →
    {s : FunctionState} → Ready s → Integer scope s → merge < s.function.arena.length → merge ≠ 0 →
    Stays scope (ifChain scope true merge chain) s fun _ => True
  | .branch test body rest, int, s, ready, integer, known, later => by
    simp only [IfChain.isInteger, Bool.and_eq_true] at int
    obtain ⟨⟨tests, bodies⟩, others⟩ := int
    rw [Stays, wp_ifBranch]
    refine ((makes_condition scope test ready).and (stays_condition functions tests ready integer)).imp
      (fun cond s₁ ⟨⟨⟨_, tested⟩, bit⟩, integer₁, same₁, _⟩ => ?_) fun _ _ _ => trivial
    have ready₁ := tested.ready ready
    have available := tested.available _ (List.mem_singleton_self _)
    have inside := ready₁.track (ready₁.sound.enterBranch available bit).track
    refine ((stays_block functions body bodies inside (integer₁.enterBranch ready₁ cond)).passingBlock inside).mono
      fun _ s₂ ⟨filled, integer₂, same₂⟩ => ?_
    have known₁ := Nat.lt_of_lt_of_le known tested.straight.grows.size
    have next := passes_branch ready₁ available bit known₁ filled
    refine (stays_ifChain functions rest others next.ready ((integer₂.joined filled.ready later).goOnIn _)
      (Nat.lt_of_lt_of_le known₁ next.advances.grows.size) later).mono fun _ s₃ ⟨integer₃, same₃, _⟩ => ?_
    exact ⟨integer₃, same₃.trans ((module_joined s₂ merge).trans (same₂.trans same₁)), trivial⟩
  | .otherwise body, int, s, ready, integer, known, later => by
    rw [IfChain.isInteger] at int
    simp only [Stays, ifChain, wp_bind, wp_branchTo]
    refine ((stays_block functions body int ready integer).passingBlock ready).mono
      fun _ s₁ ⟨filled, integer₁, same⟩ => ?_
    exact ⟨integer₁.joined filled.ready later, (module_joined s₁ merge).trans same, trivial⟩
  | .done, _, s, ready, integer, known, later => by
    simp only [Stays, ifChain, wp_branchTo]
    exact ⟨integer.joined ready later, module_joined s merge, trivial⟩
termination_by structural chain => chain

theorem stays_block (functions : scope.IsInteger) : (b : Block) → b.isInteger = true → {s : FunctionState} →
    Ready s → Integer scope s → Stays scope (block scope true b) s fun _ => True
  | ⟨body, _⟩, int, s, ready, integer => by
    rw [Block.isInteger] at int
    simp only [Stays, block, wp_inScope, if_true]
    refine (stays_stmts functions body int ready integer).mono fun _ s₁ ⟨integer₁, same, _⟩ => ?_
    exact ⟨integer.restore integer₁, same, trivial⟩
termination_by structural b => b

theorem stays_stmts (functions : scope.IsInteger) : (body : List Stmt) → Stmt.areInteger body = true →
    {s : FunctionState} → Ready s → Integer scope s → Stays scope (stmts scope true body) s fun _ => True
  | [], _, s, _, integer => ⟨integer, rfl, trivial⟩
  | st :: rest, int, s, ready, integer => by
    simp only [Stmt.areInteger, Bool.and_eq_true] at int
    simp only [Stays, stmts, wp_bind]
    refine ((stays_stmt functions st int.1 ready integer).passingStmt ready).mono
      fun _ s₁ ⟨first, integer₁, same₁⟩ => ?_
    refine (stays_stmts functions rest int.2 first.ready integer₁).mono fun _ s₂ ⟨integer₂, same₂, _⟩ => ?_
    exact ⟨integer₂, same₂.trans same₁, trivial⟩
termination_by structural body => body

end

theorem integer_storedParam (ready : Ready s) (integer : Integer scope s) (index : Nat) {p : Param} (ty : p.ty = .int 64) :
    Integer scope (storedParam s index p) := by
  have address := ready.sound.laid.isAddress_alloca (.int 64)
  have stored := (integer.alloca ready).emit (i := .store (.arg index (.int 64)) _) ((ready.alloca _).ready ready)
    ⟨rfl, address⟩
  have bound := stored.bindLocal address p.name
  simp only [storedParam, ty]
  exact bound

theorem stays_params : (ps : List Param) → (∀ p ∈ ps, p.ty = .int 64) → (index : Nat) → {s : FunctionState} → Ready s →
    Integer scope s → index + ps.length ≤ s.function.params.length → Stays scope (params index ps) s fun _ => True
  | [], _, _, _, _, integer, _ => ⟨integer, rfl, trivial⟩
  | p :: rest, tys, index, s, ready, integer, bound => by
    rw [List.length_cons] at bound
    have first := passes_storedParam p ready (by omega : index < s.function.params.length)
    rw [Stays, wp_params_cons]
    refine stays_params rest (fun p member => tys p (List.mem_cons_of_mem _ member)) (index + 1) first.ready
      (integer_storedParam ready integer index (tys p (List.mem_cons_self ..))) ?_
    rw [first.advances.grows.params]
    omega

theorem params_of_isInteger {f : Signature} (integer : f.isInteger = true) : ∀ p ∈ f.params, p.ty = .int 64 := by
  simp only [Signature.isInteger, Bool.and_eq_true, List.all_eq_true, decide_eq_true_eq] at integer
  exact integer.1

theorem integer_entered (scope : Scope) (m : ModuleBuilder) (f : FunctionDecl) : Integer scope (entered m f) := by
  refine ⟨⟨?_, nofun, ?_⟩, nofun⟩
  · intro id i member
    rw [code_entered] at member
    cases member
  · intro id t exit
    rw [exit_entered] at exit
    cases exit

/-- The body of a function over numbers is plain code. -/
theorem plain_body (functions : scope.IsInteger) (m : ModuleBuilder) {f : FunctionDecl}
    (signature : f.signature.isInteger = true) (int : f.body.isInteger = true) :
    Wp (body scope true f) (startOf m f) (fun _ s' => s'.function.Plain scope ∧ s'.module = m) fun _ _ => True := by
  rw [wp_body]
  have bound : 0 + f.signature.params.length ≤ (entered m f).function.params.length := by
    simp [params_entered, Signature.irParams]
  refine ((stays_params f.signature.params (params_of_isInteger signature) 0 (ready_entered m f)
    (integer_entered scope m f) bound).passing (passes_params f.signature.params 0 (ready_entered m f) bound)).mono ?_
  rintro _ s₁ ⟨stored, integer₁, same₁⟩
  refine ((stays_block functions f.body int stored.ready integer₁).passingBlock stored.ready).mono ?_
  rintro _ s₂ ⟨filled, integer₂, same₂⟩
  have same := same₂.trans same₁
  unfold closed
  split
  · exact ⟨integer₂.plain, same⟩
  · refine ⟨(integer₂.terminate filled.ready ?_).plain, same⟩
    split
    · exact ⟨by rintro _ ⟨⟩, by simp [Terminator.successors]⟩
    · exact ⟨by rintro _ ⟨⟩, by simp [Terminator.successors]⟩

end Lower

end StructLang
