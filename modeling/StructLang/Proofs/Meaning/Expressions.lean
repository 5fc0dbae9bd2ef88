import StructLang.Proofs.Meaning.Matching

namespace StructLang

open Ir

def Meaning.Shown (args : List Int64) (a : Activation) : Meaning → Option Typed → Prop
  | .int n, some typed => typed.value.ty = .int 64 ∧ typed.value.eval args a = some n
  | .truth holds, some typed => typed.value.ty = .int 1 ∧ typed.value.eval args a = some (if holds then 1 else 0)
  | .nothing, none => True
  | _, _ => False

namespace Meaning.Shown

variable {args : List Int64} {a : Activation} {v : Meaning} {typed : Typed}

theorem of_number (shown : v.Shown args a (some typed)) (number : typed.value.ty = .int 64) :
    ∃ n, v = .int n ∧ typed.value.eval args a = some n := by
  cases v with
  | int n => exact ⟨n, rfl, shown.2⟩
  | truth => cases number.symm.trans shown.1
  | nothing => exact shown.elim

theorem of_bit (shown : v.Shown args a (some typed)) (bit : typed.value.ty = .int 1) :
    ∃ holds, v = .truth holds ∧ typed.value.eval args a = some (if holds then 1 else 0) := by
  cases v with
  | int => cases bit.symm.trans shown.1
  | truth holds => exact ⟨holds, rfl, shown.2⟩
  | nothing => exact shown.elim

end Meaning.Shown

def Meaning.IsResult (returns : Ty) : Meaning → Option Int64 → Prop
  | .int n, some m => n = m ∧ returns = .int 64
  | .nothing, none => returns = .void
  | _, _ => False

def Ir.Site.Answers (site : Site) (scope : Scope) (call : Answers) : Prop :=
  ∀ {name ns v}, call name ns = some v → ∃ depth f answer, site.depth = depth + 1 ∧
    scope.functions.get? name = some f ∧ v.IsResult f.returns answer ∧ site.module.Returns depth name ns answer

def Ir.Site.Leads {β : Type} (site : Site) (s s' : FunctionBuilder) (slots : Slots)
    (run : Locals → Option (β × Locals)) (shown : β → Activation → Prop) : Prop :=
  ∀ l a v l' result, site.Matches slots l a → run l = some (v, l') →
    (∀ a', site.Matches slots l' a' → Keeps s.nextReg a a' → shown v a' → site.Continues s' a' result) →
    site.Continues s a result

namespace Ir.Site

variable {site : Site} {s : FunctionBuilder} {a a' : Activation} {result : Option Int64}

theorem Continues.define {t : Ir.Ty} {f : Reg → Instruction} (laid : s.Laid) (unfinished : s.isTerminated = false)
    (ordinary : (f ⟨s.nextReg, t⟩).isSlot = false) (grows : (s.define t f).2.Grows site.builder)
    (applied : (f ⟨s.nextReg, t⟩).apply site.args a = some a')
    (next : site.Continues (s.define t f).2 a' result) : site.Continues s a result := by
  have bumped := Continues.emit (laid.bump (s.nextReg + 1)) unfinished ordinary grows applied next
  exact bumped.same (laid.target_bump _) rfl

theorem Continues.store {v : Value} {r : Reg} {n : Int64} {content : Option Int64} (laid : s.Laid)
    (unfinished : s.isTerminated = false) (grows : (s.emit (.store v (.reg r))).Grows site.builder)
    (value : v.eval site.args a = some n) (held : a.slots r.id = some content)
    (next : site.Continues (s.emit (.store v (.reg r))) (a.setSlot r (some n)) result) : site.Continues s a result := by
  refine Continues.emit laid unfinished rfl grows ?_ next
  simp [Instruction.apply, value, held]

end Ir.Site

/-- An operator on numbers is an operation or a comparison of them. -/
theorem BinaryOp.apply_eq (op : BinaryOp) (x y : Int64) : op.apply x y = match op.onInts with
    | .inl op => (op.eval x y).map .int
    | .inr pred => some (.truth (pred.eval x y)) := by
  cases op <;> simp only [BinaryOp.apply, BinaryOp.onInts, BinOp.eval, IntPred.eval, Option.map_some]
  split <;> rfl

namespace Lower

variable {scope : Scope} {call : Answers} {site : Site} {s : FunctionState} {α β : Type}

/-- An action writes code that does what `run` says, or fails. -/
def Simulates (site : Site) (x : Lower α) (s : FunctionState) (run : Locals → Option (β × Locals))
    (shown : α → β → Activation → Prop) : Prop :=
  Wp x s (fun r s' => ∀ slots, Binds s slots → s.function.isTerminated = false → s'.function.Grows site.builder →
    site.Leads s.function s'.function slots run (shown r)) fun _ _ => True

theorem Simulates.valueOf {e : Expr} {x : Lower (Option Typed)}
    (run : Simulates site x s (e.eval call) fun result v a => v.Shown site.args a result) :
    Simulates site (valueOf e x) s (e.number call) fun typed n a =>
      typed.value.ty = .int 64 ∧ typed.value.eval site.args a = some n := by
  rw [Simulates, wp_valueOf]
  refine run.mono fun result s' leads => ?_
  cases result with
  | none => trivial
  | some typed =>
    intro slots binds unfinished grows l a n l' result matched number next
    exact leads slots binds unfinished grows l a _ l' result matched (Expr.eval_of_number number) next

theorem Simulates.along {x : Lower α} {run : Locals → Option (β × Locals)} {shown : α → β → Activation → Prop}
    (simulates : Simulates site x s run shown) {emits : Bool} {values : α → List Ir.Value} (makes : Makes x s emits values)
    {post : α → Prop} (stays : Stays scope x s post) :
    Wp x s (fun r s' => Yields s emits (values r) s' ∧ Integer scope s' ∧ post r ∧
      ∀ slots, Binds s slots → s.function.isTerminated = false → s'.function.Grows site.builder →
        site.Leads s.function s'.function slots run (shown r)) fun _ _ => True :=
  ((makes.and stays).and simulates).imp
    (fun _ _ ⟨⟨yields, integer, _, holds⟩, leads⟩ => ⟨yields, integer, holds, leads⟩) fun _ _ _ => trivial

theorem eval_setReg (r : Reg) (a : Activation) (n : Int64) {args : List Int64} :
    (Value.reg r).eval args (a.setReg r n) = some n := by
  simp [Value.eval, Activation.setReg]

theorem continues_combine (site : Site) (op : BinaryOp) {lhs rhs : Typed} (ready : Ready s) (left : lhs.value.ty = .int 64) :
    Wp (combine op lhs rhs) s (fun typed s' => s.function.isTerminated = false → s'.function.Grows site.builder →
      ∀ a x y v result, lhs.value.eval site.args a = some x → rhs.value.eval site.args a = some y → op.apply x y = some v →
        (∀ r n, s.function.nextReg ≤ r.id → v.Shown site.args (a.setReg r n) (some typed) →
          site.Continues s'.function (a.setReg r n) result) → site.Continues s.function a result) fun _ _ => True := by
  simp only [combine, left, BinaryOp.apply_eq]
  cases op.onInts with
  | inl op =>
    simp only [wp_bind, wp_build, wp_pure]
    intro unfinished grows a x y v result evalLeft evalRight applied next
    obtain ⟨n, computed, rfl⟩ := Option.map_eq_some_iff.mp applied
    refine Site.Continues.define ready.sound.laid unfinished rfl grows ?_
      (next ⟨s.function.nextReg, lhs.value.ty⟩ n (Nat.le_refl _) ⟨left, ?_⟩)
    · simp [Instruction.apply, evalLeft, evalRight, computed]
    · exact eval_setReg _ a n
  | inr pred =>
    simp only [wp_bind, wp_build, wp_pure]
    intro unfinished grows a x y v result evalLeft evalRight applied next
    cases applied
    refine Site.Continues.define ready.sound.laid unfinished rfl grows ?_
      (next ⟨s.function.nextReg, .int 1⟩ (if pred.eval x y then 1 else 0) (Nat.le_refl _) ⟨rfl, ?_⟩)
    · simp [Instruction.apply, evalLeft, evalRight]
    · exact eval_setReg _ a _

theorem eval_setSlot (r : Reg) (a : Activation) (content : Option Int64) (args : List Int64) (v : Ir.Value) :
    v.eval args (a.setSlot r content) = v.eval args a := by
  cases v <;> rfl

/-- The operands of an operator are computed one after the other. -/
theorem simulates_binary (ready : Ready s) (span : Span) (op : BinaryOp) {lhs rhs : Expr}
    (left : Simulates site (expr scope .value lhs) s (lhs.eval call) fun result v a => v.Shown site.args a result)
    (leftStays : Stays scope (expr scope .value lhs) s Numeric)
    (right : ∀ {s}, Ready s → Integer scope s →
      Simulates site (expr scope .value rhs) s (rhs.eval call) fun result v a => v.Shown site.args a result)
    (rightStays : ∀ {s}, Ready s → Integer scope s → Stays scope (expr scope .value rhs) s Numeric) :
    Simulates site (expr scope .value (.binary span op lhs rhs)) s ((Expr.binary span op lhs rhs).eval call)
      fun result v a => v.Shown site.args a result := by
  simp only [Simulates, expr, wp_bind]
  refine (left.valueOf.along (makes_expr scope .value lhs ready).valueOf leftStays.valueOf).mono ?_
  rintro x s₁ ⟨first, integer₁, ty, leads₁⟩
  have ready₁ := first.ready ready
  refine ((right ready₁ integer₁).valueOf.along (makes_expr scope .value rhs ready₁).valueOf
    (rightStays ready₁ integer₁).valueOf).mono ?_
  rintro y s₂ ⟨second, -, -, leads₂⟩
  have both := first.trans ready second
  have ready₂ := both.ready ready
  rw [wp_map]
  refine ((makes_combine ready₂ both.available).and (continues_combine site op ready₂ ty)).imp ?_ fun _ _ _ => trivial
  rintro z s₃ ⟨third, combined⟩
  intro slots binds unfinished grows l a v l' result matched evaluated next
  obtain ⟨n, l₁, k, evalLeft, evalRight, applied⟩ := Expr.eval_binary evaluated
  have unfinished₁ := (first.straight.stays unfinished).1
  have grows₂ := third.straight.grows.trans grows
  refine leads₁ slots binds unfinished (second.straight.grows.trans grows₂) l a n l₁ result matched evalLeft ?_
  rintro a₁ matched₁ keeps₁ ⟨-, shown₁⟩
  refine leads₂ slots (binds.grow first.straight.grows first.locals) unfinished₁ grows₂ l₁ a₁ k l' result matched₁ evalRight ?_
  rintro a₂ matched₂ keeps₂ ⟨-, shown₂⟩
  have kept := keeps₂.eval first.sound (first.available _ (List.mem_singleton_self _)) site.args
  refine combined (both.straight.stays unfinished).1 grows a₂ n k v result (kept.trans shown₁) shown₂ applied
    fun r m new shown => next _ (matched₂.congr rfl) ?_ shown
  exact (keeps₁.trans first.straight.grows.regs keeps₂).trans both.straight.grows.regs (keeps_setReg new a₂ m)

/-- A call comes back with the answer of the function. -/
theorem continues_call (site : Site) (name : String) (values : List Ir.Value) (f : Signature) (ready : Ready s) :
    Wp (build (·.call name values (.ofSource f.returns))) s (fun returned s' => s.function.isTerminated = false →
      s'.function.Grows site.builder → ∀ a ns (v : Meaning) depth answer result, site.depth = depth + 1 →
        values.map (·.eval site.args a) = ns.map some → v.IsResult f.returns answer →
        site.module.Returns depth name ns answer →
        (∀ a', a'.slots = a.slots → Keeps s.function.nextReg a a' →
          v.Shown site.args a' (returned.map (⟨·, f.returns⟩)) → site.Continues s'.function a' result) →
        site.Continues s.function a result) fun _ _ => True := by
  have laid := ready.sound.laid
  simp only [wp_build, FunctionBuilder.call]
  intro unfinished grows a ns v depth answer result deep passed isResult returns next
  cases v with
  | truth holds => exact isResult.elim
  | nothing =>
    cases answer with
    | some n => exact isResult.elim
    | none =>
      have void : Ir.Ty.ofSource f.returns = .void := by rw [show f.returns = .void from isResult]; rfl
      simp only [void, if_true] at grows next
      exact .call laid unfinished grows deep passed returns rfl (next a rfl (.refl _ _) trivial)
  | int n =>
    cases answer with
    | none => exact isResult.elim
    | some m =>
      obtain ⟨rfl, number⟩ := isResult
      simp only [number, Ir.Ty.ofSource, reduceCtorEq, if_false] at grows next
      have bumped := Site.Continues.call (laid.bump (s.function.nextReg + 1)) unfinished grows deep passed returns rfl
        (next (a.setReg ⟨s.function.nextReg, .int 64⟩ n) rfl (keeps_setReg (r := ⟨_, _⟩) (Nat.le_refl _) a n)
          ⟨rfl, eval_setReg _ a n⟩)
      exact bumped.same (laid.target_bump _) rfl

mutual

theorem simulates_expr (functions : scope.IsInteger) (answers : site.Answers scope call) :
    (e : Expr) → e.isNumber = true → {s : FunctionState} → Ready s → Integer scope s →
    Simulates site (expr scope .value e) s (e.eval call) fun result v a => v.Shown site.args a result
  | .int _ n, _, s, _, _ => by
    intro slots binds unfinished grows l a v l' result matched evaluated next
    cases evaluated
    exact next a matched (.refl _ _) ⟨rfl, rfl⟩
  | .variable _ name, _, s, ready, integer => by
    simp only [Simulates, expr, wp_bind, wp_get]
    cases found : s.locals.get? name with
    | none => trivial
    | some slot =>
      simp only [wp_map, access, wp_bind, wp_build, wp_pure]
      intro slots binds unfinished grows l a v l' result matched evaluated next
      obtain ⟨n, read, rfl, rfl⟩ := Expr.eval_variable evaluated
      obtain ⟨id, known, held⟩ := matched.stored.read read
      have same := binds.names name
      rw [found, known] at same
      cases same
      refine Site.Continues.define ready.sound.laid unfinished rfl grows ?_
        (next (a.setReg ⟨s.function.nextReg, .int 64⟩ n) (matched.congr rfl) (keeps_setReg (r := ⟨_, _⟩) (Nat.le_refl _) a n)
          ⟨rfl, eval_setReg _ a n⟩)
      simp [Instruction.apply, Ir.Ty.ofSource, held]
  | .assign _ target value, number, s, ready, integer => by
    cases target with
    | «variable» _ name =>
      rw [Expr.isNumber] at number
      simp only [Simulates, expr, wp_bind]
      refine ((simulates_expr functions answers value number ready integer).valueOf.along
        (makes_expr scope .value value ready).valueOf
        (stays_expr functions value number ready integer).valueOf).mono fun typed s₁ ⟨first, integer₁, ty, leads⟩ => ?_
      have ready₁ := first.ready ready
      simp only [addressOf, Expr.hasStorage, if_true, wp_valueOf, wp_bind, wp_get, wp_write, wp_pure]
      cases found : s₁.locals.get? name with
      | none => trivial
      | some slot =>
        intro slots binds unfinished grows l a v l' result matched evaluated next
        obtain ⟨n, l₁, number, assigned, rfl⟩ := Expr.eval_assign evaluated
        have stored := ready₁.sound.laid.grows_emit (i := .store typed.value slot.value) rfl
        refine leads slots binds unfinished (stored.trans grows) l a n l₁ result matched number
          fun a₁ matched₁ keeps₁ ⟨_, shown⟩ => ?_
        have binds₁ := binds.grow first.straight.grows first.locals
        obtain ⟨id, known, member, changed⟩ := matched₁.stored.assign binds₁.distinct assigned
        have same := binds₁.names name
        rw [found, known] at same
        cases same
        obtain ⟨content, held⟩ := matched₁.framed _ (defs_subset (stored.trans grows).slots (binds₁.placed _ member))
        exact Site.Continues.store ready₁.sound.laid (first.straight.stays unfinished).1 grows shown held
          (next _ (matched₁.setSlot changed) keeps₁ ⟨ty, (eval_setSlot ..).trans shown⟩)
    | _ => simp [Expr.isNumber] at number
  | .binary span op lhs rhs, number, s, ready, integer => by
    simp only [Expr.isNumber, Bool.and_eq_true] at number
    obtain ⟨⟨_, left⟩, right⟩ := number
    exact simulates_binary ready span op (simulates_expr functions answers lhs left ready integer)
      (stays_expr functions lhs left ready integer) (simulates_expr functions answers rhs right)
      (stays_expr functions rhs right)
  | .unary _ .neg operand, number, s, ready, integer => by
    rw [Expr.isNumber] at number
    simp only [Simulates, expr, wp_bind]
    refine ((simulates_expr functions answers operand number ready integer).valueOf.along
      (makes_expr scope .value operand ready).valueOf
      (stays_expr functions operand number ready integer).valueOf).mono fun typed s₁ ⟨first, _, ty, leads⟩ => ?_
    have ready₁ := first.ready ready
    simp only [wp_map, negate, ty, wp_bind, wp_build, wp_pure]
    intro slots binds unfinished grows l a v l' result matched evaluated next
    obtain ⟨n, number, rfl⟩ := Expr.eval_neg evaluated
    have negated : s₁.function.Straight (s₁.function.define typed.value.ty (.neg · typed.value)).2 :=
      ready₁.sound.laid.straight_define rfl
    refine leads slots binds unfinished (negated.grows.trans grows) l a n l' result matched number
      fun a₁ matched₁ keeps₁ ⟨_, shown⟩ => ?_
    refine Site.Continues.define ready₁.sound.laid (first.straight.stays unfinished).1 rfl grows ?_
      (next (a₁.setReg ⟨s₁.function.nextReg, typed.value.ty⟩ (-n)) (matched₁.congr rfl) ?_ ⟨ty, eval_setReg _ a₁ _⟩)
    · simp [Instruction.apply, shown]
    · exact keeps₁.trans first.straight.grows.regs (keeps_setReg (r := ⟨_, _⟩) (Nat.le_refl _) a₁ _)
  | .call _ name _ args, number, s, ready, integer => by
    rw [Expr.isNumber] at number
    simp only [Simulates, expr, wp_bind]
    refine (wp_callee scope name).mono fun returns s₁ ⟨unchanged, f, known, returned⟩ => ?_
    subst unchanged returned
    refine ((simulates_exprs functions answers args number ready integer).along (makes_exprs scope args ready)
      (stays_exprs functions args number ready integer)).mono fun values s₂ ⟨second, _, _, leads⟩ => ?_
    have ready₂ := second.ready ready
    refine ((makes_call ready₂ second.available (.ofSource f.returns)).and
      (continues_call site name values f ready₂)).imp (fun returned s₃ ⟨third, calls⟩ => ?_) fun _ _ _ => trivial
    intro slots binds unfinished grows l a v l' result matched evaluated next
    obtain ⟨ns, passed, answered⟩ := Expr.eval_call evaluated
    obtain ⟨depth, f', answer, deep, known', isResult, returns⟩ := answers answered
    cases known.symm.trans known'
    refine leads slots binds unfinished (third.straight.grows.trans grows) l a ns l' result matched passed
      fun a₁ matched₁ keeps₁ shown => ?_
    refine calls (second.straight.stays unfinished).1 grows a₁ ns v depth answer result deep shown isResult returns
      fun a₂ same keeps₂ shown => ?_
    exact next a₂ (matched₁.congr same) (keeps₁.trans second.straight.grows.regs keeps₂) shown
  | .float .., number, _, _, _ | .string .., number, _, _, _ | .field .., number, _, _, _ | .index .., number, _, _, _
  | .struct .., number, _, _, _ | .unary _ .ref _, number, _, _, _ | .unary _ .deref _, number, _, _, _ => by
    simp [Expr.isNumber] at number
termination_by structural e => e

theorem simulates_exprs (functions : scope.IsInteger) (answers : site.Answers scope call) :
    (es : List Expr) → Expr.areNumbers es = true → {s : FunctionState} → Ready s → Integer scope s →
    Simulates site (exprs scope es) s (Expr.evalArgs call · es) fun values ns a =>
      values.map (·.eval site.args a) = ns.map some
  | [], _, s, _, _ => by
    intro slots binds unfinished grows l a v l' result matched evaluated next
    cases evaluated
    exact next a matched (.refl _ _) rfl
  | e :: rest, numbers, s, ready, integer => by
    simp only [Expr.areNumbers, Bool.and_eq_true] at numbers
    simp only [Simulates, exprs, wp_bind]
    refine ((simulates_expr functions answers e numbers.1 ready integer).valueOf.along
      (makes_expr scope .value e ready).valueOf
      (stays_expr functions e numbers.1 ready integer).valueOf).mono fun typed s₁ ⟨first, integer₁, _, leads₁⟩ => ?_
    have ready₁ := first.ready ready
    refine ((simulates_exprs functions answers rest numbers.2 ready₁ integer₁).along (makes_exprs scope rest ready₁)
      (stays_exprs functions rest numbers.2 ready₁ integer₁)).mono fun values s₂ ⟨second, _, _, leads₂⟩ => ?_
    intro slots binds unfinished grows l a v l' result matched evaluated next
    obtain ⟨n, l₁, ns, number, others, rfl⟩ := Expr.evalArgs_cons evaluated
    refine leads₁ slots binds unfinished (second.straight.grows.trans grows) l a n l₁ result matched number
      fun a₁ matched₁ keeps₁ ⟨_, shown₁⟩ => ?_
    refine leads₂ slots (binds.grow first.straight.grows first.locals) (first.straight.stays unfinished).1 grows l₁ a₁ ns l'
      result matched₁ others fun a₂ matched₂ keeps₂ shown₂ => ?_
    have kept := keeps₂.eval first.sound (first.available _ (List.mem_singleton_self _)) site.args
    refine next a₂ matched₂ (keeps₁.trans first.straight.grows.regs keeps₂) ?_
    simp [kept, shown₁, shown₂]
termination_by structural es => es

end

section Induction

variable (functions : scope.IsInteger) (answers : site.Answers scope call)
include functions answers

theorem simulates_test {e : Expr} (test : e.isTest = true) (ready : Ready s) (integer : Integer scope s) :
    Simulates site (expr scope .value e) s (e.eval call) fun result v a => v.Shown site.args a result := by
  cases e with
  | binary span op lhs rhs =>
    simp only [Expr.isTest, Bool.and_eq_true] at test
    exact simulates_binary ready span op (simulates_expr functions answers lhs test.1 ready integer)
      (stays_expr functions lhs test.1 ready integer) (simulates_expr functions answers rhs test.2)
      (stays_expr functions rhs test.2)
  | _ => exact simulates_expr functions answers _ test ready integer

theorem simulates_evaluate {e : Expr} (test : e.isTest = true) (ready : Ready s) (integer : Integer scope s) :
    Simulates site (evaluate scope e) s (e.eval call) fun _ _ _ => True := by
  simp only [Simulates, evaluate, wp_bind, wp_pure]
  refine (simulates_test functions answers test ready integer).mono fun _ s₁ leads => ?_
  intro slots binds unfinished grows l a v l' result matched evaluated next
  exact leads slots binds unfinished grows l a v l' result matched evaluated
    fun a₁ matched₁ keeps _ => next a₁ matched₁ keeps trivial

/-- The condition of a branch is not zero where the test holds. -/
theorem simulates_condition {e : Expr} (test : e.isTest = true) (ready : Ready s) (integer : Integer scope s) :
    Simulates site (condition scope e) s (e.test call) fun cond holds a =>
      ∃ n, cond.eval site.args a = some n ∧ (n ≠ 0 ↔ holds = true) := by
  simp only [Simulates, condition, wp_bind, wp_valueOf]
  refine ((simulates_test functions answers test ready integer).along (makes_expr scope .value e ready)
    (stays_test functions test ready integer)).mono ?_
  rintro shown s₁ ⟨first, -, testable, leads⟩
  cases shown with
  | none => trivial
  | some typed =>
    have laid := first.sound.laid
    rcases testable typed rfl with number | bit
    · simp only [Option.elim_some, number, wp_build]
      intro slots binds unfinished grows l a holds l' result matched tested next
      obtain ⟨v, evaluated, holding⟩ := Expr.eval_of_test tested
      have compared : s₁.function.Straight (s₁.function.define (.int 1) (.icmp · .ne typed.value (.int 0 64))).2 :=
        laid.straight_define rfl
      refine leads slots binds unfinished (compared.grows.trans grows) l a v l' result matched evaluated
        fun a₁ matched₁ keeps₁ shown => ?_
      obtain ⟨n, rfl, value⟩ := shown.of_number number
      cases holding
      refine Site.Continues.define laid (first.straight.stays unfinished).1 rfl grows ?_
        (next (a₁.setReg ⟨s₁.function.nextReg, .int 1⟩ (if n ≠ 0 then 1 else 0)) (matched₁.congr rfl) ?_
          ⟨_, eval_setReg _ a₁ _, ?_⟩)
      · have zero : (Value.int 0 64).eval site.args a₁ = some 0 := rfl
        simp [Instruction.apply, value, zero, IntPred.eval]
      · exact keeps₁.trans first.straight.grows.regs (keeps_setReg (r := ⟨_, _⟩) (Nat.le_refl _) a₁ _)
      · by_cases zero : n = 0 <;> simp [zero]
    · simp only [Option.elim_some, bit, wp_pure]
      intro slots binds unfinished grows l a holds l' result matched tested next
      obtain ⟨v, evaluated, holding⟩ := Expr.eval_of_test tested
      refine leads slots binds unfinished grows l a v l' result matched evaluated fun a₁ matched₁ keeps₁ shown => ?_
      obtain ⟨holds, rfl, value⟩ := shown.of_bit bit
      cases holding
      exact next a₁ matched₁ keeps₁ ⟨_, value, by cases holds <;> simp⟩

end Induction

end Lower

end StructLang
