import StructLang.Proofs.Builder.Registers
import StructLang.Proofs.Lowering.Wp

namespace StructLang

open Ir

def Expr.emits (want : Lower.Want) : Expr → Bool
  | .int .. | .float .. | .string .. => false
  | .variable .. => want = .value
  | .unary _ .ref operand => !operand.hasStorage || operand.emits .address
  | .unary _ .deref operand => operand.emits .value || want = .value
  | .struct _ _ fields => !fields.isEmpty || want = .value
  | .assign .. | .binary .. | .unary _ .neg _ | .call .. | .field .. | .index .. => true

structure Ir.ModuleBuilder.Gains (m m' : ModuleBuilder) : Prop where
  functions : m'.module.functions = m.module.functions
  structs : m'.module.structs = m.module.structs
  globals : m.module.globals ⊆ m'.module.globals

namespace Ir.ModuleBuilder

theorem Gains.refl (m : ModuleBuilder) : m.Gains m := ⟨rfl, rfl, fun _ => id⟩

theorem Gains.trans {m m' m'' : ModuleBuilder} (first : m.Gains m') (second : m'.Gains m'') : m.Gains m'' :=
  ⟨second.functions.trans first.functions, second.structs.trans first.structs,
    fun _ member => second.globals (first.globals member)⟩

theorem gains_intern (m : ModuleBuilder) (text : String) : m.Gains (m.intern text).2 := by
  unfold intern
  split
  · exact .refl m
  · exact ⟨rfl, rfl, List.subset_append_left _ _⟩

theorem intern_global (m : ModuleBuilder) (text : String) : ∃ name, (m.intern text).1 = .global name := by
  unfold intern
  split
  · exact ⟨_, rfl⟩
  · exact ⟨_, rfl⟩

end Ir.ModuleBuilder

structure Ready (s : FunctionState) : Prop where
  sound : s.function.Sound
  slots : ∀ {name typed}, s.locals.get? name = some typed → ∃ r, typed.value = .reg r ∧ r ∈ defs s.function.slots

/-- A piece of an expression: it ends with `values` at hand, and if it `emits` code, in an open block. -/
structure Yields (s : FunctionState) (emits : Bool) (values : List Ir.Value) (s' : FunctionState) : Prop where
  sound : s'.function.Sound
  straight : s.function.Straight s'.function
  locals : s'.locals = s.locals
  gains : s.module.Gains s'.module
  available : ∀ v ∈ values, s'.function.Available v
  finished : s'.function.isTerminated = (s.function.isTerminated && !emits)

variable {s s' s'' : FunctionState}

theorem Ready.grow (ready : Ready s) (sound : s'.function.Sound) (grows : s.function.Grows s'.function)
    (same : s'.locals = s.locals) : Ready s' := by
  refine ⟨sound, ?_⟩
  intro name typed found
  rw [same] at found
  obtain ⟨r, value, slot⟩ := ready.slots found
  exact ⟨r, value, defs_subset grows.slots slot⟩

namespace Yields

variable {emits emits' : Bool} {values values' : List Ir.Value}

theorem ready (yields : Yields s emits values s') (ready : Ready s) : Ready s' :=
  ready.grow yields.sound yields.straight.grows yields.locals

theorem keeps (yields : Yields s emits values s') (ready : Ready s) {v : Ir.Value}
    (available : s.function.Available v) : s'.function.Available v :=
  available.straight ready.sound.laid yields.sound.laid yields.straight

theorem trans (ready : Ready s) (first : Yields s emits values s') (second : Yields s' emits' values' s'') :
    Yields s (emits || emits') (values ++ values') s'' where
  sound := second.sound
  straight := first.straight.trans second.straight
  locals := second.locals.trans first.locals
  gains := first.gains.trans second.gains
  available v member := by
    rcases List.mem_append.mp member with member | member
    · exact second.keeps (first.ready ready) (first.available v member)
    · exact second.available v member
  finished := by
    rw [second.finished, first.finished]
    cases s.function.isTerminated <;> cases emits <;> cases emits' <;> rfl

theorem weaken (yields : Yields s emits values s') {fewer : List Ir.Value} (subset : fewer ⊆ values) :
    Yields s emits fewer s' :=
  { yields with available := fun v member => yields.available v (subset member) }

/-- The values of the second piece alone. -/
theorem andThen (ready : Ready s) (first : Yields s emits values s') (second : Yields s' emits' values' s'') :
    Yields s (emits || emits') values' s'' :=
  (first.trans ready second).weaken (List.subset_append_right _ _)

end Yields

section Pieces

variable (ready : Ready s)
include ready

theorem Ready.nothing {values : List Ir.Value} (available : ∀ v ∈ values, s.function.Available v) :
    Yields s false values s :=
  ⟨ready.sound, .refl _, rfl, .refl _, available, by simp⟩

theorem Ready.emit {i : Instruction} (dest : i.dest? = none) (ordinary : i.isSlot = false)
    (reads : ∀ v ∈ i.operands, s.function.Available v) :
    Yields s true [] { s with function := s.function.emit i } :=
  ⟨ready.sound.emit_unwritten dest ordinary reads, ready.sound.laid.straight_emit ordinary, rfl, .refl _,
    fun _ member => absurd member List.not_mem_nil, by simpa using ready.sound.laid.isTerminated_emit i⟩

theorem Ready.define {t : Ir.Ty} {f : Reg → Instruction}
    (dest : (f ⟨s.function.nextReg, t⟩).dest? = some ⟨s.function.nextReg, t⟩)
    (ordinary : (f ⟨s.function.nextReg, t⟩).isSlot = false)
    (reads : ∀ v ∈ (f ⟨s.function.nextReg, t⟩).operands, s.function.Available v) :
    Yields s true [(s.function.define t f).1] { s with function := (s.function.define t f).2 } where
  sound := ready.sound.define dest ordinary reads
  straight := ready.sound.laid.straight_define ordinary
  locals := rfl
  gains := .refl _
  available v member := by
    rw [List.mem_singleton.mp member]
    exact ready.sound.laid.available_define dest ordinary
  finished := by
    rw [Bool.not_true, Bool.and_false]
    exact (ready.sound.laid.bump _).isTerminated_emit _

theorem Ready.alloca (ty : Ir.Ty) :
    Yields s false [(s.function.alloca ty).1] { s with function := (s.function.alloca ty).2 } where
  sound := ready.sound.alloca ty
  straight := ready.sound.laid.straight_alloca ty
  locals := rfl
  gains := .refl _
  available v member := by
    obtain ⟨r, value, slot⟩ := ready.sound.laid.slot_alloca ty
    rw [List.mem_singleton.mp member, value]
    exact FunctionBuilder.available_slot slot
  finished := by simpa using ready.sound.laid.isTerminated_alloca ty

end Pieces

namespace Lower

abbrev Makes {α : Type} (x : Lower α) (s : FunctionState) (emits : Bool) (values : α → List Ir.Value) : Prop :=
  Wp x s (fun a s' => Yields s emits (values a) s') fun _ _ => True

abbrev valuesOf (result : Option Typed) : List Ir.Value := result.toList.map (·.value)

theorem makes_throw {α : Type} {e : LoweringError} {emits : Bool} {values : α → List Ir.Value} :
    Makes (throw e) s emits values := trivial

theorem Makes.valueOf {e : Expr} {x : Lower (Option Typed)} {emits : Bool} (run : Makes x s emits valuesOf) :
    Makes (valueOf e x) s emits fun typed => [typed.value] := by
  rw [Makes, wp_valueOf]
  refine run.mono fun result s' yields => ?_
  cases result with
  | none => trivial
  | some typed => exact yields

section Steps

variable (ready : Ready s)
include ready

theorem makes_access {addr : Ir.Value} (available : s.function.Available addr) (ty : Ty) (want : Want) :
    Makes (access addr ty want) s (want = .value) fun typed => [typed.value] := by
  cases want with
  | address => exact ready.nothing (by simpa using available)
  | value =>
    simp only [access, Makes, wp_bind, wp_build, wp_pure]
    exact ready.define rfl rfl (by simpa [Instruction.operands] using available)

theorem makes_addressOf {e : Expr} {lower : Want → Lower (Option Typed)}
    (run : ∀ want, Makes (lower want) s (e.emits want) valuesOf) :
    Makes (addressOf e lower) s (!e.hasStorage || e.emits .address) fun typed => [typed.value] := by
  unfold addressOf
  split
  · rename_i stored
    rw [stored]
    exact (run .address).valueOf
  · rename_i stored
    simp only [stored, Bool.not_false, Bool.true_or, Makes, wp_bind]
    refine (run .value).valueOf.mono fun typed s₁ value => ?_
    have ready₁ := value.ready ready
    have slot := ready₁.alloca (.ofSource typed.ty)
    have both := value.trans ready slot
    simp only [wp_build, wp_write, wp_pure]
    have stored := (both.ready ready).emit rfl rfl
      (i := .store typed.value (s₁.function.alloca (.ofSource typed.ty)).1)
      fun v member => both.available v member
    have whole := both.trans ready stored
    rw [Bool.or_true] at whole
    exact whole.weaken (by simp)

theorem makes_define {α : Type} {ty : Ir.Ty} {instruction : Reg → Instruction} {reads : List Ir.Value}
    {f : Ir.Value → α} {values : α → List Ir.Value} (available : ∀ v ∈ reads, s.function.Available v)
    (dest : ∀ r, (instruction r).dest? = some r) (ordinary : ∀ r, (instruction r).isSlot = false)
    (operands : ∀ r, (instruction r).operands = reads) (result : ∀ v, values (f v) = [v]) :
    Makes (build (·.define ty instruction) >>= fun v => pure (f v)) s true values := by
  simp only [Makes, wp_bind, wp_build, wp_pure, result]
  exact ready.define (dest _) (ordinary _) (by rwa [operands])

theorem makes_negate {operand : Typed} (available : s.function.Available operand.value) :
    Makes (negate operand) s true fun typed => [typed.value] := by
  have reads : ∀ v ∈ [operand.value], s.function.Available v := by simpa using available
  unfold negate
  split
  · refine makes_define ready reads ?_ ?_ ?_ ?_ <;> exact fun _ => rfl
  · refine makes_define ready reads ?_ ?_ ?_ ?_ <;> exact fun _ => rfl
  · exact makes_throw

theorem makes_combine {op : BinaryOp} {lhs rhs : Typed}
    (reads : ∀ v ∈ [lhs.value, rhs.value], s.function.Available v) :
    Makes (combine op lhs rhs) s true fun typed => [typed.value] := by
  simp only [combine]
  cases lhs.value.ty with
  | float width =>
    cases op.onFloats with
    | inl op => refine makes_define ready reads ?_ ?_ ?_ ?_ <;> exact fun _ => rfl
    | inr pred => refine makes_define ready reads ?_ ?_ ?_ ?_ <;> exact fun _ => rfl
  | int width =>
    cases op.onInts with
    | inl op => refine makes_define ready reads ?_ ?_ ?_ ?_ <;> exact fun _ => rfl
    | inr pred => refine makes_define ready reads ?_ ?_ ?_ ?_ <;> exact fun _ => rfl
  | ptr =>
    cases op.onInts with
    | inl op => trivial
    | inr pred => refine makes_define ready reads ?_ ?_ ?_ ?_ <;> exact fun _ => rfl
  | void => trivial
  | struct name => trivial

theorem makes_call {name : String} {values : List Ir.Value} (reads : ∀ v ∈ values, s.function.Available v)
    (returns : Ir.Ty) :
    Makes (build (·.call name values returns)) s true Option.toList := by
  simp only [Makes, wp_build, FunctionBuilder.call]
  split
  · exact ready.emit rfl rfl reads
  · exact ready.define (f := fun dest => .call (some dest) name values) rfl rfl reads

/-- An action that looks something up. -/
theorem makes_of_keeps {α : Type} {x : Lower α} (keeps : Wp x s (fun _ s' => s' = s) fun _ _ => True) :
    Makes x s false fun _ => [] :=
  keeps.mono fun _ _ same => same ▸ ready.nothing (by simp)

theorem makes_pointee (operation : String) (ty : Ty) : Makes (pointee operation ty) s false fun _ => [] := by
  refine makes_of_keeps ready ?_
  unfold pointee
  split
  · rfl
  · trivial

theorem makes_field (scope : Scope) (struct name : String) : Makes (field scope struct name) s false fun _ => [] := by
  refine makes_of_keeps ready ?_
  simp only [field, wp_bind, wp_get]
  repeat' split
  all_goals first | rfl | trivial

theorem makes_checkField (struct name : String) (index : Nat) (value : Ir.Value) :
    Makes (checkField struct name index value) s false fun _ => [] := by
  refine makes_of_keeps ready ?_
  simp only [checkField, wp_bind, wp_get]
  repeat' split
  all_goals first | rfl | trivial

theorem makes_callee (scope : Scope) (name : String) : Makes (callee scope name) s false fun _ => [] := by
  refine makes_of_keeps ready ?_
  simp only [callee, wp_bind, wp_get]
  repeat' split
  all_goals first | rfl | trivial

end Steps

mutual

theorem makes_expr (scope : Scope) (want : Want) : (e : Expr) → {s : FunctionState} → Ready s →
    Makes (expr scope want e) s (e.emits want) valuesOf
  | .int .., _, ready => ready.nothing (by simp [FunctionBuilder.Available, Value.Known])
  | .float .., _, ready => ready.nothing (by simp [FunctionBuilder.Available, Value.Known])
  | .string _ text, s, ready => by
    have available : s.function.Available (s.module.intern text).1 := by
      obtain ⟨name, global⟩ := s.module.intern_global text
      rw [global]
      trivial
    exact ⟨ready.sound, .refl _, rfl, s.module.gains_intern text,
      fun v member => List.mem_singleton.mp member ▸ available, by simp [Expr.emits]⟩
  | .variable _ name, s, ready => by
    simp only [Makes, expr, wp_bind, wp_get]
    cases found : s.locals.get? name with
    | none => trivial
    | some slot =>
      simp only [wp_map]
      obtain ⟨r, value, slot'⟩ := ready.slots found
      exact makes_access ready (value ▸ FunctionBuilder.available_slot slot') _ _
  | .assign _ target value, s, ready => by
    simp only [Makes, expr, wp_bind]
    refine (makes_expr scope .value value ready).valueOf.mono fun typed s₁ first => ?_
    have ready₁ := first.ready ready
    refine (makes_addressOf ready₁ fun want => makes_expr scope want target ready₁).mono fun addr s₂ second => ?_
    have both := first.trans ready second
    have stored := (both.ready ready).emit (i := .store typed.value addr.value) rfl rfl both.available
    have whole := (both.trans ready stored)
    rw [Bool.or_true] at whole
    exact whole.weaken (by simp [valuesOf])
  | .binary _ op lhs rhs, s, ready => by
    simp only [Makes, expr, wp_bind]
    refine (makes_expr scope .value lhs ready).valueOf.mono fun left s₁ first => ?_
    refine (makes_expr scope .value rhs (first.ready ready)).valueOf.mono fun right s₂ second => ?_
    have both := first.trans ready second
    rw [wp_map]
    refine (makes_combine (both.ready ready) both.available).mono fun typed s₃ third => ?_
    have whole := both.andThen ready third
    rw [Bool.or_true] at whole
    exact whole
  | .unary _ .ref operand, s, ready => by
    simp only [Makes, expr, wp_bind]
    exact (makes_addressOf ready fun want => makes_expr scope want operand ready).mono fun addr s₁ first => first
  | .unary _ .deref operand, s, ready => by
    simp only [Makes, expr, wp_bind]
    refine (makes_expr scope .value operand ready).valueOf.mono fun pointer s₁ first => ?_
    refine (makes_pointee (first.ready ready) "*" pointer.ty).mono fun target s₂ second => ?_
    have both := first.trans ready second
    rw [wp_map]
    refine (makes_access (both.ready ready) (both.available _ (by simp)) target want).mono fun typed s₃ third => ?_
    have whole := both.andThen ready third
    rw [Bool.or_false] at whole
    exact whole
  | .unary _ .neg operand, s, ready => by
    simp only [Makes, expr, wp_bind]
    refine (makes_expr scope .value operand ready).valueOf.mono fun typed s₁ first => ?_
    rw [wp_map]
    refine (makes_negate (first.ready ready) (first.available _ (by simp))).mono fun result s₂ second => ?_
    have whole := first.andThen ready second
    rw [Bool.or_true] at whole
    exact whole
  | .call _ name _ args, s, ready => by
    simp only [Makes, expr, wp_bind]
    refine (makes_callee ready scope name).mono fun returns s₁ first => ?_
    refine (makes_exprs scope args (first.ready ready)).mono fun values s₂ second => ?_
    have both := first.andThen ready second
    refine (makes_call (both.ready ready) both.available (.ofSource returns)).mono fun result s₃ third => ?_
    have whole := both.andThen ready third
    rw [Bool.or_true] at whole
    exact whole.weaken (by cases result <;> simp [valuesOf])
  | .field _ base name, s, ready => by
    simp only [Makes, expr, wp_bind]
    refine (makes_addressOf ready fun want => makes_expr scope want base ready).mono fun addr s₁ first => ?_
    cases addr.ty with
    | struct struct =>
      rw [wp_bind]
      refine (makes_field (first.ready ready) scope struct name).mono fun place s₂ second => ?_
      have both := first.trans ready second
      have addr' := (both.ready ready).define (t := .ptr) (f := (.fieldAddr · struct addr.value place.1))
        rfl rfl both.available
      have all := both.andThen ready addr'
      rw [wp_bind, wp_build, wp_map]
      have available := all.available _ (List.mem_singleton_self _)
      refine (makes_access (all.ready ready) available place.2 want).mono fun typed s₃ third => ?_
      have whole := all.andThen ready third
      rw [Bool.or_true, Bool.true_or] at whole
      exact whole
    | _ => trivial
  | .index _ base offset, s, ready => by
    simp only [Makes, expr, wp_bind]
    refine (makes_expr scope .value base ready).valueOf.mono fun pointer s₁ first => ?_
    refine (makes_pointee (first.ready ready) "[]" pointer.ty).mono fun target s₂ second => ?_
    have both := first.trans ready second
    refine (makes_expr scope .value offset (both.ready ready)).valueOf.mono fun index s₃ third => ?_
    have operands := both.trans ready third
    have addr := (operands.ready ready).define (t := .ptr)
      (f := (.elementAddr · (.ofSource target) pointer.value index.value)) rfl rfl operands.available
    have all := operands.andThen ready addr
    rw [wp_build, wp_map]
    have available := all.available _ (List.mem_singleton_self _)
    refine (makes_access (all.ready ready) available target want).mono fun typed s₄ last => ?_
    have whole := all.andThen ready last
    rw [Bool.or_true, Bool.true_or] at whole
    exact whole
  | .struct _ name fields, s, ready => by
    simp only [Makes, expr, wp_bind]
    have slot := ready.alloca (.struct name)
    rw [wp_build]
    refine (makes_inits scope name _ fields (slot.ready ready) (slot.available _ (by simp))).mono fun _ s₁ first => ?_
    have both := slot.trans ready first
    rw [wp_map]
    refine (makes_access (both.ready ready) (both.available _ (by simp)) (.struct name) want).mono
      fun typed s₂ second => ?_
    have whole := both.andThen ready second
    rw [Bool.false_or] at whole
    exact whole
termination_by structural e => e

theorem makes_exprs (scope : Scope) : (es : List Expr) → {s : FunctionState} → Ready s →
    Makes (exprs scope es) s (es.any (·.emits .value)) id
  | [], _, ready => ready.nothing (by simp)
  | e :: rest, s, ready => by
    simp only [Makes, exprs, wp_bind]
    refine (makes_expr scope .value e ready).valueOf.mono fun typed s₁ first => ?_
    refine (makes_exprs scope rest (first.ready ready)).mono fun values s₂ second => ?_
    exact first.trans ready second
termination_by structural es => es

theorem makes_inits (scope : Scope) (struct : String) (slot : Ir.Value) : (fields : List FieldInit) →
    {s : FunctionState} → Ready s → s.function.Available slot →
    Makes (inits scope struct slot fields) s (!fields.isEmpty) fun _ => []
  | [], _, ready, _ => ready.nothing (by simp)
  | first :: rest, s, ready, available => by
    simp only [Makes, inits, wp_bind]
    refine (makes_init scope struct slot first ready available).mono fun _ s₁ one => ?_
    refine (makes_inits scope struct slot rest (one.ready ready) (one.keeps ready available)).mono fun _ s₂ more => ?_
    exact one.trans ready more
termination_by structural fields => fields

theorem makes_init (scope : Scope) (struct : String) (slot : Ir.Value) : (first : FieldInit) →
    {s : FunctionState} → Ready s → s.function.Available slot →
    Makes (init scope struct slot first) s true fun _ => []
  | ⟨name, value, _⟩, s, ready, available => by
    simp only [Makes, init, wp_bind]
    refine (makes_field ready scope struct name).mono fun place s₁ first => ?_
    refine (makes_expr scope .value value (first.ready ready)).valueOf.mono fun typed s₂ second => ?_
    have both := first.trans ready second
    refine (makes_checkField (both.ready ready) struct name place.1 typed.value).mono fun _ s₃ third => ?_
    have checked := both.trans ready third
    have addr := (checked.ready ready).define (t := .ptr) (f := (.fieldAddr · struct slot place.1)) rfl rfl
      (by simpa [Instruction.operands] using checked.keeps ready available)
    have all := checked.trans ready addr
    have stored := (all.ready ready).emit (i := .store typed.value (s₃.function.fieldAddr struct slot place.1).1)
      rfl rfl all.available
    rw [wp_build, wp_write]
    have whole := all.andThen ready stored
    rw [Bool.or_true] at whole
    exact whole
termination_by structural first => first

end

end Lower

end StructLang
