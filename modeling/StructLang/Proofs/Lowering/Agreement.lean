import StructLang.Proofs.Lowering.TypedCode
import StructLang.Proofs.Lowering.Visits

namespace StructLang

open Ir

namespace Ir.FunctionBuilder

variable {b b' : FunctionBuilder}

def PointsTo (b : FunctionBuilder) (v : Value) (ty : StructLang.Ty) : Prop :=
  ∀ r, v = .reg r → r.id < b.nextReg ∧
    ∀ dest slotTy, .alloca dest slotTy ∈ b.slots → dest.id = r.id → slotTy = .ofSource ty

theorem PointsTo.grow (grows : b.Grows b') {v : Value} {ty : StructLang.Ty} (points : b.PointsTo v ty) :
    b'.PointsTo v ty := by
  rintro r rfl
  obtain ⟨below, slots⟩ := points r rfl
  refine ⟨Nat.lt_of_lt_of_le below grows.regs, ?_⟩
  intro dest slotTy slot same
  rcases grows.newSlots slot with before | ⟨r', written, new⟩
  · exact slots dest slotTy before same
  · cases written
    omega

theorem PointsTo.storeTyped {value addr : Value} {ty : StructLang.Ty} (points : b.PointsTo addr ty)
    (typed : value.ty = .ofSource ty) : b.StoreTyped value addr := by
  rintro r dest slotTy rfl slot same
  rw [typed, (points r rfl).2 dest slotTy slot same]

/-- A register that code has just written is not a slot. -/
theorem Sound.pointsTo_define (sound : b.Sound) {t : Ty} {f : Reg → Instruction}
    (ordinary : (f ⟨b.nextReg, t⟩).isSlot = false) (target : StructLang.Ty) :
    (b.define t f).2.PointsTo (b.define t f).1 target := by
  rintro r ⟨⟩
  have laid := sound.laid.bump (b.nextReg + 1)
  constructor
  · exact Nat.lt_of_lt_of_le (Nat.lt_succ_self _) (laid.grows_emit ordinary).regs
  · intro dest slotTy slot same
    change _ ∈ (FunctionBuilder.emit _ _).slots at slot
    rw [laid.slots_emit ordinary] at slot
    have written : dest ∈ defs b.slots := List.mem_filterMap.mpr ⟨_, slot, rfl⟩
    have := sound.slotBelow written
    exact absurd same (Nat.ne_of_lt this)

theorem Sound.pointsTo_alloca (sound : b.Sound) (ty : StructLang.Ty) :
    (b.alloca (.ofSource ty)).2.PointsTo (b.alloca (.ofSource ty)).1 ty := by
  have laid := sound.laid
  intro r value
  have regs : (b.alloca (.ofSource ty)).2.nextReg = b.nextReg + 1 := by rw [laid.alloca_eq]
  rw [laid.alloca_eq] at value
  cases value
  refine ⟨by rw [regs]; exact Nat.lt_succ_self _, ?_⟩
  intro dest slotTy slot same
  rw [laid.slots_alloca, List.mem_append, List.mem_singleton] at slot
  rcases slot with before | new
  · have written : dest ∈ defs b.slots := List.mem_filterMap.mpr ⟨_, before, rfl⟩
    exact absurd same (Nat.ne_of_lt (sound.slotBelow written))
  · cases new
    rfl

end Ir.FunctionBuilder

def Lower.Want.irTy (ty : Ty) : Lower.Want → Ir.Ty
  | .value => .ofSource ty
  | .address => .ptr

/-- A lowered expression of the type, and a slot of the right type if it is one or points to one. -/
structure Fits (b : FunctionBuilder) (want : Lower.Want) (ty : Ty) (typed : Typed) : Prop where
  same : typed.ty = ty
  value : typed.value.ty = want.irTy ty
  address : want = .address → b.PointsTo typed.value ty
  pointer : want = .value → ∀ {target}, ty = .ptr target → b.PointsTo typed.value target

theorem Fits.grow {b b' : FunctionBuilder} (grows : b.Grows b') {want : Lower.Want} {ty : Ty} {typed : Typed}
    (fits : Fits b want ty typed) : Fits b' want ty typed :=
  ⟨fits.same, fits.value, fun address => (fits.address address).grow grows,
    fun value _ pointer => (fits.pointer value pointer).grow grows⟩

structure Tables (scope : Scope) (Γ : Context) : Prop where
  functions : scope.functions.get? = Γ.functions
  structs : scope.structs.get? = Γ.structs

structure Declares (Γ : Context) (m : Ir.Module) : Prop where
  functions : ∀ {name f}, Γ.functions name = some f →
    ∃ g, m.function? name = some g ∧ g.params.map (·.ty) = f.params.map (Ir.Ty.ofSource ·.ty)
  structs : ∀ {name d}, Γ.structs name = some d → m.struct? name = some d.layout ∧ (d.fields.map (·.name)).Nodup

structure Agrees (Γ : Context) (s : FunctionState) : Prop extends Declares Γ s.module.module where
  names : ∀ name, (s.locals.get? name).map (·.ty) = Γ.names name
  slots : ∀ {name typed}, s.locals.get? name = some typed → Fits s.function .address typed.ty typed
  returns : s.function.returns = .ofSource Γ.returns
  code : s.function.Typed s.module.module

namespace Agrees

variable {Γ : Context} {s s' : FunctionState}

/-- What agreement needs when code is written, besides the code itself. -/
theorem keep (agrees : Agrees Γ s) (grows : s.function.Grows s'.function) (locals : s'.locals = s.locals)
    (gains : s.module.Gains s'.module) (code : s'.function.Typed s'.module.module) : Agrees Γ s' where
  names name := by rw [locals]; exact agrees.names name
  slots found := by
    rw [locals] at found
    exact (agrees.slots found).grow grows
  functions known := by
    rw [Module.function?, gains.functions]
    exact agrees.functions known
  structs known := by
    rw [Module.struct?, gains.structs]
    exact agrees.structs known
  returns := grows.returns.trans agrees.returns
  code := code

theorem define (ready : Ready s) (agrees : Agrees Γ s) {t : Ir.Ty} {f : Reg → Instruction}
    (ordinary : (f ⟨s.function.nextReg, t⟩).isSlot = false) (typed : (f ⟨s.function.nextReg, t⟩).Typed s.module.module)
    (computes : (f ⟨s.function.nextReg, t⟩).dest? = some ⟨s.function.nextReg, t⟩) :
    Agrees Γ { s with function := (s.function.define t f).2 } := by
  refine agrees.keep (ready.sound.laid.straight_define ordinary).grows rfl (.refl _) ?_
  refine agrees.code.emit ready.sound ordinary typed fun store => ?_
  rw [store] at computes
  cases computes

theorem emit (ready : Ready s) (agrees : Agrees Γ s) {i : Instruction} (ordinary : i.isSlot = false)
    (typed : i.Typed s.module.module)
    (store : ∀ {value addr}, i = .store value addr → s.function.StoreTyped value addr) :
    Agrees Γ { s with function := s.function.emit i } :=
  agrees.keep (ready.sound.laid.grows_emit ordinary) rfl (.refl _)
    (agrees.code.emit ready.sound (n := s.function.nextReg) ordinary typed store)

theorem store (ready : Ready s) (agrees : Agrees Γ s) {value addr : Ir.Value}
    (typed : s.function.StoreTyped value addr) :
    Agrees Γ { s with function := s.function.store value addr } := by
  refine agrees.emit ready rfl trivial fun store => ?_
  cases store
  exact typed

theorem alloca (ready : Ready s) (agrees : Agrees Γ s) (ty : Ir.Ty) :
    Agrees Γ { s with function := (s.function.alloca ty).2 } :=
  agrees.keep (ready.sound.laid.straight_alloca ty).grows rfl (.refl _) (agrees.code.alloca ready.sound ty)

end Agrees

/-- The value of an address that has just been computed. -/
theorem fits_define {b : FunctionBuilder} (sound : b.Sound) {t : Ir.Ty} {f : Reg → Instruction}
    (ordinary : (f ⟨b.nextReg, t⟩).isSlot = false) {want : Lower.Want} {ty : Ty} (value : t = want.irTy ty) :
    Fits (b.define t f).2 want ty ⟨(b.define t f).1, ty⟩ :=
  ⟨rfl, value, fun _ => sound.pointsTo_define ordinary ty, fun _ _ _ => sound.pointsTo_define ordinary _⟩

theorem fits_address {b : FunctionBuilder} (sound : b.Sound) {f : Reg → Instruction}
    (ordinary : (f ⟨b.nextReg, .ptr⟩).isSlot = false) (ty : Ty) :
    Fits (b.define .ptr f).2 .address ty ⟨(b.define .ptr f).1, ty⟩ :=
  fits_define sound ordinary rfl

theorem fits_alloca {s : FunctionState} (ready : Ready s) (ty : Ty) :
    Fits (s.function.alloca (.ofSource ty)).2 .address ty ⟨(s.function.alloca (.ofSource ty)).1, ty⟩ :=
  ⟨rfl, by rw [ready.sound.laid.alloca_eq]; rfl, fun _ => ready.sound.pointsTo_alloca ty, nofun⟩

/-- With distinct field names, a field has the position in the layout that it has in the declaration. -/
theorem StructDecl.layout_field {d : StructDecl} (distinct : (d.fields.map (·.name)).Nodup) {name : String} {index : Nat}
    {field : Field} (found : d.field? name = some (index, field)) :
    d.layout.index? name = some index ∧ d.layout.type? index = some (.ofSource field.ty) := by
  simp only [StructDecl.field?, Option.bind_eq_some_iff, Option.map_eq_some_iff, Prod.mk.injEq] at found
  obtain ⟨i, first, f, there, rfl, rfl⟩ := found
  obtain ⟨known, here, -⟩ := List.findIdx?_eq_some_iff_getElem.mp first
  rw [List.getElem?_eq_getElem known, Option.some.injEq] at there
  subst there
  constructor
  · have size : d.layout.fields.length = d.fields.length := by simp [StructDecl.layout]
    have last : d.layout.fields.reverse.findIdx? (·.1 == name) = some (d.fields.length - 1 - i) := by
      refine List.findIdx?_eq_some_iff_getElem.mpr ⟨by simp [size]; omega, ?_, ?_⟩
      · have back : d.fields.length - 1 - (d.fields.length - 1 - i) = i := by omega
        simpa [StructDecl.layout, List.getElem_reverse, back] using here
      · intro j before same
        -- Another position with the name would be a repetition.
        simp only [StructDecl.layout, List.getElem_reverse, List.length_map, List.getElem_map, beq_iff_eq] at same
        have known' : i < (d.fields.map (·.name)).length := by simpa using known
        have other : d.fields.length - 1 - j < (d.fields.map (·.name)).length := by simp; omega
        have repeated : (d.fields.map (·.name))[i] = (d.fields.map (·.name))[d.fields.length - 1 - j] := by
          simpa using (beq_iff_eq.mp here).trans same.symm
        have := (List.getElem_inj distinct).mp repeated
        omega
    simp only [Layout.index?, last, size, Option.map_some, Option.some.injEq]
    omega
  · simp [StructDecl.layout, Layout.type?, List.getElem?_eq_getElem known]

namespace Lower

section Steps

variable {Γ : Context} {s : FunctionState}

/-- An action that keeps agreement, or fails for a reason that `blame` allows and leaves well-typed code. -/
abbrev Gives {α : Type} (x : Lower α) (s : FunctionState) (Γ : Context) (post : α → FunctionState → Prop)
    (blame : LoweringError → Prop) : Prop :=
  Wp x s (fun a s' => Agrees Γ s' ∧ post a s') fun e s' => s'.function.Typed s'.module.module ∧ blame e

def Result (want : Want) (ty : Ty) (result : Option Typed) (s : FunctionState) : Prop :=
  result.elim (ty = .void) (Fits s.function want ty)

variable {α : Type} {x : Lower α} {post : α → FunctionState → Prop} {blame blame' : LoweringError → Prop}

theorem Gives.weaken (run : Gives x s Γ post blame) (imp : ∀ e, blame e → blame' e) : Gives x s Γ post blame' :=
  run.imp (fun _ _ => id) fun e _ ⟨typed, blamed⟩ => ⟨typed, imp e blamed⟩

theorem Gives.valueOf {e : Expr} {x : Lower (Option Typed)} {want : Want} {ty : Ty}
    (run : Gives x s Γ (Result want ty) blame) (void : ∀ {what}, blame (.voidValue what)) :
    Gives (valueOf e x) s Γ (fun typed s' => Fits s'.function want ty typed) blame := by
  rw [Gives, wp_valueOf]
  refine run.mono fun result s' ⟨agrees, fits⟩ => ?_
  cases result with
  | none => exact ⟨agrees.code, void⟩
  | some typed => exact ⟨agrees, fits⟩

/-- The typing and the shape of one run. -/
theorem Gives.along {emits : Bool} {values : α → List Ir.Value} (run : Gives x s Γ post blame)
    (makes : Makes x s emits values) :
    Wp x s (fun a s' => x s = .ok a s' ∧ Yields s emits (values a) s' ∧ Agrees Γ s' ∧ post a s') fun e s' =>
      s'.function.Typed s'.module.module ∧ blame e :=
  (wp_self.and (makes.and run)).imp (fun _ _ => id) fun _ _ failed => failed.2.2

theorem error_discard {e : LoweringError} {s' : FunctionState} (failed : x s = .error e s') :
    (do let _ ← x : Lower Unit) s = .error e s' := by
  simp only [bind, EStateM.bind, failed]

/-- A failure of a part of a visit. -/
theorem Gives.inside {scope : Scope} {v : Visit} {part : Part} {c : Checker}
    (run : Gives x s Γ post (Visit.Origin scope ⟨part, c, s⟩))
    (sub : v.Sub scope ⟨part, c, s⟩) (same : ∀ {e s'}, x s = .error e s' → part.run scope s = .error e s') :
    Gives x s Γ post (v.Origin scope) :=
  (run.and wp_self).imp (fun _ _ => And.left) fun _ s' ⟨⟨typed, _⟩, failed⟩ =>
    ⟨typed, .inr ⟨_, sub, s', same failed⟩⟩

variable (ready : Ready s) (agrees : Agrees Γ s)
include ready agrees

theorem gives_define {t : Ir.Ty} {f : Reg → Instruction} {want : Want} {ty : Ty} (value : t = want.irTy ty)
    (typed : ∀ r, (f r).Typed s.module.module) (ordinary : ∀ r, (f r).isSlot = false)
    (dest : ∀ r, (f r).dest? = some r) :
    Gives (build (·.define t f) >>= fun v => pure (⟨v, ty⟩ : Typed)) s Γ
      (fun typed s' => Fits s'.function want ty typed) blame := by
  simp only [Gives, wp_bind, wp_build, wp_pure]
  exact ⟨agrees.define ready (ordinary _) (typed _) (dest _), fits_define ready.sound (ordinary _) value⟩

theorem gives_access {addr : Ir.Value} {ty : Ty} (fits : Fits s.function .address ty ⟨addr, ty⟩) (want : Want) :
    Gives (access addr ty want) s Γ (fun typed s' => Fits s'.function want ty typed) blame := by
  cases want with
  | address => exact ⟨agrees, fits⟩
  | value => exact gives_define ready agrees rfl (fun _ => trivial) (fun _ => rfl) fun _ => rfl

theorem gives_spill {typed : Typed} {ty : Ty} (fits : Fits s.function .value ty typed) :
    Gives (do
      let slot ← build (·.alloca (.ofSource typed.ty))
      write (·.store typed.value slot)
      return ⟨slot, typed.ty⟩) s Γ (fun typed s' => Fits s'.function .address ty typed) blame := by
  simp only [Gives, wp_bind, wp_build, wp_write, wp_pure]
  obtain ⟨rfl, value, -, -⟩ := fits
  have slot := ready.alloca (.ofSource typed.ty)
  have ready₁ := slot.ready ready
  have points := ready.sound.pointsTo_alloca typed.ty
  have agrees₁ := agrees.alloca ready (.ofSource typed.ty)
  have grows := ready₁.sound.laid.grows_emit (i := .store typed.value (s.function.alloca (.ofSource typed.ty)).1) rfl
  refine ⟨agrees₁.store ready₁ (points.storeTyped value), ⟨rfl, ?_, fun _ => points.grow grows, by rintro ⟨⟩⟩⟩
  rw [ready.sound.laid.alloca_eq]
  rfl

omit ready agrees in
theorem BinaryOp.onInts_cases (op : BinaryOp) :
    (∃ o, op.onInts = .inl o ∧ op.isComparison = false ∧ ∀ width, o.Takes (.int width)) ∨
    (∃ pred, op.onInts = .inr pred ∧ op.isComparison = true) := by
  cases op <;> first
    | exact .inl ⟨_, rfl, rfl, fun width => ⟨width, rfl⟩⟩
    | exact .inr ⟨_, rfl, rfl⟩

omit ready agrees in
theorem BinaryOp.onFloats_cases (op : BinaryOp) :
    (∃ o, op.onFloats = .inl o ∧ op.isComparison = false ∧ ∀ width, o.Takes (.float width)) ∨
    (∃ pred, op.onFloats = .inr pred ∧ op.isComparison = true) := by
  cases op <;> first
    | exact .inl ⟨_, rfl, rfl, fun width => ⟨width, rfl⟩⟩
    | exact .inr ⟨_, rfl, rfl⟩

theorem gives_combine {op : BinaryOp} {lhs rhs : Typed} {operand : Ty} (left : Fits s.function .value operand lhs)
    (right : Fits s.function .value operand rhs) {want : Want} {span : Span} {l r : Expr} :
    Gives (combine op lhs rhs) s Γ (fun typed s' => Fits s'.function .value (op.resultTy operand) typed)
      (Part.expr want (.binary span op l r)).Refuses := by
  obtain ⟨rfl, value, -, -⟩ := left
  have types : lhs.value.ty = rhs.value.ty := value.trans right.value.symm
  simp only [combine, BinaryOp.resultTy]
  cases operand : lhs.ty with
  | int width =>
    rw [operand] at value
    simp only [value, Want.irTy, Ir.Ty.ofSource]
    rcases BinaryOp.onInts_cases op with ⟨o, same, kind, takes⟩ | ⟨pred, same, kind⟩ <;>
      simp only [same, kind, Bool.false_eq_true, ↓reduceIte]
    · exact gives_define ready agrees value (fun _ => ⟨types, value ▸ takes width⟩) (fun _ => rfl) fun _ => rfl
    · exact gives_define ready agrees rfl (fun _ => ⟨types, .inr ⟨width, value⟩⟩) (fun _ => rfl) fun _ => rfl
  | float width =>
    rw [operand] at value
    simp only [value, Want.irTy, Ir.Ty.ofSource]
    rcases BinaryOp.onFloats_cases op with ⟨o, same, kind, takes⟩ | ⟨pred, same, kind⟩ <;>
      simp only [same, kind, Bool.false_eq_true, ↓reduceIte]
    · exact gives_define ready agrees value (fun _ => ⟨types, value ▸ takes width⟩) (fun _ => rfl) fun _ => rfl
    · exact gives_define ready agrees rfl (fun _ => ⟨types, width, value⟩) (fun _ => rfl) fun _ => rfl
  | ptr target =>
    rw [operand] at value
    simp only [value, Want.irTy, Ir.Ty.ofSource]
    rcases BinaryOp.onInts_cases op with ⟨o, same, kind, -⟩ | ⟨pred, same, kind⟩ <;>
      simp only [same, kind, Bool.false_eq_true, ↓reduceIte]
    · exact ⟨agrees.code, _, rfl, rfl, rfl, fun _ => kind⟩
    · exact gives_define ready agrees rfl (fun _ => ⟨types, .inl value⟩) (fun _ => rfl) fun _ => rfl
  | void =>
    rw [operand] at value
    simp only [value, Want.irTy, Ir.Ty.ofSource]
    exact ⟨agrees.code, _, rfl, rfl, rfl, by rintro ⟨⟩⟩
  | struct name =>
    rw [operand] at value
    simp only [value, Want.irTy, Ir.Ty.ofSource]
    exact ⟨agrees.code, _, rfl, rfl, rfl, by rintro ⟨⟩⟩

theorem gives_negate {typed : Typed} {ty : Ty} (fits : Fits s.function .value ty typed) {want : Want} {span : Span}
    {operand : Expr} :
    Gives (negate typed) s Γ (fun typed s' => Fits s'.function .value ty typed)
      (Part.expr want (.unary span .neg operand)).Refuses := by
  obtain ⟨rfl, value, -, -⟩ := fits
  unfold negate
  cases type : typed.ty with
  | int width =>
    rw [type] at value
    simp only [value, Want.irTy, Ir.Ty.ofSource]
    exact gives_define ready agrees value (fun _ => trivial) (fun _ => rfl) fun _ => rfl
  | float width =>
    rw [type] at value
    simp only [value, Want.irTy, Ir.Ty.ofSource]
    exact gives_define ready agrees value (fun _ => trivial) (fun _ => rfl) fun _ => rfl
  | _ =>
    rw [type] at value
    simp only [value, Want.irTy, Ir.Ty.ofSource]
    exact ⟨agrees.code, _, rfl, by simp [Ty.isInt], by simp [Ty.isFloat]⟩

omit agrees in
theorem gives_addressOf {e : Expr} {lower : Want → Lower (Option Typed)} {ty : Ty}
    (run : Gives (lower e.place) s Γ (Result e.place ty) blame) (void : ∀ {what}, blame (.voidValue what))
    (makes : ∀ want, Makes (lower want) s (e.emits want) valuesOf) :
    Gives (addressOf e lower) s Γ (fun typed s' => Fits s'.function .address ty typed) blame := by
  unfold addressOf
  unfold Expr.place at run
  split
  · rename_i stored
    rw [if_pos stored] at run
    exact run.valueOf void
  · rename_i stored
    rw [if_neg stored] at run
    rw [Gives, wp_bind]
    refine ((run.valueOf void).along (makes .value).valueOf).mono fun typed s₁ ⟨_, first, agrees₁, fits⟩ => ?_
    exact gives_spill (first.ready ready) agrees₁ fits

omit ready in
/-- A field of a struct that has it. -/
theorem gives_field {scope : Scope} (tables : Tables scope Γ) {struct name : String} {d : StructDecl} {index : Nat}
    {decl : Field} (known : Γ.structs struct = some d) (found : d.field? name = some (index, decl)) :
    Wp (field scope struct name) s (fun place s' => s' = s ∧ place = (index, decl.ty)) fun _ _ => False := by
  obtain ⟨layout, distinct⟩ := agrees.structs known
  simp only [field, wp_bind, wp_get, layout, (StructDecl.layout_field distinct found).1, tables.structs, known, found]
  exact ⟨rfl, rfl⟩

omit ready in
theorem gives_checkField {struct name : String} {d : StructDecl} {index : Nat} {decl : Field}
    (known : Γ.structs struct = some d) (found : d.field? name = some (index, decl)) {value : Ir.Value}
    (typed : value.ty = .ofSource decl.ty) :
    Wp (checkField struct name index value) s (fun _ s' => s' = s) fun _ _ => False := by
  obtain ⟨layout, distinct⟩ := agrees.structs known
  simp only [checkField, wp_bind, wp_get, layout, Option.bind_some, (StructDecl.layout_field distinct found).2, typed]
  exact rfl

omit ready in
theorem gives_callee {scope : Scope} (tables : Tables scope Γ) {name : String} {f : Signature}
    (known : Γ.functions name = some f) :
    Wp (callee scope name) s (fun returns s' => s' = s ∧ returns = f.returns) fun _ _ => False := by
  obtain ⟨g, found, -⟩ := agrees.functions known
  simp only [callee, wp_bind, wp_get, tables.functions, known, found]
  exact ⟨rfl, rfl⟩

theorem gives_call {name : String} {f : Signature} (known : Γ.functions name = some f) {values : List Ir.Value}
    (types : values.map (·.ty) = f.params.map (Ir.Ty.ofSource ·.ty)) :
    Gives (do
      let result ← build (·.call name values (.ofSource f.returns))
      return result.map (⟨·, f.returns⟩)) s Γ (Result .value f.returns) blame := by
  obtain ⟨g, found, params⟩ := agrees.functions known
  have typed : ∀ dest, (Instruction.call dest name values).Typed s.module.module :=
    fun _ => ⟨g, found, types.trans params.symm⟩
  simp only [Gives, wp_bind, wp_build, wp_pure, FunctionBuilder.call]
  split
  · rename_i void
    refine ⟨agrees.emit ready rfl (typed none) (by rintro _ _ ⟨⟩), ?_⟩
    cases returns : f.returns <;> rw [returns] at void <;> first | exact rfl | cases void
  · exact ⟨agrees.define (f := fun dest => .call (some dest) name values) ready rfl (typed _) rfl,
      fits_define (f := fun dest => .call (some dest) name values) ready.sound rfl rfl⟩

omit ready agrees in
theorem gives_pointee {operation : String} {ty target : Ty} (pointer : ty = .ptr target) :
    Wp (pointee operation ty) s (fun result s' => s' = s ∧ result = target) fun _ _ => False := by
  subst pointer
  exact ⟨rfl, rfl⟩

variable {scope : Scope} {v : Visit} {c : Checker}

omit agrees in
/-- A part of a visit that is lowered to a value, its typing and its shape. -/
theorem Gives.value {e : Expr} {ty : Ty}
    (run : Gives (expr scope .value e) s Γ (Result .value ty) (Visit.Origin scope ⟨.expr .value e, c, s⟩))
    (sub : v.Sub scope ⟨.expr .value e, c, s⟩) :
    Wp (Lower.valueOf e (expr scope .value e)) s (fun typed s' =>
      Lower.valueOf e (expr scope .value e) s = .ok typed s' ∧ Yields s (e.emits .value) [typed.value] s' ∧
        Agrees Γ s' ∧ Fits s'.function .value ty typed) fun e s' =>
      s'.function.Typed s'.module.module ∧ v.Origin scope e :=
  ((run.inside sub error_discard).valueOf .void).along (makes_expr scope .value e ready).valueOf

omit agrees in
theorem Gives.place {e : Expr} {ty : Ty}
    (run : Gives (expr scope e.place e) s Γ (Result e.place ty) (Visit.Origin scope ⟨.expr e.place e, c, s⟩))
    (sub : v.Sub scope ⟨.expr e.place e, c, s⟩) :
    Wp (addressOf e fun want => expr scope want e) s (fun typed s' =>
      (addressOf e fun want => expr scope want e) s = .ok typed s' ∧
        Yields s (!e.hasStorage || e.emits .address) [typed.value] s' ∧ Agrees Γ s' ∧
          Fits s'.function .address ty typed) fun e s' =>
      s'.function.Typed s'.module.module ∧ v.Origin scope e :=
  (gives_addressOf ready (run.inside sub error_discard) .void fun want => makes_expr scope want e ready).along
    (makes_addressOf ready fun want => makes_expr scope want e ready)

end Steps

/-- An address is only asked of storage. -/
theorem hasStorage_of_place {e : Expr} (address : e.place = .address) : e.hasStorage = true := by
  unfold Expr.place at address
  split at address
  · assumption
  · cases address

variable {scope : Scope} {Γ : Context} {c : Checker}

mutual

theorem gives_expr (tables : Tables scope Γ) : (e : Expr) → (want : Want) → {ty : Ty} → {s : FunctionState} →
    HasType .strict Γ e ty → (want = .address → e.hasStorage = true) → Ready s → Agrees Γ s →
    Gives (expr scope want e) s Γ (Result want ty) (Visit.Origin scope ⟨.expr want e, c, s⟩)
  | .int .., .address, _, _, _, stored, _, _ | .float .., .address, _, _, _, stored, _, _
  | .string .., .address, _, _, _, stored, _, _ | .assign .., .address, _, _, _, stored, _, _
  | .binary .., .address, _, _, _, stored, _, _ | .unary _ .ref _, .address, _, _, _, stored, _, _
  | .unary _ .neg _, .address, _, _, _, stored, _, _ | .call .., .address, _, _, _, stored, _, _ => nomatch stored rfl
  | .int .., .value, _, _, .int, _, _, agrees => ⟨agrees, rfl, rfl, nofun, fun _ _ => nofun⟩
  | .float .., .value, _, _, .float, _, _, agrees => ⟨agrees, rfl, rfl, nofun, fun _ _ => nofun⟩
  | .string _ text, .value, ty, s, typed, stored, ready, agrees => by
    obtain ⟨name, global⟩ := s.module.intern_global text
    have gains := s.module.gains_intern text
    cases typed
    refine ⟨agrees.keep (.refl _) rfl gains (agrees.code.mono (.of_functions gains.functions)), rfl, ?_, nofun,
      fun _ target _ => ?_⟩
    · change (s.module.intern text).1.ty = _
      rw [global]
      rfl
    · change s.function.PointsTo (s.module.intern text).1 target
      rw [global]
      exact nofun
  | .variable _ name, want, ty, s, typed, stored, ready, agrees => by
    have bound := HasType.variable_iff.mp typed
    rw [← agrees.names] at bound
    obtain ⟨slot, found, rfl⟩ := Option.map_eq_some_iff.mp bound
    simp only [Gives, expr, wp_bind, wp_get, found, wp_map]
    exact gives_access ready agrees (agrees.slots found) want
  | .assign _ target value, .value, ty, s, typed, stored, ready, agrees => by
    obtain ⟨left, right⟩ := HasType.assign_iff.mp typed
    simp only [Gives, expr, wp_bind]
    refine (Gives.value ready (gives_expr tables value .value right nofun ready agrees) .assignValue).mono
      fun result s₁ ⟨ran, first, agrees₁, fits⟩ => ?_
    have ready₁ := first.ready ready
    have typed' := gives_expr tables target target.place left hasStorage_of_place ready₁ agrees₁
    refine (Gives.place ready₁ typed' (.assignTarget ran)).mono fun addr s₂ ⟨_, second, agrees₂, place⟩ => ?_
    have fits₂ := fits.grow second.straight.grows
    have ready₂ := second.ready ready₁
    have written := agrees₂.store ready₂ ((place.address rfl).storeTyped fits₂.value)
    exact ⟨written, fits₂.grow (ready₂.sound.laid.grows_emit rfl)⟩
  | .binary _ op lhs rhs, .value, ty, s, typed, stored, ready, agrees => by
    obtain ⟨operand, left, right, rfl⟩ := HasType.binary_iff.mp typed
    simp only [Gives, expr, wp_bind]
    refine (Gives.value ready (gives_expr tables lhs .value left nofun ready agrees) .left).mono
      fun l s₁ ⟨ran, first, agrees₁, fits⟩ => ?_
    have ready₁ := first.ready ready
    refine (Gives.value ready₁ (gives_expr tables rhs .value right nofun ready₁ agrees₁) (.right ran)).mono
      fun r s₂ ⟨_, second, agrees₂, fits'⟩ => ?_
    rw [wp_map]
    exact (gives_combine (second.ready ready₁) agrees₂ (fits.grow second.straight.grows) fits').weaken
      fun _ refused => .inl (.inr refused)
  | .unary _ .ref operand, .value, ty, s, typed, stored, ready, agrees => by
    obtain ⟨inner, typed', rfl⟩ := HasType.ref_iff.mp typed
    simp only [Gives, expr, wp_bind]
    have typed' := gives_expr tables operand operand.place typed' hasStorage_of_place ready agrees
    refine (Gives.place ready typed' .referred).mono fun addr s₁ ⟨_, _, agrees₁, place⟩ => ?_
    refine ⟨agrees₁, by rw [place.same], place.value, nofun, fun _ target pointer => ?_⟩
    cases pointer
    exact place.address rfl
  | .unary _ .deref operand, want, ty, s, typed, stored, ready, agrees => by
    have typed := HasType.deref_iff.mp typed
    simp only [Gives, expr, wp_bind]
    refine (Gives.value ready (gives_expr tables operand .value typed nofun ready agrees) .dereferenced).mono
      fun pointer s₁ ⟨_, first, agrees₁, fits⟩ => ?_
    refine (gives_pointee fits.same).imp (fun target s₂ ⟨same, type⟩ => ?_) fun _ _ => False.elim
    subst same type
    rw [wp_map]
    have place : Fits s₂.function .address target ⟨pointer.value, target⟩ :=
      ⟨rfl, fits.value, fun _ => fits.pointer rfl rfl, nofun⟩
    exact gives_access (first.ready ready) agrees₁ place want
  | .unary _ .neg operand, .value, ty, s, typed, stored, ready, agrees => by
    have typed' := gives_expr tables operand .value (HasType.neg_iff.mp typed) nofun ready agrees
    simp only [Gives, expr, wp_bind]
    refine (Gives.value ready typed' .negated).mono fun result s₁ ⟨_, first, agrees₁, fits⟩ => ?_
    rw [wp_map]
    exact (gives_negate (first.ready ready) agrees₁ fits).weaken fun _ refused => .inl (.inr refused)
  | .call _ name _ args, .value, ty, s, typed, stored, ready, agrees => by
    obtain ⟨f, known, args', complete, rfl⟩ := HasType.call_iff.mp typed
    simp only [Gives, expr, wp_bind]
    refine (gives_callee agrees tables known).imp (fun returns s₁ ⟨same, type⟩ => ?_) fun _ _ => False.elim
    subst same type
    refine (((gives_exprs tables args args' ready agrees).inside .passed error_discard).along
      (makes_exprs scope args ready)).mono fun values s₂ ⟨_, second, agrees₂, types⟩ => ?_
    rw [complete rfl, List.take_length] at types
    rw [← wp_bind]
    exact gives_call (second.ready ready) agrees₂ known types
  | .field _ base name, want, ty, s, typed, stored, ready, agrees => by
    obtain ⟨struct, d, index, decl, inner, known, found, rfl⟩ := HasType.field_iff.mp typed
    simp only [Gives, expr, wp_bind]
    have typed' := gives_expr tables base base.place inner hasStorage_of_place ready agrees
    refine (Gives.place ready typed' .base).mono fun addr s₁ ⟨_, first, agrees₁, place⟩ => ?_
    have ready₁ := first.ready ready
    simp only [place.same, wp_bind]
    refine (gives_field agrees₁ tables known found).imp (fun position s₂ ⟨same, result⟩ => ?_) fun _ _ => False.elim
    subst same result
    have here := ready₁.define (t := .ptr) (f := (.fieldAddr · struct addr.value index)) rfl rfl first.available
    have agrees₂ := agrees₁.define ready₁ (t := .ptr) (f := (.fieldAddr · struct addr.value index)) rfl trivial rfl
    have place := fits_address (f := (.fieldAddr · struct addr.value index)) ready₁.sound rfl decl.ty
    rw [wp_build, wp_map]
    exact gives_access (here.ready ready₁) agrees₂ place want
  | .index _ base offset, want, ty, s, typed, stored, ready, agrees => by
    obtain ⟨pointed, width, position⟩ := HasType.index_iff.mp typed
    simp only [Gives, expr, wp_bind]
    refine (Gives.value ready (gives_expr tables base .value pointed nofun ready agrees) .indexed).mono
      fun pointer s₁ ⟨ran, first, agrees₁, fits⟩ => ?_
    have ready₁ := first.ready ready
    refine (gives_pointee fits.same).imp (fun target s₂ ⟨same, type⟩ => ?_) fun _ _ => False.elim
    subst same type
    have typed' := gives_expr tables offset .value position nofun ready₁ agrees₁
    refine (Gives.value ready₁ typed' (.offset ran)).mono fun index s₃ ⟨_, second, agrees₃, _⟩ => ?_
    have both := first.trans ready second
    have ready₃ := both.ready ready
    let address := fun dest => Instruction.elementAddr dest (.ofSource target) pointer.value index.value
    have here := ready₃.define (t := .ptr) (f := address) rfl rfl both.available
    have agrees₄ := agrees₃.define ready₃ (t := .ptr) (f := address) rfl trivial rfl
    have place := fits_address (f := address) ready₃.sound rfl target
    rw [wp_build, wp_map]
    exact gives_access (here.ready ready₃) agrees₄ place want
  | .struct _ name fields, want, ty, s, typed, stored, ready, agrees => by
    obtain ⟨d, known, inits', rfl⟩ := HasType.struct_iff.mp typed
    simp only [Gives, expr, wp_bind, wp_build]
    have slot := ready.alloca (.struct name)
    have ready₁ := slot.ready ready
    have points := ready.sound.pointsTo_alloca (.struct name)
    have available := slot.available _ (List.mem_singleton_self _)
    have typed' := gives_inits tables known _ fields (inits' rfl) available ready₁ (agrees.alloca ready _)
    refine ((typed'.inside .literal id).along (makes_inits scope name _ fields ready₁ available)).mono
      fun _ s₁ ⟨_, filled, agrees₁, _⟩ => ?_
    rw [wp_map]
    have place : Fits s₁.function .address (.struct name) ⟨(s.function.alloca (.struct name)).1, .struct name⟩ :=
      ⟨rfl, by rw [ready.sound.laid.alloca_eq]; rfl, fun _ => points.grow filled.straight.grows, nofun⟩
    exact gives_access (filled.ready ready₁) agrees₁ place want
termination_by structural e => e

theorem gives_exprs (tables : Tables scope Γ) : (es : List Expr) → {ps : List Param} → {s : FunctionState} →
    ArgsTyped .strict Γ ps es → Ready s → Agrees Γ s →
    Gives (exprs scope es) s Γ (fun values _ => values.map (·.ty) = (ps.take es.length).map (Ir.Ty.ofSource ·.ty))
      (Visit.Origin scope ⟨.args es, c, s⟩)
  | [], ps, s, typed, ready, agrees => ⟨agrees, by simp⟩
  | e :: rest, ps, s, typed, ready, agrees => by
    obtain ⟨p, others, rfl, first, typed⟩ := ArgsTyped.cons_iff.mp typed
    simp only [Gives, exprs, wp_bind]
    refine (Gives.value ready (gives_expr tables e .value first nofun ready agrees) .firstArg).mono
      fun result s₁ ⟨ran, first, agrees₁, fits⟩ => ?_
    refine ((gives_exprs tables rest typed (first.ready ready) agrees₁).inside (.laterArgs ran)
      error_discard).mono fun values s₂ ⟨agrees₂, types⟩ => ⟨agrees₂, ?_⟩
    rw [List.map_cons, types, fits.value]
    rfl
termination_by structural es => es

theorem gives_inits (tables : Tables scope Γ) {struct : String} {d : StructDecl} (known : Γ.structs struct = some d)
    (slot : Ir.Value) : (fields : List FieldInit) → {s : FunctionState} → InitsTyped .strict Γ d fields →
    s.function.Available slot → Ready s → Agrees Γ s →
    Gives (inits scope struct slot fields) s Γ (fun _ _ => True) (Visit.Origin scope ⟨.inits struct slot fields, c, s⟩)
  | [], s, typed, available, ready, agrees => ⟨agrees, trivial⟩
  | first :: rest, s, typed, available, ready, agrees => by
    obtain ⟨⟨index, field, found, value⟩, typed⟩ := InitsTyped.cons_iff.mp typed
    simp only [Gives, inits, wp_bind]
    refine ((gives_init tables known slot first rest found value available ready agrees).along
      (makes_init scope struct slot first ready available)).mono fun _ s₁ ⟨ran, one, agrees₁, _⟩ => ?_
    exact (gives_inits tables known slot rest typed (one.keeps ready available) (one.ready ready) agrees₁).inside
      (.laterFields ran) id
termination_by structural fields => fields

/-- The first of the fields. -/
theorem gives_init (tables : Tables scope Γ) {struct : String} {d : StructDecl} (known : Γ.structs struct = some d)
    (slot : Ir.Value) : (init : FieldInit) → (rest : List FieldInit) → {s : FunctionState} → {index : Nat} →
    {field : Field} → d.field? init.name = some (index, field) → HasType .strict Γ init.value field.ty →
    s.function.Available slot → Ready s → Agrees Γ s →
    Gives (Lower.init scope struct slot init) s Γ (fun _ _ => True)
      (Visit.Origin scope ⟨.inits struct slot (init :: rest), c, s⟩)
  | ⟨name, value, _⟩, rest, s, index, field, found, typed, available, ready, agrees => by
    simp only [Gives, Lower.init, wp_bind]
    refine (gives_field agrees tables known found).imp (fun position s₁ ⟨same, result⟩ => ?_) fun _ _ => False.elim
    subst same result
    refine (Gives.value ready (gives_expr tables value .value typed nofun ready agrees) .firstField).mono
      fun result s₂ ⟨_, first, agrees₂, fits⟩ => ?_
    refine (gives_checkField agrees₂ known found fits.value).imp (fun _ s₃ same => ?_) fun _ _ => False.elim
    subst same
    have ready₂ := first.ready ready
    have here := ready₂.define (t := .ptr) (f := (.fieldAddr · struct slot index)) rfl rfl
      (by simpa [Instruction.operands] using first.keeps ready available)
    have agrees₃ := agrees₂.define ready₂ (t := .ptr) (f := (.fieldAddr · struct slot index)) rfl trivial rfl
    have place := fits_address (f := (.fieldAddr · struct slot index)) ready₂.sound rfl field.ty
    rw [wp_build, wp_write]
    exact ⟨agrees₃.store (here.ready ready₂) ((place.address rfl).storeTyped fits.value), trivial⟩
termination_by structural init => init

end

end Lower

end StructLang
