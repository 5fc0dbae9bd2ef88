import StructLang.Proofs.Builder.Links
import StructLang.Proofs.Lowering.Support

namespace StructLang

open Ir

def Ir.Instruction.isFieldAddr : Ir.Instruction → Bool
  | .fieldAddr .. => true
  | _ => false

namespace Ir.ModuleBuilder

def Interned (m : ModuleBuilder) : Prop :=
  ∀ text name, m.strings.get? text = some name → m.module.Knows (.global name)

theorem Gains.knows {m m' : ModuleBuilder} (gains : m.Gains m') {v : Value} (known : m.module.Knows v) :
    m'.module.Knows v := by
  intro name global
  obtain ⟨g, member, named⟩ := List.any_eq_true.mp (known name global)
  exact List.any_eq_true.mpr ⟨g, gains.globals member, named⟩

theorem Gains.fieldType? {m m' : ModuleBuilder} (gains : m.Gains m') (struct : String) (index : Nat) :
    m'.module.fieldType? struct index = m.module.fieldType? struct index := by
  rw [Module.fieldType?, Module.struct?, gains.structs]
  rfl

theorem Interned.intern {m : ModuleBuilder} (interned : m.Interned) (text : String) :
    (m.intern text).2.Interned ∧ (m.intern text).2.module.Knows (m.intern text).1 := by
  have gains := m.gains_intern text
  unfold ModuleBuilder.intern at gains ⊢
  split
  · rename_i name found
    exact ⟨interned, interned text name found⟩
  · rename_i missing
    simp only [missing] at gains
    have known : ({ m.module with globals := m.module.globals ++ [⟨".str." ++ toString m.module.globals.length, text⟩] } :
        Module).Knows (.global (".str." ++ toString m.module.globals.length)) := by
      rintro name ⟨⟩
      simp
    refine ⟨?_, known⟩
    intro other name found
    rw [NameMap.get?_insert] at found
    split at found
    · cases found
      exact known
    · exact gains.knows (interned other name found)

end Ir.ModuleBuilder

structure Linked (s : FunctionState) : Prop where
  links : s.module.module.Links s.function.Writes
  interned : s.module.Interned

def Lower.Want.target? (ty : Ty) : Lower.Want → Option Ty
  | .address => some ty
  | .value => ty.pointee?

structure Refers (s : FunctionState) (want : Lower.Want) (ty : Ty) (v : Ir.Value) : Prop where
  known : s.module.module.Knows v
  target : ∀ {t}, want.target? ty = some t → s.function.Targets s.module.module v t

variable {s s' : FunctionState} {want : Lower.Want} {ty : Ty} {v : Ir.Value}

theorem Refers.grow (refers : Refers s want ty v) (adds : s.function.Adds s'.function) (gains : s.module.Gains s'.module) :
    Refers s' want ty v where
  known := gains.knows refers.known
  target same := by
    intro r value
    obtain ⟨below, fields⟩ := (refers.target same).grow adds r value
    refine ⟨below, fun dest struct base index written here => ?_⟩
    rw [gains.fieldType?]
    exact fields dest struct base index written here

/-- A value that is not in a register. -/
theorem Refers.constant (known : s.module.module.Knows v) (constant : ∀ r, v ≠ .reg r) : Refers s want ty v :=
  ⟨known, fun _ r value => absurd value (constant r)⟩

theorem knows_reg {m : Ir.Module} (r : Reg) : m.Knows (.reg r) := nofun

theorem Refers.slot (ready : Ready s) {r : Reg} (slot : r ∈ defs s.function.slots) : Refers s want ty (.reg r) :=
  ⟨knows_reg r, fun _ => ready.sound.targets_slot slot _⟩

theorem Refers.alloca (ready : Ready s) (slotTy : Ir.Ty) :
    Refers { s with function := (s.function.alloca slotTy).2 } want ty (s.function.alloca slotTy).1 := by
  obtain ⟨r, value, slot⟩ := ready.sound.laid.slot_alloca slotTy
  rw [value]
  exact .slot ((ready.alloca slotTy).ready ready) slot

namespace Linked

theorem alloca (linked : Linked s) (ready : Ready s) (slotTy : Ir.Ty) :
    Linked { s with function := (s.function.alloca slotTy).2 } :=
  ⟨linked.links.of_writes (ready.sound.laid.writes_alloca slotTy), linked.interned⟩

theorem define (linked : Linked s) (ready : Ready s) {t : Ir.Ty} {f : Reg → Instruction}
    (ordinary : (f ⟨s.function.nextReg, t⟩).isSlot = false)
    (dest : (f ⟨s.function.nextReg, t⟩).dest? = some ⟨s.function.nextReg, t⟩)
    (constants : ∀ v ∈ (f ⟨s.function.nextReg, t⟩).operands, s.module.module.Knows v)
    (field : ∀ {r struct base index}, f ⟨s.function.nextReg, t⟩ = .fieldAddr r struct base index →
      ∃ ty, s.module.module.fieldType? struct index = some ty) :
    Linked { s with function := (s.function.define t f).2 } :=
  ⟨linked.links.define ready.sound ordinary dest constants field, linked.interned⟩

theorem store (linked : Linked s) (ready : Ready s) {value addr : Ir.Value} (known : s.module.module.Knows value)
    (refers : Refers s .address ty addr) (typed : value.ty = .ofSource ty) :
    Linked { s with function := s.function.store value addr } := by
  refine ⟨linked.links.emit ready.sound (n := s.function.nextReg) rfl ?_ nofun fun same => ?_, linked.interned⟩
  · intro v read
    simp only [Instruction.operands, List.mem_cons, List.not_mem_nil, or_false] at read
    rcases read with rfl | rfl
    · exact known
    · exact refers.known
  · cases same
    exact ⟨ty, refers.target rfl, typed⟩

end Linked

namespace Lower

variable {α β : Type} {Γ : Context} {P Q : Prop} {post : α → FunctionState → Prop} {x : Lower α}

/-- An action that succeeds, and then as `post` says, exactly if `P` holds. -/
abbrev Settles (x : Lower α) (s : FunctionState) (P : Prop) (post : α → FunctionState → Prop) : Prop :=
  Wp x s (fun a s' => P ∧ post a s') fun _ _ => ¬P

theorem Settles.bind {f : α → Lower β} {post' : β → FunctionState → Prop} (first : Settles x s P post)
    (next : ∀ {a s'}, post a s' → Settles (f a) s' Q post') : Settles (x >>= f) s (P ∧ Q) post' := by
  rw [Settles, wp_bind]
  refine first.imp (fun a s' ⟨holds, done⟩ => ?_) fun _ _ fails both => fails both.1
  exact (next done).imp (fun _ _ ⟨holds', done'⟩ => ⟨⟨holds, holds'⟩, done'⟩) fun _ _ fails both => fails both.2

/-- The action is followed by one that cannot fail. -/
theorem Settles.finish {f : α → Lower β} {post' : β → FunctionState → Prop} (first : Settles x s P post)
    (next : ∀ {a s'}, post a s' → Wp (f a) s' post' fun _ _ => False) : Settles (x >>= f) s P post' := by
  rw [Settles, wp_bind]
  refine first.imp (fun a s' ⟨holds, done⟩ => ?_) fun _ _ => id
  exact (next done).imp (fun _ _ done' => ⟨holds, done'⟩) fun _ _ => False.elim

theorem settles_true (run : Wp x s post fun _ _ => False) : Settles x s True post :=
  run.imp (fun _ _ done => ⟨trivial, done⟩) fun _ _ => False.elim

theorem Settles.congr (run : Settles x s P post) (same : P ↔ Q) : Settles x s Q post := by
  rwa [propext same] at run

def Lowers (e : Expr) (Γ : Context) (s : FunctionState) (want : Want) (ty : Ty) (result : Option Typed)
    (s' : FunctionState) : Prop :=
  s.function.Adds s'.function ∧ Linked s' ∧
    result.elim (¬e.HasValue Γ) fun typed => e.HasValue Γ ∧ Refers s' want ty typed.value

structure Found (Γ : Context) (s : FunctionState) (want : Want) (ty : Ty) (typed : Typed) (s' : FunctionState) :
    Prop where
  ready : Ready s'
  agrees : Agrees Γ s'
  linked : Linked s'
  straight : s.function.Straight s'.function
  gains : s.module.Gains s'.module
  adds : s.function.Adds s'.function
  available : s'.function.Available typed.value
  fits : Fits s'.function want ty typed
  refers : Refers s' want ty typed.value

theorem settles_valueOf {scope : Scope} (tables : Tables scope Γ) {e : Expr} (typed : HasType .strict Γ e ty)
    (stored : want = .address → e.hasStorage = true) (ready : Ready s) (agrees : Agrees Γ s)
    (run : Settles (expr scope want e) s (e.Supported Γ) (Lowers e Γ s want ty)) :
    Settles (valueOf e (expr scope want e)) s (e.Valued Γ) (Found Γ s want ty) := by
  have given := (gives_expr tables e want typed stored ready agrees (c := .start .strict .empty)).along
    (makes_expr scope want e ready)
  rw [Settles, wp_valueOf]
  refine (given.and run).imp (fun result s' ⟨⟨_, yields, agrees', fits⟩, holds, adds, linked, refers⟩ => ?_)
    fun _ _ failed both => failed.2 both.1
  cases result with
  | none => exact fun both => refers both.2
  | some found =>
    exact ⟨⟨holds, refers.1⟩, yields.ready ready, agrees', linked, yields.straight, yields.gains, adds,
      yields.available _ (List.mem_singleton_self _), fits, refers.2⟩

theorem settles_value {scope : Scope} (tables : Tables scope Γ) {e : Expr} (typed : HasType .strict Γ e ty) (ready : Ready s)
    (agrees : Agrees Γ s) (run : Settles (expr scope .value e) s (e.Supported Γ) (Lowers e Γ s .value ty)) :
    Settles (valueOf e (expr scope .value e)) s (e.Valued Γ) (Found Γ s .value ty) :=
  settles_valueOf tables typed (by rintro ⟨⟩) ready agrees run

/-- Storage of a value that has none. -/
theorem found_spill {typed : Typed} {s₀ : FunctionState} (found : Found Γ s₀ .value ty typed s) :
    Wp (do
      let slot ← build (·.alloca (.ofSource typed.ty))
      write (·.store typed.value slot)
      return ⟨slot, typed.ty⟩) s (Found Γ s₀ .address ty) fun _ _ => False := by
  have given : Gives _ s Γ (fun typed s' => Fits s'.function .address ty typed) fun _ => False :=
    gives_spill found.ready found.agrees found.fits
  have slot := found.ready.alloca (.ofSource typed.ty)
  have ready₁ := slot.ready found.ready
  have laid₁ := ready₁.sound.laid
  have adds₁ := found.ready.sound.laid.adds_alloca (.ofSource typed.ty)
  have refers₁ : Refers _ .address ty _ := Refers.alloca found.ready (.ofSource typed.ty)
  have adds₂ := laid₁.adds_emit (i := .store typed.value (s.function.alloca (.ofSource typed.ty)).1) rfl nofun
  have written := ready₁.emit (i := .store typed.value (s.function.alloca (.ofSource typed.ty)).1) rfl rfl
    (by simpa [Instruction.operands] using
      ⟨slot.keeps found.ready found.available, slot.available _ (List.mem_singleton_self _)⟩)
  simp only [Gives, wp_bind, wp_build, wp_write, wp_pure] at given ⊢
  exact {
    ready := written.ready ready₁
    agrees := given.1
    linked := (found.linked.alloca found.ready _).store ready₁ found.refers.known refers₁ found.fits.value
    straight := (found.straight.trans slot.straight).trans written.straight
    gains := found.gains
    adds := (found.adds.trans adds₁).trans adds₂
    available := written.keeps ready₁ (slot.available _ (List.mem_singleton_self _))
    fits := given.2
    refers := refers₁.grow adds₂ (.refl _) }

theorem settles_addressOf {scope : Scope} (tables : Tables scope Γ) {e : Expr} (typed : HasType .strict Γ e ty)
    (ready : Ready s) (agrees : Agrees Γ s)
    (run : Settles (expr scope e.place e) s (e.Supported Γ) (Lowers e Γ s e.place ty)) :
    Settles (addressOf e fun want => expr scope want e) s (e.Valued Γ) (Found Γ s .address ty) := by
  have value := settles_valueOf tables typed hasStorage_of_place ready agrees run
  unfold addressOf
  unfold Expr.place at value
  split
  · rename_i stored
    rw [if_pos stored] at value
    exact value
  · rename_i stored
    rw [if_neg stored] at value
    exact value.finish found_spill

/-- An operation on values. -/
theorem lowers_define {e : Expr} {t : Ir.Ty} {f : Reg → Instruction} {reads : List Ir.Value} (ready : Ready s)
    (linked : Linked s) {s₀ : FunctionState} (adds : s₀.function.Adds s.function) (value : e.HasValue Γ)
    (known : ∀ v ∈ reads, s.module.module.Knows v) (operands : ∀ r, (f r).operands = reads)
    (dest : ∀ r, (f r).dest? = some r) (ordinary : ∀ r, (f r).isSlot = false)
    (plain : ∀ r, (f r).isFieldAddr = false) (result : Ty) :
    Wp (build (·.define t f) >>= fun v => pure (⟨v, result⟩ : Typed)) s
      (fun typed s' => Lowers e Γ s₀ .value ty (some typed) s') fun _ _ => False := by
  simp only [wp_bind, wp_build, wp_pure]
  have laid := ready.sound.laid
  have other : ∀ {dest struct base index}, f ⟨s.function.nextReg, t⟩ ≠ .fieldAddr dest struct base index := by
    intro dest struct base index same
    have := plain ⟨s.function.nextReg, t⟩
    rw [same] at this
    cases this
  refine ⟨adds.trans (laid.adds_define (ordinary _) (dest _)), ?_, value, knows_reg _, fun _ => ?_⟩
  · exact linked.define ready (ordinary _) (dest _) (by rwa [operands]) fun same => absurd same other
  · exact ready.sound.targets_define (ordinary _) fun same => absurd same other

/-- The storage at an address, or the value in it. -/
theorem lowers_access {e : Expr} {addr : Ir.Value} (ready : Ready s) (linked : Linked s) {s₀ : FunctionState}
    (adds : s₀.function.Adds s.function) (value : e.HasValue Γ) (refers : Refers s .address ty addr) :
    Wp (access addr ty want) s (fun typed s' => Lowers e Γ s₀ want ty (some typed) s') fun _ _ => False := by
  cases want with
  | address => exact ⟨adds, linked, value, refers⟩
  | value =>
    have known : ∀ v ∈ [addr], s.module.module.Knows v := by simpa using refers.known
    exact lowers_define ready linked adds value known (fun _ => rfl) (fun _ => rfl) (fun _ => rfl) (fun _ => rfl) ty

theorem Settles.map {f : α → β} {post' : β → FunctionState → Prop}
    (run : Settles x s P fun a s' => post' (f a) s') : Settles (f <$> x) s P post' := by
  rwa [Settles, wp_map]

theorem settles_negate {e : Expr} {typed : Typed} (ready : Ready s) (linked : Linked s) {s₀ : FunctionState}
    (adds : s₀.function.Adds s.function) (value : e.HasValue Γ) (known : s.module.module.Knows typed.value)
    (type : typed.value.ty = .ofSource ty) :
    Settles (negate typed) s (ty.isInt = true ∨ ty.isFloat = true) fun result s' =>
      Lowers e Γ s₀ .value ty (some result) s' := by
  have known : ∀ v ∈ [typed.value], s.module.module.Knows v := by simpa using known
  unfold negate
  cases ty with
  | int width =>
    simp only [type, Ir.Ty.ofSource]
    refine (settles_true (lowers_define ready linked adds value known ?_ ?_ ?_ ?_ _)).congr (by simp [Ty.isInt])
    all_goals exact fun _ => rfl
  | float width =>
    simp only [type, Ir.Ty.ofSource]
    refine (settles_true (lowers_define ready linked adds value known ?_ ?_ ?_ ?_ _)).congr (by simp [Ty.isFloat])
    all_goals exact fun _ => rfl
  | _ =>
    simp only [type, Ir.Ty.ofSource]
    exact fun works => by simp [Ty.isInt, Ty.isFloat] at works

theorem settles_combine {e : Expr} {op : BinaryOp} {lhs rhs : Typed} {operand : Ty} (ready : Ready s) (linked : Linked s)
    {s₀ : FunctionState} (adds : s₀.function.Adds s.function) (value : e.HasValue Γ)
    (known : ∀ v ∈ [lhs.value, rhs.value], s.module.module.Knows v) (type : lhs.value.ty = .ofSource operand) :
    Settles (combine op lhs rhs) s (op.Works operand) fun result s' => Lowers e Γ s₀ .value ty (some result) s' := by
  simp only [combine]
  cases operand with
  | int width =>
    simp only [type, Ir.Ty.ofSource]
    rcases BinaryOp.onInts_cases op with ⟨o, same, -, -⟩ | ⟨pred, same, -⟩ <;> simp only [same]
    all_goals
      refine settles_true (lowers_define ready linked adds value known ?_ ?_ ?_ ?_ _)
      all_goals exact fun _ => rfl
  | float width =>
    simp only [type, Ir.Ty.ofSource]
    rcases BinaryOp.onFloats_cases op with ⟨o, same, -, -⟩ | ⟨pred, same, -⟩ <;> simp only [same]
    all_goals
      refine settles_true (lowers_define ready linked adds value known ?_ ?_ ?_ ?_ _)
      all_goals exact fun _ => rfl
  | ptr target =>
    simp only [type, Ir.Ty.ofSource]
    rcases BinaryOp.onInts_cases op with ⟨o, same, kind, -⟩ | ⟨pred, same, kind⟩ <;> simp only [same]
    · exact fun works => by simp [BinaryOp.Works, kind] at works
    · refine (settles_true (lowers_define ready linked adds value known ?_ ?_ ?_ ?_ _)).congr (by simp [BinaryOp.Works, kind])
      all_goals exact fun _ => rfl
  | void =>
    simp only [type, Ir.Ty.ofSource]
    exact id
  | struct name =>
    simp only [type, Ir.Ty.ofSource]
    exact id

/-- A look-up that cannot fail, before an action. -/
theorem Settles.known {f : α → Lower β} {a : α} {post' : β → FunctionState → Prop}
    (found : Wp x s (fun result s' => s' = s ∧ result = a) fun _ _ => False) (next : Settles (f a) s P post') :
    Settles (x >>= f) s P post' := by
  rw [Settles, wp_bind]
  refine found.imp (fun result s' ⟨same, result_eq⟩ => ?_) fun _ _ => False.elim
  subst same result_eq
  exact next

/-- The address that an instruction has just computed. -/
theorem refers_define (ready : Ready s) (linked : Linked s) {f : Reg → Instruction} {reads : List Ir.Value}
    (operands : ∀ r, (f r).operands = reads) (available : ∀ v ∈ reads, s.function.Available v)
    (known : ∀ v ∈ reads, s.module.module.Knows v) (dest : ∀ r, (f r).dest? = some r)
    (ordinary : ∀ r, (f r).isSlot = false)
    (field : ∀ {r dest struct base index}, f r = .fieldAddr dest struct base index →
      s.module.module.fieldType? struct index = some (.ofSource ty)) :
    Ready { s with function := (s.function.define .ptr f).2 } ∧
      Linked { s with function := (s.function.define .ptr f).2 } ∧ s.function.Adds (s.function.define .ptr f).2 ∧
      Refers { s with function := (s.function.define .ptr f).2 } .address ty (s.function.define .ptr f).1 := by
  have here := ready.define (t := .ptr) (dest _) (ordinary _) (by rwa [operands])
  refine ⟨here.ready ready, ?_, ready.sound.laid.adds_define (ordinary _) (dest _), knows_reg _, fun same => ?_⟩
  · exact linked.define ready (ordinary _) (dest _) (by rwa [operands]) fun same => ⟨_, field same⟩
  · cases same
    exact ready.sound.targets_define (ordinary _) field

theorem fieldType?_eq (agrees : Agrees Γ s) {struct name : String} {d : StructDecl} {index : Nat} {decl : Field}
    (known : Γ.structs struct = some d) (found : d.field? name = some (index, decl)) :
    s.module.module.fieldType? struct index = some (.ofSource decl.ty) := by
  obtain ⟨layout, distinct⟩ := agrees.structs known
  rw [Module.fieldType?, layout]
  exact (StructDecl.layout_field distinct found).2

structure LowersAll (s : FunctionState) (values : List Ir.Value) (s' : FunctionState) : Prop where
  ready : Ready s'
  gains : s.module.Gains s'.module
  adds : s.function.Adds s'.function
  linked : Linked s'
  known : ∀ v ∈ values, s'.module.module.Knows v

variable {scope : Scope}

theorem lowers_call {e : Expr} {name : String} {values : List Ir.Value} {returns : Ty} (ready : Ready s) (linked : Linked s)
    {s₀ : FunctionState} (adds : s₀.function.Adds s.function) (value : e.HasValue Γ ↔ returns ≠ .void)
    (known : ∀ v ∈ values, s.module.module.Knows v) :
    Wp (do
      let result ← build (·.call name values (.ofSource returns))
      return result.map (⟨·, returns⟩)) s (Lowers e Γ s₀ .value ty) fun _ _ => False := by
  have laid := ready.sound.laid
  simp only [wp_bind, wp_build, wp_pure, FunctionBuilder.call]
  split
  · rename_i void
    have returns_eq : returns = .void := by cases returns <;> first | rfl | cases void
    refine ⟨adds.trans (laid.adds_emit rfl (by rintro _ ⟨⟩)), ?_, fun has => value.mp has returns_eq⟩
    exact ⟨linked.links.emit ready.sound (n := s.function.nextReg) rfl known (by rintro _ _ _ _ ⟨⟩)
      (by rintro _ _ ⟨⟩), linked.interned⟩
  · rename_i other
    have returns_ne : returns ≠ .void := fun void => other (by rw [void]; rfl)
    exact (lowers_define (f := fun dest => .call (some dest) name values) ready linked adds (value.mpr returns_ne) known
      (fun _ => rfl) (fun _ => rfl) (fun _ => rfl) (fun _ => rfl) returns)

mutual

theorem settles_expr (tables : Tables scope Γ) : (e : Expr) → (want : Want) → {ty : Ty} → {s : FunctionState} →
    HasType .strict Γ e ty → (want = .address → e.hasStorage = true) → Ready s → Agrees Γ s → Linked s →
    Settles (expr scope want e) s (e.Supported Γ) (Lowers e Γ s want ty)
  | .int .., .address, _, _, _, stored, _, _, _ | .float .., .address, _, _, _, stored, _, _, _
  | .string .., .address, _, _, _, stored, _, _, _ | .assign .., .address, _, _, _, stored, _, _, _
  | .binary .., .address, _, _, _, stored, _, _, _ | .unary _ .ref _, .address, _, _, _, stored, _, _, _
  | .unary _ .neg _, .address, _, _, _, stored, _, _, _ | .call .., .address, _, _, _, stored, _, _, _ =>
    nomatch stored rfl
  | .int .., .value, _, _, _, _, _, _, linked => ⟨trivial, .refl _, linked, trivial, .constant nofun nofun⟩
  | .float .., .value, _, _, _, _, _, _, linked => ⟨trivial, .refl _, linked, trivial, .constant nofun nofun⟩
  | .string _ text, .value, ty, s, _, _, ready, _, linked => by
    obtain ⟨interned, known⟩ := linked.interned.intern text
    obtain ⟨name, global⟩ := s.module.intern_global text
    have gains := s.module.gains_intern text
    refine ⟨trivial, .refl _, ⟨?_, interned⟩, trivial, .constant known ?_⟩
    · exact linked.links.mono (fun _ => id) gains.structs gains.globals
    · intro r value
      cases value.symm.trans global
  | .variable _ name, want, ty, s, typed, _, ready, agrees, linked => by
    have bound := HasType.variable_iff.mp typed
    rw [← agrees.names] at bound
    obtain ⟨slot, found, rfl⟩ := Option.map_eq_some_iff.mp bound
    obtain ⟨r, value, member⟩ := ready.slots found
    have refers : Refers s .address slot.ty slot.value := value ▸ .slot ready member
    simp only [expr, Settles, wp_bind, wp_get, found, wp_map]
    exact settles_true (lowers_access ready linked (.refl _) trivial refers)
  | .assign _ target value, .value, ty, s, typed, _, ready, agrees, linked => by
    obtain ⟨left, right⟩ := HasType.assign_iff.mp typed
    have evaluated := settles_expr tables value .value right nofun ready agrees linked
    refine (settles_value tables right ready agrees evaluated).bind fun {typed s₁} found => ?_
    have placed := settles_expr tables target target.place left hasStorage_of_place found.ready found.agrees found.linked
    refine (settles_addressOf tables left found.ready found.agrees placed).finish fun {addr s₂} place => ?_
    have refers := found.refers.grow place.adds place.gains
    have stored := place.ready.sound.laid.adds_store typed.value addr.value
    refine ⟨(found.adds.trans place.adds).trans stored, ?_, trivial, refers.grow stored (.refl _)⟩
    exact place.linked.store place.ready refers.known place.refers found.fits.value
  | .binary _ op lhs rhs, .value, ty, s, typed, _, ready, agrees, linked => by
    obtain ⟨operand, left, right, rfl⟩ := HasType.binary_iff.mp typed
    have first := settles_expr tables lhs .value left nofun ready agrees linked
    refine ((settles_value tables left ready agrees first).bind fun found => ?_).congr
      (and_congr_right fun _ => and_congr_right fun _ => left.forall_iff.symm)
    have second := settles_expr tables rhs .value right nofun found.ready found.agrees found.linked
    refine (settles_value tables right found.ready found.agrees second).bind fun found' => .map ?_
    refine settles_combine found'.ready found'.linked (found.adds.trans found'.adds) trivial ?_ found.fits.value
    simpa using ⟨found'.gains.knows found.refers.known, found'.refers.known⟩
  | .unary _ .ref operand, .value, ty, s, typed, _, ready, agrees, linked => by
    obtain ⟨inner, typed', rfl⟩ := HasType.ref_iff.mp typed
    have placed := settles_expr tables operand operand.place typed' hasStorage_of_place ready agrees linked
    refine (settles_addressOf tables typed' ready agrees placed).finish fun place => ?_
    exact ⟨place.adds, place.linked, trivial, place.refers.known, fun same => place.refers.target same⟩
  | .unary _ .deref operand, want, ty, s, typed, _, ready, agrees, linked => by
    have typed := HasType.deref_iff.mp typed
    have evaluated := settles_expr tables operand .value typed nofun ready agrees linked
    refine (settles_value tables typed ready agrees evaluated).finish fun {pointer s₁} found => ?_
    rw [wp_bind]
    refine (gives_pointee found.fits.same).imp (fun target s₂ ⟨same, type⟩ => ?_) fun _ _ => id
    subst same type
    rw [wp_map]
    exact lowers_access found.ready found.linked found.adds trivial ⟨found.refers.known, fun same => found.refers.target same⟩
  | .unary _ .neg operand, .value, ty, s, typed, _, ready, agrees, linked => by
    have typed := HasType.neg_iff.mp typed
    have evaluated := settles_expr tables operand .value typed nofun ready agrees linked
    refine ((settles_value tables typed ready agrees evaluated).bind fun found => .map ?_).congr
      (and_congr_right fun _ => typed.forall_iff.symm)
    exact settles_negate found.ready found.linked found.adds trivial found.refers.known found.fits.value
  | .call _ name _ args, .value, ty, s, typed, _, ready, agrees, linked => by
    obtain ⟨f, known, args', complete, rfl⟩ := HasType.call_iff.mp typed
    refine .known (gives_callee agrees tables known) ?_
    refine (settles_exprs tables args args' ready agrees linked).finish fun passed => ?_
    refine lowers_call passed.ready passed.linked passed.adds ?_ passed.known
    exact ⟨fun has => has f known, fun returns g known' => by cases known.symm.trans known'; exact returns⟩
  | .field _ base name, want, ty, s, typed, _, ready, agrees, linked => by
    obtain ⟨struct, d, index, decl, inner, known, found, rfl⟩ := HasType.field_iff.mp typed
    have placed := settles_expr tables base base.place inner hasStorage_of_place ready agrees linked
    refine (settles_addressOf tables inner ready agrees placed).finish fun {addr s₁} place => ?_
    simp only [place.fits.same, wp_bind]
    refine (gives_field place.agrees tables known found).imp (fun position s₂ ⟨same, result⟩ => ?_) fun _ _ => id
    subst same result
    have type := fieldType?_eq place.agrees known found
    obtain ⟨ready₂, linked₂, adds, refers⟩ := refers_define (f := (.fieldAddr · struct addr.value index)) place.ready
      place.linked (fun _ => rfl) (by simpa using place.available) (by simpa using place.refers.known) (fun _ => rfl)
      (fun _ => rfl) (fun same => by cases same; exact type)
    rw [wp_build, wp_map]
    exact lowers_access ready₂ linked₂ (place.adds.trans adds) trivial refers
  | .index _ base offset, want, ty, s, typed, _, ready, agrees, linked => by
    obtain ⟨pointed, width, position⟩ := HasType.index_iff.mp typed
    have first := settles_expr tables base .value pointed nofun ready agrees linked
    refine (settles_value tables pointed ready agrees first).bind fun {pointer s₁} found => ?_
    refine .known (gives_pointee found.fits.same) ?_
    have second := settles_expr tables offset .value position nofun found.ready found.agrees found.linked
    refine (settles_value tables position found.ready found.agrees second).finish fun {index s₂} found' => ?_
    have available := found.available.straight found.ready.sound.laid found'.ready.sound.laid found'.straight
    obtain ⟨ready₃, linked₃, adds, refers⟩ :=
      refers_define (f := (.elementAddr · (.ofSource ty) pointer.value index.value)) found'.ready found'.linked
        (fun _ => rfl) (by simpa using ⟨available, found'.available⟩)
        (by simpa using ⟨found'.gains.knows found.refers.known, found'.refers.known⟩) (fun _ => rfl) (fun _ => rfl) nofun
    rw [wp_bind, wp_build, wp_map]
    exact lowers_access ready₃ linked₃ ((found.adds.trans found'.adds).trans adds) trivial refers
  | .struct _ name fields, want, ty, s, typed, _, ready, agrees, linked => by
    obtain ⟨d, known, inits', rfl⟩ := HasType.struct_iff.mp typed
    have slot := ready.alloca (.struct name)
    have ready₁ := slot.ready ready
    have available := slot.available _ (List.mem_singleton_self _)
    have refers : Refers _ .address (.struct name) _ := Refers.alloca ready (.struct name)
    simp only [expr, Settles]
    rw [wp_bind, wp_build]
    refine (settles_inits tables known _ fields (inits' rfl) available refers.known ready₁ (agrees.alloca ready _)
      (linked.alloca ready _)).finish fun filled => ?_
    rw [wp_map]
    exact lowers_access filled.ready filled.linked ((ready.sound.laid.adds_alloca _).trans filled.adds) trivial
      (refers.grow filled.adds filled.gains)
termination_by structural e => e

theorem settles_exprs (tables : Tables scope Γ) : (es : List Expr) → {ps : List Param} → {s : FunctionState} →
    ArgsTyped .strict Γ ps es → Ready s → Agrees Γ s → Linked s →
    Settles (exprs scope es) s (Expr.allSupported Γ es) (LowersAll s)
  | [], _, _, _, ready, _, linked => ⟨trivial, ready, .refl _, .refl _, linked, by simp⟩
  | e :: rest, _, s, typed, ready, agrees, linked => by
    obtain ⟨p, others, rfl, first, typed⟩ := ArgsTyped.cons_iff.mp typed
    have evaluated := settles_expr tables e .value first nofun ready agrees linked
    refine (settles_value tables first ready agrees evaluated).bind fun found => ?_
    refine (settles_exprs tables rest typed found.ready found.agrees found.linked).finish fun passed => ?_
    refine ⟨passed.ready, found.gains.trans passed.gains, found.adds.trans passed.adds, passed.linked, ?_⟩
    exact List.forall_mem_cons.mpr ⟨passed.gains.knows found.refers.known, passed.known⟩
termination_by structural es => es

theorem settles_inits (tables : Tables scope Γ) {struct : String} {d : StructDecl} (known : Γ.structs struct = some d)
    (slot : Ir.Value) : (fields : List FieldInit) → {s : FunctionState} → InitsTyped .strict Γ d fields →
    s.function.Available slot → s.module.module.Knows slot → Ready s → Agrees Γ s → Linked s →
    Settles (inits scope struct slot fields) s (FieldInit.allSupported Γ fields) fun _ => LowersAll s []
  | [], s, typed, available, _, ready, agrees, linked => ⟨trivial, ready, .refl _, .refl _, linked, by simp⟩
  | first :: rest, s, typed, available, slotKnown, ready, agrees, linked => by
    obtain ⟨⟨index, field, found, value⟩, typed⟩ := InitsTyped.cons_iff.mp typed
    have shape := (gives_init tables known slot first rest found value available ready agrees
      (c := .start .strict .empty)).along (makes_init scope struct slot first ready available)
    have run := settles_init tables known slot first found value available slotKnown ready agrees linked
    have stored : Settles (Lower.init scope struct slot first) s (first.Supported Γ) fun _ s' =>
        Yields s true [] s' ∧ Agrees Γ s' ∧ s.function.Adds s'.function ∧ Linked s' :=
      (shape.and run).imp (fun _ s' ⟨⟨_, yields, agrees₁, _⟩, holds, filled⟩ => ⟨holds, yields, agrees₁, filled⟩)
        fun _ _ failed => failed.2
    refine stored.bind fun ⟨yields, agrees₁, adds, linked₁⟩ => ?_
    refine (settles_inits tables known slot rest typed (yields.keeps ready available) (yields.gains.knows slotKnown)
      (yields.ready ready) agrees₁ linked₁).imp (fun _ s' ⟨holds, others⟩ => ⟨holds, ?_⟩) fun _ _ => id
    exact ⟨others.ready, yields.gains.trans others.gains, adds.trans others.adds, others.linked, by simp⟩
termination_by structural fields => fields

theorem settles_init (tables : Tables scope Γ) {struct : String} {d : StructDecl} (known : Γ.structs struct = some d)
    (slot : Ir.Value) : (init : FieldInit) → {s : FunctionState} → {index : Nat} → {field : Field} →
    d.field? init.name = some (index, field) → HasType .strict Γ init.value field.ty → s.function.Available slot →
    s.module.module.Knows slot → Ready s → Agrees Γ s → Linked s →
    Settles (Lower.init scope struct slot init) s (init.Supported Γ) fun _ s' => s.function.Adds s'.function ∧ Linked s'
  | ⟨name, value, _⟩, s, index, field, found, typed, available, slotKnown, ready, agrees, linked => by
    refine .known (gives_field agrees tables known found) ?_
    have evaluated := settles_expr tables value .value typed nofun ready agrees linked
    refine (settles_value tables typed ready agrees evaluated).finish fun {result s₁} given => ?_
    rw [wp_bind]
    refine (gives_checkField given.agrees known found given.fits.value).imp (fun _ s₂ same => ?_) fun _ _ => id
    subst same
    have available₁ := available.straight ready.sound.laid given.ready.sound.laid given.straight
    have type := fieldType?_eq given.agrees known found
    obtain ⟨ready₂, linked₂, adds, refers⟩ := refers_define (f := (.fieldAddr · struct slot index)) given.ready
      given.linked (fun _ => rfl) (by simpa using available₁) (by simpa using given.gains.knows slotKnown) (fun _ => rfl)
      (fun _ => rfl) (fun same => by cases same; exact type)
    have stored := ready₂.sound.laid.adds_store result.value (s₂.function.fieldAddr struct slot index).1
    rw [wp_bind, wp_build, wp_write]
    exact ⟨(given.adds.trans adds).trans stored, linked₂.store ready₂ given.refers.known refers given.fits.value⟩
termination_by structural init => init

end

end Lower

end StructLang
