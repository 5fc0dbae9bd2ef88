import StructLang.Proofs.Builder.Each
import StructLang.Proofs.Builder.Finished
import StructLang.Proofs.Ir.WellFormed
import StructLang.Proofs.Lowering.Agreement
import StructLang.Proofs.Typing.Truth

namespace StructLang

open Ir

namespace Ir.Block.KeepsTruth

variable {b : Block}

theorem empty (id : Nat) (label : String) : (Block.empty id label).KeepsTruth :=
  ⟨by rintro i ⟨⟩, by rintro t ⟨⟩⟩

theorem emit (keeps : b.KeepsTruth) {i : Instruction} (new : i.KeepsTruth) :
    { b with instructions := b.instructions ++ [i] : Block }.KeepsTruth := by
  refine ⟨fun j written => ?_, keeps.exit⟩
  rcases List.mem_append.mp written with before | here
  · exact keeps.instructions j before
  · exact List.mem_singleton.mp here ▸ new

theorem slot (keeps : b.KeepsTruth) {is : List Instruction} {id : Nat} {ty : Ir.Ty}
    (slots : ∀ i ∈ is, i = .alloca ⟨id, .ptr⟩ ty ∨ i ∈ b.instructions) : { b with instructions := is : Block }.KeepsTruth := by
  refine ⟨fun j written => ?_, keeps.exit⟩
  rcases slots j written with rfl | before
  · rintro r ⟨⟩ ⟨⟩
  · exact keeps.instructions j before

theorem finish (keeps : b.KeepsTruth) {t : Terminator} (tests : t.TestsTruth) :
    { b with terminator := some t : Block }.KeepsTruth := by
  refine ⟨keeps.instructions, ?_⟩
  rintro _ ⟨⟩
  exact tests

end Ir.Block.KeepsTruth

namespace Ir.FunctionBuilder.Finished

variable {b : FunctionBuilder}

/-- The slots are written by the function, and so is what a block with a place writes. -/
theorem mem_defs (done : b.Finished) {id : Nat} (placed : id ∈ b.attached) {r : Reg}
    (written : r ∈ defs b.slots ∨ r ∈ defs (b.code id)) : r ∈ defs b.build.body := by
  have laid := done.sound.laid
  have body : b.build.body = b.attached.flatMap b.instructions := by
    obtain ⟨label, blocks⟩ := done.blocks_eq
    rw [Function.body, blocks, List.flatMap_map]
  have inside {id : Nat} (placed : id ∈ b.attached) (written : r ∈ defs (b.instructions id)) : r ∈ defs b.build.body := by
    obtain ⟨i, member, dest⟩ := List.mem_filterMap.mp written
    exact List.mem_filterMap.mpr ⟨i, body ▸ List.mem_flatMap.mpr ⟨id, placed, member⟩, dest⟩
  rcases written with slot | written
  · refine inside (List.mem_of_head? laid.entry) ?_
    rw [laid.front, defs_append]
    exact List.mem_append_left _ slot
  · refine inside placed ?_
    by_cases entry : id = 0
    · subst entry
      rw [laid.front, defs_append]
      exact List.mem_append_right _ written
    · rwa [laid.others entry]

/-- A function that is finished keeps truth values if its blocks do. -/
theorem keepsTruth (done : b.Finished) (each : b.Each Block.KeepsTruth) : b.build.KeepsTruth where
  blocks _ placed := each.build placed
  once := by
    obtain ⟨label, others, blocks⟩ := done.entry
    have shaped : b.build.Shaped ⟨0, label, b.instructions 0, b.exit 0⟩ := done.shaped rfl rfl
    exact shaped.once
  reads block placed i written r read := by
    obtain ⟨label, blocks⟩ := done.blocks_eq
    rw [blocks] at placed
    obtain ⟨id, here, rfl⟩ := List.mem_map.mp placed
    have code : i ∈ b.code id → r ∈ defs b.build.body :=
      fun member => done.mem_defs here ((done.sound.reads id).reads i member _ read)
    by_cases entry : id = 0
    · subst entry
      rw [done.sound.laid.front] at written
      rcases List.mem_append.mp written with slot | member
      · exact ((slots_ordered b b.params.length fun _ => False).reads i slot _ read).elim False.elim
          fun known => done.mem_defs here (.inl known)
      · exact code member
    · rw [done.sound.laid.others entry] at written
      exact code written
  exits block placed t exit r read := by
    obtain ⟨label, blocks⟩ := done.blocks_eq
    rw [blocks] at placed
    obtain ⟨id, here, rfl⟩ := List.mem_map.mp placed
    exact done.mem_defs here ((done.sound.exits exit).reads _ read)

end Ir.FunctionBuilder.Finished

theorem Ir.Ty.ofSource_eq_truth_iff {ty : StructLang.Ty} : Ir.Ty.ofSource ty = .int 1 ↔ ty = .bool := by
  cases ty <;> simp [Ir.Ty.ofSource]

theorem Ty.ne_bool_of_plain {ty : Ty} (plain : ty.leadsToTruth = false) : ty ≠ .bool := by
  rintro rfl
  cases plain

/-- Only where an expression has no storage is its value wanted for its address. -/
theorem Expr.keepsTruth_value {e : Expr} (free : e.hasStorage = false) : e.keepsTruth .value = e.keepsTruth .address := by
  cases e with
  | unary _ op _ =>
    cases op with
    | deref => cases free
    | _ => rfl
  | «variable» | field | index | struct => cases free
  | _ => rfl

theorem BinaryOp.onInts_of_keepsTruth {op : BinaryOp} (keeps : op.keepsTruth = true) {o : BinOp} (on : op.onInts = .inl o) :
    o = .mul ∨ o = .sdiv := by
  cases op with
  | mul =>
    cases on
    exact .inl rfl
  | div =>
    cases on
    exact .inr rfl
  | add | sub => cases keeps
  | _ => cases on

structure Scope.Truthless (scope : Scope) : Prop where
  functions : ∀ {name f}, scope.functions.get? name = some f → f.returns.leadsToTruth = false
  fields : ∀ {name d}, scope.structs.get? name = some d → ∀ field ∈ d.fields, field.ty.leadsToTruth = false

structure Truthful (s : FunctionState) : Prop where
  blocks : s.function.Each Block.KeepsTruth
  locals : ∀ {name slot}, s.locals.get? name = some slot → slot.value.ty = .ptr ∧ slot.ty.leadsToTruth = false

theorem InitsTyped.split {o : Strictness} {Γ : Context} {d : StructDecl} {first : FieldInit} {rest : List FieldInit}
    (typed : InitsTyped o Γ d (first :: rest)) : (∃ ty, HasType o Γ first.value ty) ∧ InitsTyped o Γ d rest := by
  cases typed with
  | cons _ first rest => exact ⟨⟨_, first⟩, rest⟩

namespace Lower

section Steady

variable {α β : Type} {x : Lower α} {post : α → Prop}

def Steady (x : Lower α) (post : α → Prop) : Prop :=
  ∀ s, Truthful s → Wp x s (fun a s' => Truthful s' ∧ post a) fun _ _ => True

theorem Steady.mono {post' : α → Prop} (steady : Steady x post) (imp : ∀ a, post a → post' a) : Steady x post' :=
  fun s truthful => (steady s truthful).mono fun a _ done => ⟨done.1, imp a done.2⟩

theorem steady_pure {a : α} (holds : post a) : Steady (pure a) post := fun _ truthful => ⟨truthful, holds⟩

theorem steady_throw {e : LoweringError} : Steady (throw e) post := fun _ _ => trivial

theorem steady_throw_bind {f : α → Lower β} {e : LoweringError} {post : β → Prop} : Steady (throw e >>= f) post :=
  fun _ _ => trivial

theorem steady_get : Steady get Truthful := fun _ truthful => ⟨truthful, truthful⟩

theorem Steady.bind {f : α → Lower β} {post' : β → Prop} (first : Steady x post) (next : ∀ a, post a → Steady (f a) post') :
    Steady (x >>= f) post' := by
  intro s truthful
  rw [wp_bind]
  exact (first s truthful).mono fun a s' done => next a done.2 s' done.1

theorem Steady.map {f : α → β} {post' : β → Prop} (steady : Steady x post) (imp : ∀ a, post a → post' (f a)) :
    Steady (f <$> x) post' := by
  intro s truthful
  rw [wp_map]
  exact (steady s truthful).mono fun a _ done => ⟨done.1, imp a done.2⟩

theorem Steady.valueOf {e : Expr} {x : Lower (Option Typed)} {post : Typed → Prop}
    (steady : Steady x fun result => ∀ typed, result = some typed → post typed) : Steady (valueOf e x) post := by
  refine steady.bind fun result holds => ?_
  cases result with
  | none => exact steady_throw
  | some typed => exact steady_pure (holds typed rfl)

theorem steady_define {ty : Ir.Ty} {f : Reg → Instruction} (keeps : ∀ r, r.ty = ty → (f r).KeepsTruth) :
    Steady (build (·.define ty f)) fun v => ∃ r, v = .reg r ∧ r.ty = ty := by
  intro s truthful
  refine ⟨⟨?_, truthful.locals⟩, _, rfl, rfl⟩
  exact FunctionBuilder.Each.emit (b := { s.function with nextReg := s.function.nextReg + 1 }) Block.KeepsTruth.empty
    truthful.blocks fun kept => kept.emit (keeps _ rfl)

structure Made (ty : Ty) (typed : Typed) : Prop where
  type : typed.ty = ty
  register : ∃ r, typed.value = .reg r ∧ r.ty = .ofSource ty

theorem Made.value {ty : Ty} {typed : Typed} (made : Made ty typed) : typed.value.ty = .ofSource ty := by
  obtain ⟨r, value, type⟩ := made.register
  rw [value]
  exact type

theorem steady_made {ty : Ty} {type : Ir.Ty} {f : Reg → Instruction} (keeps : ∀ r, r.ty = type → (f r).KeepsTruth)
    (same : type = .ofSource ty) : Steady (build (·.define type f) >>= fun v => pure (⟨v, ty⟩ : Typed)) (Made ty) := by
  refine (steady_define keeps).bind ?_
  rintro _ ⟨r, rfl, type⟩
  exact steady_pure ⟨rfl, r, rfl, type.trans same⟩

theorem steady_address {f : Reg → Instruction} (keeps : ∀ r, r.ty ≠ .int 1 → (f r).KeepsTruth) :
    Steady (build (·.define .ptr f)) fun v => v.ty = .ptr := by
  refine (steady_define fun r type => keeps r ?_).mono ?_
  · rw [type]
    rintro ⟨⟩
  · rintro _ ⟨r, rfl, type⟩
    exact type

theorem steady_store {value addr : Ir.Value} : Steady (write (·.store value addr)) fun _ => True := by
  intro s truthful
  refine ⟨⟨?_, truthful.locals⟩, trivial⟩
  exact truthful.blocks.emit Block.KeepsTruth.empty fun kept => kept.emit (by rintro r ⟨⟩)

theorem steady_slot {ty : Ir.Ty} : Steady (build (·.alloca ty)) fun v => v.ty = .ptr := by
  intro s truthful
  refine ⟨⟨truthful.blocks.alloca Block.KeepsTruth.empty ty fun kept slots => kept.slot slots, truthful.locals⟩, ?_⟩
  change (s.function.alloca ty).1.ty = .ptr
  unfold FunctionBuilder.alloca
  simp only [FunctionBuilder.newReg]
  split <;> rfl

theorem steady_terminate {t : Terminator} (tests : t.TestsTruth) : Steady (terminate t) fun _ => True := by
  intro s truthful
  exact ⟨⟨truthful.blocks.terminate Block.KeepsTruth.empty fun kept => kept.finish tests, truthful.locals⟩, trivial⟩

end Steady

/-- A lowered expression whose type leads to a truth value exactly if its form says so. A truth value is in a register. -/
structure Shows (want : Want) (e : Expr) (typed : Typed) : Prop where
  truth : typed.ty.truth? = e.truth?
  value : typed.value.ty = want.irTy typed.ty
  register : want = .value → typed.ty = .bool → typed.value.IsTruth

abbrev Shown (want : Want) (e : Expr) (result : Option Typed) : Prop := ∀ typed, result = some typed → Shows want e typed

theorem Shows.ofPlain {want : Want} {e : Expr} {typed : Typed} (none : e.truth? = none) (plain : typed.ty.leadsToTruth = false)
    (value : typed.value.ty = want.irTy typed.ty) : Shows want e typed where
  truth := (Ty.truth?_eq_none plain).trans none.symm
  value := value
  register _ truth := absurd truth (Ty.ne_bool_of_plain plain)

section Pointers

variable {want : Want} {e : Expr} {typed : Typed} {target : Ty} (shows : Shows .value e typed)
  (points : typed.ty = .ptr target)
include shows points

theorem Shows.address : typed.value.ty = .ptr := by
  rw [shows.value, points]
  rfl

theorem Shows.pointee : target.truth? = e.truth?.bind Ty.pointee? := by
  rw [← shows.truth, points, Ty.truth?_ptr]
  cases target.truth? <;> rfl

theorem Shows.unread (kept : want = .address ∨ e.truth? ≠ some (.ptr .bool)) : want = .value → target ≠ .bool := by
  rintro rfl rfl
  rcases kept with wrong | other
  · cases wrong
  · rw [← shows.truth, points] at other
    exact other rfl

end Pointers

/-- What is read from an address is no truth value. -/
theorem steady_access {addr : Ir.Value} {ty : Ty} {want : Want} (address : addr.ty = .ptr)
    (plain : want = .value → ty ≠ .bool) :
    Steady (access addr ty want) fun typed => typed.ty = ty ∧ typed.value.ty = want.irTy ty := by
  cases want with
  | address => exact steady_pure ⟨rfl, address⟩
  | value =>
    refine (steady_made (fun r type => ?_) rfl).mono fun _ made => ⟨made.type, made.value⟩
    rintro _ ⟨⟩ truth
    exact plain rfl (Ir.Ty.ofSource_eq_truth_iff.mp (type.symm.trans truth))

theorem Steady.shows {x : Lower Typed} {want : Want} {e : Expr} {ty : Ty}
    (steady : Steady x fun typed => typed.ty = ty ∧ typed.value.ty = want.irTy ty) (truth : ty.truth? = e.truth?)
    (plain : want = .value → ty ≠ .bool) : Steady (some <$> x) (Shown want e) := by
  refine steady.map ?_
  rintro typed ⟨rfl, value⟩ _ ⟨⟩
  exact ⟨truth, value, fun wanted truth => absurd truth (plain wanted)⟩

theorem steady_accessed {addr : Ir.Value} {ty : Ty} {want : Want} {e : Expr} (address : addr.ty = .ptr)
    (plain : want = .value → ty ≠ .bool) (truth : ty.truth? = e.truth?) :
    Steady (some <$> access addr ty want) (Shown want e) :=
  (steady_access address plain).shows truth plain

theorem steady_pointee {operation : String} {ty : Ty} : Steady (pointee operation ty) fun target => ty = .ptr target := by
  unfold pointee
  split
  · rename_i target found
    cases ty with
    | ptr target =>
      cases found
      exact steady_pure rfl
    | _ => cases found
  · exact steady_throw

section Expressions

variable {scope : Scope}

theorem Want.eq_value {want : Want} {e : Expr} (stored : want = .address → e.hasStorage = true) (free : e.hasStorage = false) :
    want = .value := by
  cases want with
  | value => rfl
  | address => cases free.symm.trans (stored rfl)

theorem steady_addressOf {e : Expr} (keeps : e.keepsTruth .address = true)
    (lower : ∀ want, (want = .address → e.hasStorage = true) → e.keepsTruth want = true →
      Steady (Lower.expr scope want e) (Shown want e)) :
    Steady (addressOf e fun want => Lower.expr scope want e) (Shows .address e) := by
  unfold addressOf
  split
  · rename_i stored
    exact (lower .address (fun _ => stored) keeps).valueOf
  · rename_i free
    have free : e.hasStorage = false := by simpa using free
    refine (lower .value (by rintro ⟨⟩) (Expr.keepsTruth_value free ▸ keeps)).valueOf.bind fun typed shows => ?_
    refine steady_slot.bind fun slot address => steady_store.bind fun _ _ => steady_pure ?_
    exact ⟨shows.truth, address, by rintro ⟨⟩⟩

theorem steady_negate {span : Span} {operand : Expr} {typed : Typed} (shows : Shows .value operand typed)
    (plain : operand.truth? ≠ some .bool) : Steady (some <$> negate typed) (Shown .value (.unary span .neg operand)) := by
  have other : typed.ty ≠ .bool := by
    intro truth
    rw [← shows.truth, truth] at plain
    exact plain rfl
  have kept (r : Reg) (type : r.ty = typed.value.ty) : r.ty ≠ .int 1 := by
    rw [type, shows.value]
    exact fun truth => other (Ir.Ty.ofSource_eq_truth_iff.mp truth)
  have made : Steady (negate typed) (Made typed.ty) := by
    unfold negate
    split
    · refine steady_made (fun r type => ?_) shows.value
      rintro _ ⟨⟩
      exact kept r type
    · refine steady_made (fun r type => ?_) shows.value
      rintro _ ⟨⟩
      exact kept r type
    · exact steady_throw
  refine (made.mono fun _ made => ⟨made.type, made.value⟩ : Steady _ _).shows ?_ fun _ => other
  rw [Expr.truth?]
  exact shows.truth

/-- A product or a quotient of truth values is made of two of them. -/
theorem steady_combine {span : Span} {op : BinaryOp} {l r : Expr} {lhs rhs : Typed} (left : Shows .value l lhs)
    (right : Shows .value r rhs) (same : l.truth? = r.truth?) (kept : op.keepsTruth = true ∨ l.truth? ≠ some .bool) :
    Steady (some <$> combine op lhs rhs) (Shown .value (.binary span op l r)) := by
  have computed (kind : op.isComparison = false) : lhs.value.ty = .ofSource (if op.isComparison then .bool else lhs.ty) := by
    rw [kind]
    exact left.value
  have compared (kind : op.isComparison = true) : .int 1 = Ir.Ty.ofSource (if op.isComparison then .bool else lhs.ty) := by
    rw [kind]
    rfl
  have made : Steady (combine op lhs rhs) (Made (if op.isComparison then .bool else lhs.ty)) := by
    simp only [combine]
    split
    · rename_i width type
      rcases BinaryOp.onFloats_cases op with ⟨o, on, kind, -⟩ | ⟨pred, on, kind⟩ <;> simp only [on]
      · refine steady_made (fun r result truth => ?_) (computed kind)
        cases (type.symm.trans (result.symm.trans truth))
      · exact steady_made (fun _ _ => trivial) (compared kind)
    · rename_i width type
      rcases BinaryOp.onInts_cases op with ⟨o, on, kind, -⟩ | ⟨pred, on, kind⟩ <;> simp only [on]
      · refine steady_made (fun r result truth => ?_) (computed kind)
        have bool : lhs.ty = .bool := Ir.Ty.ofSource_eq_truth_iff.mp (left.value.symm.trans (result.symm.trans truth))
        have here : l.truth? = some .bool := by
          rw [← left.truth, bool]
          rfl
        have there : rhs.ty = .bool := (Ty.truth?_eq_some_iff.mp (right.truth.trans (same.symm.trans here))).1
        refine ⟨BinaryOp.onInts_of_keepsTruth (kept.resolve_right fun other => other here) on, ?_⟩
        exact ⟨left.register rfl bool, right.register rfl there⟩
      · exact steady_made (fun _ _ => trivial) (compared kind)
    · rcases BinaryOp.onInts_cases op with ⟨o, on, kind, -⟩ | ⟨pred, on, kind⟩ <;> simp only [on]
      · exact steady_throw_bind
      · exact steady_made (fun _ _ => trivial) (compared kind)
    · exact steady_throw_bind
  refine made.map ?_
  rintro typed made _ ⟨⟩
  refine ⟨?_, made.type ▸ made.value, fun _ truth => ?_⟩
  · rw [Expr.truth?, made.type]
    split
    · rfl
    · exact left.truth
  · obtain ⟨r, value, result⟩ := made.register
    refine ⟨r, value, ?_⟩
    rw [result, ← made.type, truth]
    rfl

theorem steady_field (truthless : scope.Truthless) {struct name : String} :
    Steady (field scope struct name) fun found => found.2.leadsToTruth = false := by
  refine steady_get.bind fun s _ => ?_
  split
  · exact steady_throw
  split
  · exact steady_throw
  split
  · exact steady_throw
  split
  · exact steady_throw
  · rename_i known _ _ _ found
    exact steady_pure (truthless.fields known _ (StructDecl.mem_of_field? found))

theorem steady_checkField {struct name : String} {index : Nat} {value : Ir.Value} :
    Steady (checkField struct name index value) fun _ => True := by
  refine steady_get.bind fun s _ => ?_
  split
  · exact steady_throw
  split
  · exact steady_pure trivial
  · exact steady_throw

/-- A call receives no truth value. -/
theorem steady_call {name : String} {args : List Ir.Value} {returns : Ty} (plain : returns.leadsToTruth = false) :
    Steady (build (·.call name args (.ofSource returns))) fun result => ∀ v, result = some v → v.ty = .ofSource returns := by
  have other : Ir.Ty.ofSource returns ≠ .int 1 := fun truth =>
    Ty.ne_bool_of_plain plain (Ir.Ty.ofSource_eq_truth_iff.mp truth)
  have defined : Steady (build (·.define (.ofSource returns) fun dest => .call (some dest) name args)) _ :=
    steady_define fun r type => by
      rintro _ ⟨⟩
      exact type ▸ other
  intro s truthful
  simp only [wp_build, FunctionBuilder.call]
  split
  · refine ⟨⟨?_, truthful.locals⟩, by rintro v ⟨⟩⟩
    exact truthful.blocks.emit Block.KeepsTruth.empty fun kept => kept.emit (by rintro r ⟨⟩)
  · obtain ⟨truthful', r, value, type⟩ := defined s truthful
    refine ⟨truthful', ?_⟩
    rintro v ⟨⟩
    exact type ▸ congrArg Value.ty value

theorem steady_callee (truthless : scope.Truthless) {name : String} :
    Steady (callee scope name) fun returns => returns.leadsToTruth = false := by
  unfold callee
  refine steady_get.bind fun s _ => ?_
  split
  · rename_i known _
    exact steady_pure (truthless.functions known)
  · exact steady_throw

variable {Γ : Context}

mutual

theorem steady_expr (truthless : scope.Truthless) (plain : Γ.Truthless) : (e : Expr) → (want : Want) →
    (want = .address → e.hasStorage = true) → e.keepsTruth want = true → {ty : Ty} → HasType .strict Γ e ty →
    Steady (Lower.expr scope want e) (Shown want e)
  | .int .., want, stored, _, _, _ => by
    cases Want.eq_value stored rfl
    simp only [Lower.expr]
    refine steady_pure ?_
    rintro _ ⟨⟩
    exact .ofPlain rfl rfl rfl
  | .float .., want, stored, _, _, _ => by
    cases Want.eq_value stored rfl
    simp only [Lower.expr]
    refine steady_pure ?_
    rintro _ ⟨⟩
    exact .ofPlain rfl rfl rfl
  | .string _ text, want, stored, _, _, _ => by
    cases Want.eq_value stored rfl
    simp only [Lower.expr]
    have interned : Steady (modifyGet fun s => ((s.module.intern text).1, { s with module := (s.module.intern text).2 }))
        fun global => global.ty = .ptr := by
      intro s truthful
      refine ⟨⟨truthful.blocks, truthful.locals⟩, ?_⟩
      change (s.module.intern text).1.ty = .ptr
      unfold ModuleBuilder.intern
      split <;> rfl
    refine interned.bind fun global type => steady_pure ?_
    rintro _ ⟨⟩
    exact .ofPlain rfl rfl type
  | .variable .., want, _, _, _, _ => by
    simp only [Lower.expr]
    refine steady_get.bind fun s truthful => ?_
    split
    · exact steady_throw
    · rename_i slot found
      obtain ⟨address, none⟩ := truthful.locals found
      exact steady_accessed address (fun _ => Ty.ne_bool_of_plain none) (Ty.truth?_eq_none none)
  | .assign _ target value, want, stored, keeps, _, .assign left right => by
    cases Want.eq_value stored rfl
    simp only [Expr.keepsTruth, Bool.and_eq_true] at keeps
    simp only [Lower.expr]
    refine (steady_expr truthless plain value .value (by rintro ⟨⟩) keeps.1 right).valueOf.bind fun typed shows => ?_
    refine (steady_addressOf keeps.2 fun want stored keeps => steady_expr truthless plain target want stored keeps left).bind
      fun _ _ => steady_store.bind fun _ _ => steady_pure ?_
    rintro _ ⟨⟩
    exact ⟨shows.truth, shows.value, shows.register⟩
  | .binary _ op lhs rhs, want, stored, keeps, ty, typed => by
    cases Want.eq_value stored rfl
    obtain ⟨operand, left, right, -⟩ := HasType.binary_iff.mp typed
    simp only [Expr.keepsTruth, Bool.and_eq_true, Bool.or_eq_true, bne_iff_ne] at keeps
    simp only [Lower.expr]
    refine (steady_expr truthless plain lhs .value (by rintro ⟨⟩) keeps.1.1 left).valueOf.bind fun l shows => ?_
    refine (steady_expr truthless plain rhs .value (by rintro ⟨⟩) keeps.1.2 right).valueOf.bind fun r shows' => ?_
    exact steady_combine shows shows' ((left.truth plain lhs).trans (right.truth plain rhs).symm) keeps.2
  | .unary _ .neg operand, want, stored, keeps, _, .neg inner => by
    cases Want.eq_value stored rfl
    simp only [Expr.keepsTruth, Bool.and_eq_true, bne_iff_ne] at keeps
    simp only [Lower.expr]
    refine (steady_expr truthless plain operand .value (by rintro ⟨⟩) keeps.1 inner).valueOf.bind fun typed shows => ?_
    exact steady_negate shows keeps.2
  | .unary _ .ref operand, want, stored, keeps, _, .ref inner => by
    cases Want.eq_value stored rfl
    simp only [Expr.keepsTruth] at keeps
    simp only [Lower.expr]
    refine (steady_addressOf keeps fun want stored keeps => steady_expr truthless plain operand want stored keeps inner).bind
      fun addr shows => steady_pure ?_
    rintro _ ⟨⟩
    refine ⟨?_, shows.value, by rintro _ ⟨⟩⟩
    rw [Ty.truth?_ptr, shows.truth, Expr.truth?]
  | .unary _ .deref operand, want, _, keeps, _, .deref inner => by
    simp only [Expr.keepsTruth, Bool.and_eq_true, Bool.or_eq_true, beq_iff_eq, bne_iff_ne] at keeps
    simp only [Lower.expr]
    refine (steady_expr truthless plain operand .value (by rintro ⟨⟩) keeps.1 inner).valueOf.bind fun pointer shows => ?_
    refine steady_pointee.bind fun target points => ?_
    exact steady_accessed (shows.address points) (shows.unread points keeps.2) (shows.pointee points)
  | .call _ _ _ args, want, stored, keeps, _, .call _ typed _ => by
    cases Want.eq_value stored rfl
    simp only [Expr.keepsTruth] at keeps
    simp only [Lower.expr]
    refine (steady_callee truthless).bind fun returns none => ?_
    refine (steady_exprs truthless plain args keeps typed).bind fun values _ => ?_
    refine (steady_call none).bind fun result types => steady_pure ?_
    rintro _ made
    obtain ⟨v, rfl, rfl⟩ := Option.map_eq_some_iff.mp made
    exact .ofPlain rfl none (types v rfl)
  | .field _ base _, want, _, keeps, _, .field inner _ _ => by
    simp only [Expr.keepsTruth] at keeps
    simp only [Lower.expr]
    refine (steady_addressOf keeps fun want stored keeps => steady_expr truthless plain base want stored keeps inner).bind
      fun addr _ => ?_
    split
    · refine (steady_field truthless).bind fun found none => ?_
      refine (steady_address fun _ other => by rintro _ ⟨⟩; exact other).bind fun fieldAddr address => ?_
      exact steady_accessed address (fun _ => Ty.ne_bool_of_plain none) (Ty.truth?_eq_none none)
    · exact steady_throw
  | .index _ base offset, want, _, keeps, _, .index pointer position => by
    simp only [Expr.keepsTruth, Bool.and_eq_true, Bool.or_eq_true, beq_iff_eq, bne_iff_ne] at keeps
    simp only [Lower.expr]
    refine (steady_expr truthless plain base .value (by rintro ⟨⟩) keeps.1.1 pointer).valueOf.bind fun typed shows => ?_
    refine steady_pointee.bind fun target points => ?_
    refine (steady_expr truthless plain offset .value (by rintro ⟨⟩) keeps.1.2 position).valueOf.bind fun _ _ => ?_
    refine (steady_address fun _ other => by rintro _ ⟨⟩; exact other).bind fun addr address => ?_
    exact steady_accessed address (shows.unread points keeps.2) (shows.pointee points)
  | .struct _ name inits, want, _, keeps, _, .struct _ typed => by
    simp only [Expr.keepsTruth] at keeps
    simp only [Lower.expr]
    refine steady_slot.bind fun slot address => ?_
    refine (steady_inits truthless plain inits keeps (typed rfl)).bind fun _ _ => ?_
    exact steady_accessed address (by rintro _ ⟨⟩) rfl
termination_by structural e => e

theorem steady_exprs (truthless : scope.Truthless) (plain : Γ.Truthless) : (es : List Expr) → Expr.allKeepTruth es = true →
    {params : List Param} → ArgsTyped .strict Γ params es → Steady (Lower.exprs scope es) fun _ => True
  | [], _, _, _ => by
    simp only [Lower.exprs]
    exact steady_pure trivial
  | e :: rest, keeps, _, .cons first others => by
    simp only [Expr.allKeepTruth, Bool.and_eq_true] at keeps
    simp only [Lower.exprs]
    refine (steady_expr truthless plain e .value (by rintro ⟨⟩) keeps.1 first).valueOf.bind fun _ _ => ?_
    exact (steady_exprs truthless plain rest keeps.2 others).bind fun _ _ => steady_pure trivial
termination_by structural es => es

theorem steady_inits (truthless : scope.Truthless) (plain : Γ.Truthless) : (fields : List FieldInit) →
    FieldInit.allKeepTruth fields = true → {d : StructDecl} → InitsTyped .strict Γ d fields →
    {struct : String} → {slot : Ir.Value} → Steady (Lower.inits scope struct slot fields) fun _ => True
  | [], _, _, _, _, _ => by
    simp only [Lower.inits]
    exact steady_pure trivial
  | first :: rest, keeps, _, typed, _, _ => by
    simp only [FieldInit.allKeepTruth, Bool.and_eq_true] at keeps
    simp only [Lower.inits]
    obtain ⟨here, others⟩ := typed.split
    refine (steady_init truthless plain first keeps.1 here).bind fun _ _ => ?_
    exact steady_inits truthless plain rest keeps.2 others
termination_by structural fields => fields

theorem steady_init (truthless : scope.Truthless) (plain : Γ.Truthless) : (first : FieldInit) → first.keepsTruth = true →
    (∃ ty, HasType .strict Γ first.value ty) → {struct : String} → {slot : Ir.Value} →
    Steady (Lower.init scope struct slot first) fun _ => True
  | ⟨name, value, _⟩, keeps, typed, _, _ => by
    obtain ⟨ty, typed⟩ := typed
    simp only [FieldInit.keepsTruth] at keeps
    simp only [Lower.init]
    refine (steady_field truthless).bind fun found _ => ?_
    refine (steady_expr truthless plain value .value (by rintro ⟨⟩) keeps typed).valueOf.bind fun _ _ => ?_
    refine steady_checkField.bind fun _ _ => ?_
    exact (steady_address fun _ other => by rintro _ ⟨⟩; exact other).bind fun _ _ => steady_store
termination_by structural first => first

end

end Expressions

section Statements

variable {scope : Scope} {blockScoping : Bool}

theorem steady_create {label : String} : Steady (build (·.create label)) fun _ => True :=
  fun _ truthful => ⟨⟨truthful.blocks.create Block.KeepsTruth.empty label, truthful.locals⟩, trivial⟩

theorem steady_attach {label : String} : Steady (build (·.attach label)) fun _ => True :=
  fun _ truthful => ⟨⟨(truthful.blocks.create Block.KeepsTruth.empty label).append _, truthful.locals⟩, trivial⟩

theorem steady_switchTo {id : Nat} : Steady (write (·.switchTo id)) fun _ => True :=
  fun _ truthful => ⟨⟨truthful.blocks, truthful.locals⟩, trivial⟩

theorem steady_continueIn {id : Nat} : Steady (continueIn id) fun _ => True :=
  fun _ truthful => ⟨⟨truthful.blocks.append id, truthful.locals⟩, trivial⟩

theorem steady_isTerminated : Steady isTerminated fun _ => True := fun _ truthful => ⟨truthful, trivial⟩

theorem steady_branchTo {id : Nat} : Steady (branchTo id) fun _ => True := by
  refine steady_isTerminated.bind fun finished _ => ?_
  cases finished with
  | true => exact steady_pure trivial
  | false => exact steady_terminate trivial

theorem steady_bindLocal {name : String} {slot : Ir.Value} {ty : Ty} (address : slot.ty = .ptr) (named : ty.isNamed = true) :
    Steady (bindLocal name slot ty) fun _ => True := by
  refine fun s truthful => ⟨⟨truthful.blocks, fun {other found} bound => ?_⟩, trivial⟩
  rw [NameMap.get?_insert] at bound
  split at bound
  · cases bound
    exact ⟨address, Ty.leadsToTruth_of_isNamed named⟩
  · exact truthful.locals bound

/-- The names before a block are truthful, and so are they after it. -/
theorem Steady.inScope {body : Lower Unit} (steady : Steady body fun _ => True) :
    Steady (inScope blockScoping body) fun _ => True := by
  intro s truthful
  rw [wp_inScope]
  refine (steady s truthful).mono fun _ s' done => ⟨?_, trivial⟩
  cases blockScoping with
  | true => exact ⟨done.1.blocks, truthful.locals⟩
  | false => exact done.1

abbrev Sure (scope : Scope) (e : Expr) : Prop := Steady (Lower.expr scope .value e) (Shown .value e)

/-- What is tested is a truth value, or the result of a comparison with zero. -/
theorem steady_condition {e : Expr} (sure : Sure scope e) : Steady (condition scope e) Value.IsTruth := by
  refine Steady.valueOf sure |>.bind fun typed shows => ?_
  split
  · rename_i type
    exact steady_pure (shows.register rfl (Ir.Ty.ofSource_eq_truth_iff.mp (shows.value.symm.trans type)))
  · exact steady_define fun _ _ => trivial
  · exact steady_throw

theorem steady_evaluate {e : Expr} (sure : Sure scope e) : Steady (evaluate scope e) fun _ => True :=
  sure.bind fun _ _ => steady_pure trivial

theorem steady_loop {test : Expr} {body step : Lower Unit} (tested : Sure scope test) (inside : Steady body fun _ => True)
    (stepped : Steady step fun _ => True) : Steady (loop scope test body step) fun _ => True := by
  refine steady_attach.bind fun _ _ => steady_attach.bind fun _ _ => steady_create.bind fun _ _ => ?_
  refine (steady_terminate (t := .br _) trivial).bind fun _ _ => steady_switchTo.bind fun _ _ => ?_
  refine (steady_condition tested).bind fun cond truth => (steady_terminate (t := .condBr ..) truth).bind fun _ _ => ?_
  refine steady_switchTo.bind fun _ _ => inside.bind fun _ _ => steady_isTerminated.bind fun finished _ => ?_
  cases finished with
  | true => exact steady_continueIn
  | false => exact stepped.bind fun _ _ => (steady_terminate (t := .br _) trivial).bind fun _ _ => steady_continueIn

mutual

theorem steady_stmt : (st : Stmt) → st.isRegular = true → (∀ e ∈ st.exprs, Sure scope e) →
    Steady (Lower.stmt scope blockScoping st) fun _ => True
  | .letIn _ _ _ none, regular, _ => by
    rw [Stmt.isRegular] at regular
    simp only [Lower.stmt]
    exact steady_slot.bind fun _ address => steady_bindLocal address regular
  | .letIn _ _ _ (some init), regular, inside => by
    simp only [Stmt.isRegular, Bool.and_eq_true] at regular
    have sure : Sure scope init := inside init (by simp [Stmt.exprs])
    simp only [Lower.stmt]
    refine steady_slot.bind fun _ address => (Steady.valueOf sure).bind fun _ _ => ?_
    exact steady_store.bind fun _ _ => steady_bindLocal address regular.1
  | .ret _ none, _, _ => by
    simp only [Lower.stmt]
    exact steady_terminate trivial
  | .ret _ (some e), _, inside => by
    have sure : Sure scope e := inside e (by simp [Stmt.exprs])
    simp only [Lower.stmt]
    exact (Steady.valueOf sure).bind fun _ _ => steady_terminate trivial
  | .cond _ chain, regular, inside => by
    simp only [Stmt.isRegular, Bool.and_eq_true] at regular
    rw [Stmt.exprs] at inside
    simp only [Lower.stmt]
    exact steady_create.bind fun merge _ => (steady_chain merge chain regular.2 inside).bind fun _ _ => steady_continueIn
  | .while _ test body, regular, inside => by
    simp only [Stmt.isRegular, Bool.and_eq_true] at regular
    rw [Stmt.exprs, List.forall_mem_cons] at inside
    simp only [Lower.stmt]
    exact steady_loop inside.1 (steady_block body regular.2 inside.2) (steady_pure trivial)
  | .for _ init test step body, regular, inside => by
    simp only [Stmt.isRegular, Bool.and_eq_true] at regular
    rw [Stmt.exprs, List.forall_mem_append, List.forall_mem_cons, List.forall_mem_cons] at inside
    obtain ⟨first, tested, stepped, inside⟩ := inside
    simp only [Lower.stmt]
    refine Steady.inScope ((steady_stmt init regular.1.1.1.2 first).bind fun _ _ => ?_)
    exact steady_loop tested (steady_block body regular.2 inside) (steady_evaluate stepped)
  | .expr e, _, inside => by
    simp only [Lower.stmt]
    exact steady_evaluate (inside e (by simp [Stmt.exprs]))
termination_by structural st => st

theorem steady_chain (merge : Nat) : (chain : IfChain) → chain.isRegular = true → (∀ e ∈ chain.exprs, Sure scope e) →
    Steady (Lower.ifChain scope blockScoping merge chain) fun _ => True
  | .branch test body rest, regular, inside => by
    simp only [IfChain.isRegular, Bool.and_eq_true] at regular
    rw [IfChain.exprs, List.forall_mem_cons, List.forall_mem_append] at inside
    obtain ⟨tested, inside, others⟩ := inside
    simp only [Lower.ifChain]
    refine (steady_condition tested).bind fun cond truth => steady_attach.bind fun _ _ => steady_create.bind fun _ _ => ?_
    refine (steady_terminate (t := .condBr ..) truth).bind fun _ _ => steady_switchTo.bind fun _ _ => ?_
    refine (steady_block body regular.1.2 inside).bind fun _ _ => steady_branchTo.bind fun _ _ => ?_
    exact steady_continueIn.bind fun _ _ => steady_chain merge rest regular.2 others
  | .otherwise body, regular, inside => by
    rw [IfChain.exprs] at inside
    simp only [Lower.ifChain]
    exact (steady_block body regular inside).bind fun _ _ => steady_branchTo
  | .done, _, _ => by
    simp only [Lower.ifChain]
    exact steady_branchTo
termination_by structural chain => chain

theorem steady_block : (b : Block) → b.isRegular = true → (∀ e ∈ b.exprs, Sure scope e) →
    Steady (Lower.block scope blockScoping b) fun _ => True
  | ⟨body, _⟩, regular, inside => by
    rw [Block.exprs] at inside
    simp only [Lower.block]
    exact Steady.inScope (steady_stmts body regular inside)
termination_by structural b => b

theorem steady_stmts : (body : List Stmt) → Stmt.areRegular body = true → (∀ e ∈ exprsOf body, Sure scope e) →
    Steady (Lower.stmts scope blockScoping body) fun _ => True
  | [], _, _ => by
    simp only [Lower.stmts]
    exact steady_pure trivial
  | st :: rest, regular, inside => by
    simp only [Stmt.areRegular, Bool.and_eq_true] at regular
    rw [exprsOf, List.forall_mem_append] at inside
    simp only [Lower.stmts]
    exact (steady_stmt st regular.1 inside.1).bind fun _ _ => steady_stmts rest regular.2 inside.2
termination_by structural body => body

end

theorem steady_params : (ps : List Param) → (∀ p ∈ ps, p.ty.isNamed = true) → (index : Nat) →
    Steady (params index ps) fun _ => True
  | [], _, _ => steady_pure trivial
  | p :: rest, named, index => by
    simp only [Lower.params]
    refine steady_slot.bind fun _ address => steady_store.bind fun _ _ => ?_
    refine (steady_bindLocal address (named p (List.mem_cons_self ..))).bind fun _ _ => ?_
    exact steady_params rest (fun p member => named p (List.mem_cons_of_mem _ member)) (index + 1)

theorem steady_body {f : FunctionDecl} (signature : f.signature.isRegular = true) (regular : f.body.isRegular = true)
    (inside : ∀ e ∈ f.body.exprs, Sure scope e) : Steady (body scope blockScoping f) fun _ => True := by
  simp only [Signature.isRegular, Bool.and_eq_true, List.all_eq_true] at signature
  refine steady_attach.bind fun _ _ => steady_switchTo.bind fun _ _ => (steady_params _ signature.2 0).bind fun _ _ => ?_
  refine (steady_block f.body regular inside).bind fun _ _ => steady_isTerminated.bind fun finished _ => ?_
  cases finished with
  | true => exact steady_pure trivial
  | false =>
    refine steady_terminate ?_
    split <;> trivial

end Statements

end Lower

end StructLang
