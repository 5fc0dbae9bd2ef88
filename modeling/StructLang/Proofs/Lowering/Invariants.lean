import StructLang.Proofs.Lowering.Wp

namespace StructLang

open Ir

def Ir.Ty.result? : Ir.Ty → Option Ir.Ty
  | .void => none
  | ty => some ty

def Ir.Instruction.Receives (scope : Scope) : Instruction → Prop
  | .call dest callee _ =>
    ∃ f, scope.functions.get? callee = some f ∧ dest.map (·.ty) = (Ir.Ty.ofSource f.returns).result?
  | _ => True

namespace Lower

variable {α β : Type} {scope : Scope} {P : FunctionState → Prop}

def Preserves (P : FunctionState → Prop) (x : Lower α) : Prop :=
  ∀ s, P s → Wp x s (fun _ s' => P s') fun _ s' => P s'

theorem preserves_pure {a : α} : Preserves P (pure a) := fun _ holds => holds

theorem preserves_throw {e : LoweringError} : Preserves P (throw e : Lower α) := fun _ holds => holds

theorem preserves_get : Preserves P get := fun _ holds => holds

theorem Preserves.bind {x : Lower α} {f : α → Lower β} (first : Preserves P x) (next : ∀ a, Preserves P (f a)) :
    Preserves P (x >>= f) := by
  intro s holds
  rw [wp_bind]
  exact (first s holds).mono fun a s' holds' => next a s' holds'

theorem Preserves.map {x : Lower α} {f : α → β} (kept : Preserves P x) : Preserves P (f <$> x) := by
  intro s holds
  rw [wp_map]
  exact kept s holds

theorem Preserves.valueOf {e : Expr} {x : Lower (Option Typed)} (kept : Preserves P x) : Preserves P (valueOf e x) := by
  refine kept.bind fun result => ?_
  cases result with
  | none => exact preserves_throw
  | some typed => exact preserves_pure

/-- A property that no instruction, no slot and no string constant changes. -/
structure Invariant (scope : Scope) (P : FunctionState → Prop) : Prop where
  emit : ∀ {s} n {i}, i.Receives scope → P s → P { s with function := { s.function with nextReg := n }.emit i }
  alloca : ∀ {s} ty, P s → P { s with function := (s.function.alloca ty).2 }
  intern : ∀ {s} text, P s → P { s with module := (s.module.intern text).2 }

namespace Invariant

section Steps

variable (invariant : Invariant scope P)
include invariant

theorem define {ty : Ir.Ty} {f : Reg → Instruction} (fits : ∀ r, (f r).Receives scope) :
    Preserves P (build (·.define ty f)) :=
  fun _ holds => invariant.emit _ (fits _) holds

theorem store {value addr : Ir.Value} : Preserves P (write (·.store value addr)) :=
  fun s holds => invariant.emit s.function.nextReg trivial holds

theorem slot {ty : Ir.Ty} : Preserves P (build (·.alloca ty)) := fun _ holds => invariant.alloca ty holds

theorem addressOf {e : Expr} {lower : Want → Lower (Option Typed)} (kept : ∀ want, Preserves P (lower want)) :
    Preserves P (addressOf e lower) := by
  unfold Lower.addressOf
  split
  · exact (kept .address).valueOf
  · exact (kept .value).valueOf.bind fun _ => invariant.slot.bind fun _ => invariant.store.bind fun _ => preserves_pure

theorem access {addr : Ir.Value} {ty : Ty} {want : Want} : Preserves P (access addr ty want) := by
  cases want with
  | address => exact preserves_pure
  | value => exact (invariant.define fun _ => by trivial).bind fun _ => preserves_pure

omit invariant in
theorem pointee {operation : String} {ty : Ty} : Preserves P (pointee operation ty) := by
  unfold Lower.pointee
  split
  · exact preserves_pure
  · exact preserves_throw

omit invariant in
theorem field {struct name : String} : Preserves P (field scope struct name) := by
  refine preserves_get.bind fun s => ?_
  split
  · exact preserves_throw
  split
  · exact preserves_throw
  split
  · exact preserves_throw
  split
  · exact preserves_throw
  · exact preserves_pure

omit invariant in
theorem checkField {struct name : String} {index : Nat} {value : Ir.Value} :
    Preserves P (checkField struct name index value) := by
  refine preserves_get.bind fun s => ?_
  split
  · exact preserves_throw
  split
  · exact preserves_pure
  · exact preserves_throw

theorem negate {operand : Typed} : Preserves P (negate operand) := by
  unfold Lower.negate
  split
  · exact (invariant.define fun _ => by trivial).bind fun _ => preserves_pure
  · exact (invariant.define fun _ => by trivial).bind fun _ => preserves_pure
  · exact preserves_throw

theorem combine {op : BinaryOp} {lhs rhs : Typed} : Preserves P (combine op lhs rhs) := by
  simp only [Lower.combine]
  cases lhs.value.ty with
  | float width => cases op.onFloats <;> exact (invariant.define fun _ => by trivial).bind fun _ => preserves_pure
  | int width => cases op.onInts <;> exact (invariant.define fun _ => by trivial).bind fun _ => preserves_pure
  | ptr =>
    cases op.onInts with
    | inl op => exact preserves_throw.bind fun _ => preserves_pure
    | inr pred => exact (invariant.define fun _ => by trivial).bind fun _ => preserves_pure
  | void => exact preserves_throw.bind fun _ => preserves_pure
  | struct name => exact preserves_throw.bind fun _ => preserves_pure

theorem call {name : String} {args : List Ir.Value} {f : Signature} (known : scope.functions.get? name = some f) :
    Preserves P (build (·.call name args (.ofSource f.returns))) := by
  intro s holds
  simp only [wp_build, FunctionBuilder.call]
  split
  · rename_i nothing
    exact invariant.emit s.function.nextReg ⟨f, known, by rw [nothing]; rfl⟩ holds
  · rename_i something
    refine invariant.emit _ ⟨f, known, ?_⟩ holds
    cases returned : Ir.Ty.ofSource f.returns with
    | void => exact absurd returned something
    | _ => rfl

/-- A call of a function of the scope receives what the function returns. -/
theorem called {name : String} {args : Lower (List Ir.Value)} (kept : Preserves P args) :
    Preserves P (do
      let returns ← callee scope name
      let values ← args
      let result ← build (·.call name values (.ofSource returns))
      return result.map (Typed.mk · returns)) := by
  intro s holds
  rw [wp_bind, callee, wp_bind, wp_get]
  cases known : scope.functions.get? name with
  | none => exact holds
  | some f =>
    cases s.module.module.function? name with
    | none => exact holds
    | some _ => exact (kept.bind fun _ => (invariant.call known).bind fun _ => preserves_pure) s holds

end Steps

mutual

theorem expr (invariant : Invariant scope P) (want : Want) : (e : Expr) → Preserves P (Lower.expr scope want e)
  | .int .. => by simpa only [Lower.expr] using preserves_pure
  | .float .. => by simpa only [Lower.expr] using preserves_pure
  | .string _ text => by
    simp only [Lower.expr]
    exact Preserves.bind (fun _ holds => invariant.intern text holds) fun _ => preserves_pure
  | .variable .. => by
    simp only [Lower.expr]
    refine preserves_get.bind fun s => ?_
    split
    · exact preserves_throw
    · exact invariant.access.map
  | .assign _ target value => by
    simp only [Lower.expr]
    refine (expr invariant .value value).valueOf.bind fun _ => ?_
    exact (invariant.addressOf fun want => expr invariant want target).bind fun _ =>
      invariant.store.bind fun _ => preserves_pure
  | .binary _ _ lhs rhs => by
    simp only [Lower.expr]
    exact (expr invariant .value lhs).valueOf.bind fun _ =>
      (expr invariant .value rhs).valueOf.bind fun _ => invariant.combine.map
  | .unary _ .ref operand => by
    simp only [Lower.expr]
    exact (invariant.addressOf fun want => expr invariant want operand).bind fun _ => preserves_pure
  | .unary _ .deref operand => by
    simp only [Lower.expr]
    exact (expr invariant .value operand).valueOf.bind fun _ => pointee.bind fun _ => invariant.access.map
  | .unary _ .neg operand => by
    simp only [Lower.expr]
    exact (expr invariant .value operand).valueOf.bind fun _ => invariant.negate.map
  | .call _ _ _ args => by
    simp only [Lower.expr]
    exact invariant.called (exprs invariant args)
  | .field _ base _ => by
    simp only [Lower.expr]
    refine (invariant.addressOf fun want => expr invariant want base).bind fun addr => ?_
    split
    · exact field.bind fun _ => (invariant.define fun _ => by trivial).bind fun _ => invariant.access.map
    · exact preserves_throw
  | .index _ base offset => by
    simp only [Lower.expr]
    refine (expr invariant .value base).valueOf.bind fun _ => pointee.bind fun _ => ?_
    exact (expr invariant .value offset).valueOf.bind fun _ =>
      (invariant.define fun _ => by trivial).bind fun _ => invariant.access.map
  | .struct _ _ fields => by
    simp only [Lower.expr]
    exact invariant.slot.bind fun _ => (inits invariant _ _ fields).bind fun _ => invariant.access.map
termination_by structural e => e

theorem exprs (invariant : Invariant scope P) : (es : List Expr) → Preserves P (Lower.exprs scope es)
  | [] => by simpa only [Lower.exprs] using preserves_pure
  | e :: rest => by
    simp only [Lower.exprs]
    exact (expr invariant .value e).valueOf.bind fun _ => (exprs invariant rest).bind fun _ => preserves_pure
termination_by structural es => es

theorem inits (invariant : Invariant scope P) (struct : String) (slot : Ir.Value) : (fields : List FieldInit) →
    Preserves P (Lower.inits scope struct slot fields)
  | [] => by simpa only [Lower.inits] using preserves_pure
  | first :: rest => by
    simp only [Lower.inits]
    exact (init invariant struct slot first).bind fun _ => inits invariant struct slot rest
termination_by structural fields => fields

theorem init (invariant : Invariant scope P) (struct : String) (slot : Ir.Value) : (first : FieldInit) →
    Preserves P (Lower.init scope struct slot first)
  | ⟨name, value, _⟩ => by
    simp only [Lower.init]
    refine field.bind fun _ => (expr invariant .value value).valueOf.bind fun _ => checkField.bind fun _ => ?_
    exact (invariant.define fun _ => by trivial).bind fun _ => invariant.store
termination_by structural first => first

end

theorem condition (invariant : Invariant scope P) {e : Expr} : Preserves P (condition scope e) := by
  refine (invariant.expr .value e).valueOf.bind fun typed => ?_
  split
  · exact preserves_pure
  · exact invariant.define fun _ => by trivial
  · exact preserves_throw

theorem evaluate (invariant : Invariant scope P) {e : Expr} : Preserves P (evaluate scope e) :=
  (invariant.expr .value e).bind fun _ => preserves_pure

end Invariant

/-- A property that the ends of blocks, new blocks and new names do not change either. -/
structure Throughout (scope : Scope) (P : FunctionState → Prop) : Prop extends Invariant scope P where
  terminate : ∀ {s} t, P s → P { s with function := s.function.terminate t }
  create : ∀ {s} label, P s → P { s with function := (s.function.create label).2 }
  append : ∀ {s} id, P s → P { s with function := s.function.append id }
  switchTo : ∀ {s} id, P s → P { s with function := s.function.switchTo id }
  locals : ∀ {s} locals, P s → P { s with locals := locals }

namespace Throughout

section Steps

variable (always : Throughout scope P)
include always

theorem ends {t : Terminator} : Preserves P (Lower.terminate t) := fun _ holds => always.terminate t holds

theorem creates {label : String} : Preserves P (build (·.create label)) := fun _ holds => always.create label holds

theorem attaches {label : String} : Preserves P (build (·.attach label)) :=
  fun _ holds => always.append _ (always.create label holds)

theorem switches {id : Nat} : Preserves P (write (·.switchTo id)) := fun _ holds => always.switchTo id holds

theorem continueIn {id : Nat} : Preserves P (continueIn id) :=
  Preserves.bind (fun _ holds => always.append id holds) fun _ => always.switches

omit always in
theorem isTerminated : Preserves P isTerminated := fun _ holds => holds

theorem branchTo {id : Nat} : Preserves P (branchTo id) := by
  refine isTerminated.bind fun finished => ?_
  cases finished with
  | true => exact preserves_pure
  | false => exact always.ends

theorem bindLocal {name : String} {slot : Ir.Value} {ty : Ty} : Preserves P (bindLocal name slot ty) :=
  fun _ holds => always.locals _ holds

theorem inScope {blockScoping : Bool} {body : Lower Unit} (kept : Preserves P body) :
    Preserves P (inScope blockScoping body) := by
  refine preserves_get.bind fun s => kept.bind fun _ => ?_
  cases blockScoping with
  | true => exact fun _ holds => always.locals _ holds
  | false => exact preserves_pure

theorem loop {test : Expr} {body step : Lower Unit} (bodyKept : Preserves P body) (stepKept : Preserves P step) :
    Preserves P (loop scope test body step) := by
  refine always.attaches.bind fun _ => always.attaches.bind fun _ => always.creates.bind fun _ => ?_
  refine always.ends.bind fun _ => always.switches.bind fun _ => always.condition.bind fun _ => ?_
  refine always.ends.bind fun _ => always.switches.bind fun _ => bodyKept.bind fun _ => ?_
  refine isTerminated.bind fun finished => ?_
  cases finished with
  | true => exact always.continueIn
  | false => exact stepKept.bind fun _ => always.ends.bind fun _ => always.continueIn

end Steps

mutual

theorem stmt (always : Throughout scope P) {blockScoping : Bool} : (st : Stmt) →
    Preserves P (Lower.stmt scope blockScoping st)
  | .letIn _ _ _ none => by
    simp only [Lower.stmt]
    exact always.slot.bind fun _ => always.bindLocal
  | .letIn _ _ _ (some init) => by
    simp only [Lower.stmt]
    refine always.slot.bind fun _ => (always.expr .value init).valueOf.bind fun _ => ?_
    exact always.store.bind fun _ => always.bindLocal
  | .ret _ none => by
    simp only [Lower.stmt]
    exact always.ends
  | .ret _ (some e) => by
    simp only [Lower.stmt]
    exact (always.expr .value e).valueOf.bind fun _ => always.ends
  | .cond _ chain => by
    simp only [Lower.stmt]
    exact always.creates.bind fun _ => (ifChain always _ chain).bind fun _ => always.continueIn
  | .while _ _ body => by
    simp only [Lower.stmt]
    exact always.loop (block always body) preserves_pure
  | .for _ init _ _ body => by
    simp only [Lower.stmt]
    exact always.inScope ((stmt always init).bind fun _ => always.loop (block always body) always.evaluate)
  | .expr _ => by
    simp only [Lower.stmt]
    exact always.evaluate
termination_by structural st => st

theorem ifChain (always : Throughout scope P) {blockScoping : Bool} : (merge : Nat) → (chain : IfChain) →
    Preserves P (Lower.ifChain scope blockScoping merge chain)
  | merge, .branch _ body rest => by
    simp only [Lower.ifChain]
    refine always.condition.bind fun _ => always.attaches.bind fun _ => always.creates.bind fun _ => ?_
    refine always.ends.bind fun _ => always.switches.bind fun _ => (block always body).bind fun _ => ?_
    exact always.branchTo.bind fun _ => always.continueIn.bind fun _ => ifChain always merge rest
  | _, .otherwise body => by
    simp only [Lower.ifChain]
    exact (block always body).bind fun _ => always.branchTo
  | _, .done => by
    simp only [Lower.ifChain]
    exact always.branchTo
termination_by structural _ chain => chain

theorem block (always : Throughout scope P) {blockScoping : Bool} : (b : Block) →
    Preserves P (Lower.block scope blockScoping b)
  | ⟨body, _⟩ => by
    simp only [Lower.block]
    exact always.inScope (stmts always body)
termination_by structural b => b

theorem stmts (always : Throughout scope P) {blockScoping : Bool} : (body : List Stmt) →
    Preserves P (Lower.stmts scope blockScoping body)
  | [] => by
    simp only [Lower.stmts]
    exact preserves_pure
  | st :: rest => by
    simp only [Lower.stmts]
    exact (stmt always st).bind fun _ => stmts always rest
termination_by structural body => body

end

theorem params (always : Throughout scope P) : (ps : List Param) → (index : Nat) → Preserves P (params index ps)
  | [], _ => preserves_pure
  | _ :: rest, index => by
    simp only [Lower.params]
    refine always.slot.bind fun _ => always.store.bind fun _ => always.bindLocal.bind fun _ => ?_
    exact params always rest (index + 1)

theorem body (always : Throughout scope P) {blockScoping : Bool} {f : FunctionDecl} :
    Preserves P (body scope blockScoping f) := by
  refine always.attaches.bind fun _ => always.switches.bind fun _ => (always.params _ 0).bind fun _ => ?_
  refine (always.block f.body).bind fun _ => isTerminated.bind fun finished => ?_
  cases finished with
  | true => exact preserves_pure
  | false => exact always.ends

end Throughout

end Lower

end StructLang
