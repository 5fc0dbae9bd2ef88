import StructLang.Lowering.Basic
import StructLang.Proofs.Parse.Regular
import StructLang.Proofs.Parts
import StructLang.Proofs.Typing.Rules

namespace StructLang

def Ty.leadsToTruth : Ty → Bool
  | .int 1 => true
  | .ptr target => target.leadsToTruth
  | _ => false

def Ty.truth? (ty : Ty) : Option Ty := if ty.leadsToTruth then some ty else none

def Expr.truth? : Expr → Option Ty
  | .assign _ _ value => value.truth?
  | .binary _ op lhs _ => if op.isComparison then some .bool else lhs.truth?
  | .unary _ .neg operand => operand.truth?
  | .unary _ .ref operand => operand.truth?.map .ptr
  | .unary _ .deref operand | .index _ operand _ => operand.truth?.bind Ty.pointee?
  | .variable .. | .int .. | .float .. | .string .. | .call .. | .field .. | .struct .. => none
termination_by structural e => e

/-- A sum and a difference of truth values need not be one. -/
def BinaryOp.keepsTruth : BinaryOp → Bool
  | .add | .sub => false
  | _ => true

mutual

/-- Truth values are compared, multiplied and divided at most, and none is read through a pointer. -/
def Expr.keepsTruth (want : Lower.Want) : Expr → Bool
  | .int .. | .float .. | .string .. | .variable .. => true
  | .assign _ target value => value.keepsTruth .value && target.keepsTruth .address
  | .binary _ op lhs rhs =>
    lhs.keepsTruth .value && rhs.keepsTruth .value && (op.keepsTruth || lhs.truth? != some .bool)
  | .unary _ .neg operand => operand.keepsTruth .value && operand.truth? != some .bool
  | .unary _ .ref operand | .field _ operand _ => operand.keepsTruth .address
  | .unary _ .deref operand =>
    operand.keepsTruth .value && (want == .address || operand.truth? != some (.ptr .bool))
  | .call _ _ _ args => Expr.allKeepTruth args
  | .index _ base offset =>
    base.keepsTruth .value && offset.keepsTruth .value && (want == .address || base.truth? != some (.ptr .bool))
  | .struct _ _ inits => FieldInit.allKeepTruth inits
termination_by structural e => e

def Expr.allKeepTruth : List Expr → Bool
  | [] => true
  | e :: rest => e.keepsTruth .value && Expr.allKeepTruth rest
termination_by structural es => es

def FieldInit.allKeepTruth : List FieldInit → Bool
  | [] => true
  | init :: rest => init.keepsTruth && FieldInit.allKeepTruth rest
termination_by structural inits => inits

def FieldInit.keepsTruth : FieldInit → Bool
  | ⟨_, value, _⟩ => value.keepsTruth .value
termination_by structural init => init

end

def Document.keepsTruth (d : Document) : Bool := d.functions.all fun f => f.body.exprs.all (·.keepsTruth .value)

theorem Ty.leadsToTruth_of_isNamed {ty : Ty} (named : ty.isNamed = true) : ty.leadsToTruth = false := by
  induction ty with
  | ptr target ih => exact ih named
  | int width =>
    have other : width ≠ 1 := by
      rintro rfl
      cases named
    simp [leadsToTruth, other]
  | float | struct | void => rfl

@[simp] theorem Ty.truth?_ptr (ty : Ty) : (Ty.ptr ty).truth? = ty.truth?.map .ptr := by
  by_cases leads : ty.leadsToTruth = true <;> simp [truth?, leadsToTruth, leads]

theorem Ty.truth?_eq_none {ty : Ty} (plain : ty.leadsToTruth = false) : ty.truth? = none := by
  rw [truth?, plain]
  rfl

theorem Ty.truth?_eq_some_iff {ty ty' : Ty} : ty.truth? = some ty' ↔ ty = ty' ∧ ty.leadsToTruth = true := by
  rw [truth?]
  split <;> simp_all

theorem StructDecl.mem_of_field? {d : StructDecl} {name : String} {index : Nat} {field : Field}
    (found : d.field? name = some (index, field)) : field ∈ d.fields := by
  simp only [StructDecl.field?, Option.bind_eq_some_iff, Option.map_eq_some_iff, Prod.mk.injEq] at found
  obtain ⟨i, -, f, there, -, rfl⟩ := found
  exact List.mem_of_getElem? there

structure Context.Truthless (Γ : Context) : Prop where
  names : ∀ {name ty}, Γ.names name = some ty → ty.leadsToTruth = false
  functions : ∀ {name f}, Γ.functions name = some f → f.returns.leadsToTruth = false
  fields : ∀ {name d}, Γ.structs name = some d → ∀ field ∈ d.fields, field.ty.leadsToTruth = false

/-- The form of an expression tells what the rules say of its type. -/
theorem HasType.truth {o : Strictness} {Γ : Context} (truthless : Γ.Truthless) : (e : Expr) → {ty : Ty} →
    HasType o Γ e ty → e.truth? = ty.truth?
  | .int .., _, .int | .float .., _, .float | .string .., _, .string => rfl
  | .variable .., _, .variable bound => (Ty.truth?_eq_none (truthless.names bound)).symm
  | .assign _ _ value, _, .assign _ right => by
    rw [Expr.truth?]
    exact right.truth truthless value
  | .binary _ op lhs _, _, .arithmetic kind left _ => by
    rw [Expr.truth?, kind]
    exact left.truth truthless lhs
  | .binary _ op lhs _, _, .comparison kind _ _ => by
    rw [Expr.truth?, kind]
    rfl
  | .unary _ .neg operand, _, .neg inner => by
    rw [Expr.truth?]
    exact inner.truth truthless operand
  | .unary _ .ref operand, _, .ref inner => by
    rw [Expr.truth?, inner.truth truthless operand, Ty.truth?_ptr]
  | .unary _ .deref operand, ty, .deref inner => by
    rw [Expr.truth?, inner.truth truthless operand, Ty.truth?_ptr]
    cases ty.truth? <;> rfl
  | .call .., _, .call known _ _ => (Ty.truth?_eq_none (truthless.functions known)).symm
  | .field _ _ _, _, .field _ known found =>
    (Ty.truth?_eq_none (truthless.fields known _ (StructDecl.mem_of_field? found))).symm
  | .index _ base _, ty, .index pointer _ => by
    rw [Expr.truth?, pointer.truth truthless base, Ty.truth?_ptr]
    cases ty.truth? <;> rfl
  | .struct .., _, .struct _ _ => rfl
termination_by structural e => e

namespace Context.Truthless

variable {Γ : Context}

theorem bind (truthless : Γ.Truthless) {name : String} {ty : Ty} (plain : ty.leadsToTruth = false) :
    (Γ.bind name ty).Truthless := by
  refine ⟨fun {other ty'} bound => ?_, truthless.functions, truthless.fields⟩
  simp only [Context.bind] at bound
  split at bound
  · cases bound
    exact plain
  · exact truthless.names bound

/-- Inside a function the parameters are the only names. -/
theorem enter (functions : ∀ {name f}, Γ.functions name = some f → f.returns.leadsToTruth = false)
    (fields : ∀ {name d}, Γ.structs name = some d → ∀ field ∈ d.fields, field.ty.leadsToTruth = false) {f : Signature}
    (regular : f.isRegular = true) : (Γ.enter f).Truthless := by
  have bound (params : List Param) {Γ : Context} (truthless : Γ.Truthless) (named : ∀ p ∈ params, p.ty.isNamed = true) :
      (params.foldl (fun Γ p => Γ.bind p.name p.ty) Γ).Truthless := by
    induction params generalizing Γ with
    | nil => exact truthless
    | cons p rest ih =>
      have first := Ty.leadsToTruth_of_isNamed (named p (List.mem_cons_self ..))
      exact ih (truthless.bind first) fun p member => named p (List.mem_cons_of_mem _ member)
  simp only [Signature.isRegular, Bool.and_eq_true, List.all_eq_true] at regular
  exact bound f.params ⟨by rintro name ty ⟨⟩, functions, fields⟩ regular.2

end Context.Truthless

def Expr.IsTyped (e : Expr) : Prop := ∃ Γ ty, Γ.Truthless ∧ HasType .strict Γ e ty

mutual

/-- The expressions of a well-typed statement are well typed, each in a context of its own. -/
theorem StmtTyped.exprs : (st : Stmt) → st.isRegular = true → {Γ Γ' : Context} → Γ.Truthless → StmtTyped .strict Γ st Γ' →
    Γ'.Truthless ∧ ∀ e ∈ st.exprs, e.IsTyped
  | .letIn _ _ _ none, regular, _, _, truthless, .declare => by
    rw [Stmt.isRegular] at regular
    exact ⟨truthless.bind (Ty.leadsToTruth_of_isNamed regular), by simp [Stmt.exprs]⟩
  | .letIn _ _ _ (some init), regular, Γ, _, truthless, .initialise typed => by
    simp only [Stmt.isRegular, Bool.and_eq_true] at regular
    exact ⟨truthless.bind (Ty.leadsToTruth_of_isNamed regular.1), by simpa [Stmt.exprs] using ⟨Γ, _, truthless, typed⟩⟩
  | .ret _ none, _, _, _, truthless, .ret => ⟨truthless, by simp [Stmt.exprs]⟩
  | .ret _ (some value), _, Γ, _, truthless, .retValue typed =>
    ⟨truthless, by simpa [Stmt.exprs] using ⟨Γ, _, truthless, typed⟩⟩
  | .cond _ chain, regular, _, _, truthless, .cond typed => by
    simp only [Stmt.isRegular, Bool.and_eq_true] at regular
    rw [Stmt.exprs]
    exact ChainTyped.exprs chain regular.2 truthless typed
  | .while _ test body, regular, Γ, _, truthless, .while tested typed => by
    simp only [Stmt.isRegular, Bool.and_eq_true] at regular
    obtain ⟨after, inside⟩ := BlockTyped.exprs body regular.2 truthless typed
    rw [Stmt.exprs]
    exact ⟨after, List.forall_mem_cons.mpr ⟨⟨Γ, _, truthless, tested⟩, inside⟩⟩
  | .for _ init test step body, regular, Γ, _, truthless, .for started tested stepped typed => by
    simp only [Stmt.isRegular, Bool.and_eq_true] at regular
    obtain ⟨between, first⟩ := StmtTyped.exprs init regular.1.1.1.2 truthless started
    obtain ⟨-, inside⟩ := BlockTyped.exprs body regular.2 between typed
    refine ⟨truthless, ?_⟩
    rw [Stmt.exprs, List.forall_mem_append]
    exact ⟨first, List.forall_mem_cons.mpr ⟨⟨_, _, between, tested⟩,
      List.forall_mem_cons.mpr ⟨⟨_, _, between, stepped⟩, inside⟩⟩⟩
  | .expr e, _, Γ, _, truthless, .expr typed => ⟨truthless, by simpa [Stmt.exprs] using ⟨Γ, _, truthless, typed⟩⟩
termination_by structural st => st

theorem ChainTyped.exprs : (chain : IfChain) → chain.isRegular = true → {Γ Γ' : Context} → Γ.Truthless →
    ChainTyped .strict Γ chain Γ' → Γ'.Truthless ∧ ∀ e ∈ chain.exprs, e.IsTyped
  | .branch test body rest, regular, Γ, _, truthless, .branch tested typed others => by
    simp only [IfChain.isRegular, Bool.and_eq_true] at regular
    obtain ⟨between, inside⟩ := BlockTyped.exprs body regular.1.2 truthless typed
    obtain ⟨after, later⟩ := ChainTyped.exprs rest regular.2 between others
    refine ⟨after, ?_⟩
    rw [IfChain.exprs]
    exact List.forall_mem_cons.mpr ⟨⟨Γ, _, truthless, tested⟩, List.forall_mem_append.mpr ⟨inside, later⟩⟩
  | .otherwise body, regular, _, _, truthless, .otherwise typed => by
    rw [IfChain.exprs]
    exact BlockTyped.exprs body regular truthless typed
  | .done, _, _, _, truthless, .done => ⟨truthless, by simp [IfChain.exprs]⟩
termination_by structural chain => chain

theorem BlockTyped.exprs : (b : Block) → b.isRegular = true → {Γ Γ' : Context} → Γ.Truthless → BlockTyped .strict Γ b Γ' →
    Γ'.Truthless ∧ ∀ e ∈ b.exprs, e.IsTyped
  | ⟨body, _⟩, regular, _, _, truthless, .block typed => by
    rw [Block.exprs]
    exact ⟨truthless, (StmtsTyped.exprs body regular truthless typed).2⟩
termination_by structural b => b

theorem StmtsTyped.exprs : (body : List Stmt) → Stmt.areRegular body = true → {Γ Γ' : Context} → Γ.Truthless →
    StmtsTyped .strict Γ body Γ' → Γ'.Truthless ∧ ∀ e ∈ exprsOf body, e.IsTyped
  | [], _, _, _, truthless, .nil => ⟨truthless, by simp [exprsOf]⟩
  | st :: rest, regular, _, _, truthless, .cons first others => by
    simp only [Stmt.areRegular, Bool.and_eq_true] at regular
    obtain ⟨between, here⟩ := StmtTyped.exprs st regular.1 truthless first
    obtain ⟨after, later⟩ := StmtsTyped.exprs rest regular.2 between others
    rw [exprsOf]
    exact ⟨after, List.forall_mem_append.mpr ⟨here, later⟩⟩
termination_by structural body => body

end

end StructLang
