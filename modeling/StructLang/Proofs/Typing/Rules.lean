import StructLang.Check.Checker

namespace StructLang

structure Context where
  names : String → Option Ty
  functions : String → Option Signature
  structs : String → Option StructDecl
  returns : Ty

namespace Context

def empty : Context := ⟨fun _ => none, fun _ => none, fun _ => none, .void⟩

def bind (Γ : Context) (name : String) (ty : Ty) : Context :=
  { Γ with names := fun other => if other = name then some ty else Γ.names other }

def declare (Γ : Context) (f : Signature) : Context :=
  { Γ with functions := fun other => if other = f.name then some f else Γ.functions other }

/-- The context of a function body: the parameters are its only names, the later of two of one name
hiding the earlier. -/
def enter (Γ : Context) (f : Signature) : Context :=
  f.params.foldl (fun Γ p => Γ.bind p.name p.ty) { Γ with names := fun _ => none, returns := f.returns }

end Context

def Strictness.leave (o : Strictness) (before after : Context) : Context :=
  if o.blockScoping then before else after

mutual

inductive HasType (o : Strictness) (Γ : Context) : Expr → Ty → Prop
  | int {span value} : HasType o Γ (.int span value) (.int 64)
  | float {span value} : HasType o Γ (.float span value) (.float 64)
  | string {span value} : HasType o Γ (.string span value) (.ptr (.int 8))
  | variable {span name ty} (bound : Γ.names name = some ty) : HasType o Γ (.variable span name) ty
  | assign {span target value ty} (left : HasType o Γ target ty) (right : HasType o Γ value ty) :
      HasType o Γ (.assign span target value) ty
  | arithmetic {span op lhs rhs ty} (kind : op.isComparison = false)
      (left : HasType o Γ lhs ty) (right : HasType o Γ rhs ty) :
      HasType o Γ (.binary span op lhs rhs) ty
  | comparison {span op lhs rhs ty} (kind : op.isComparison = true)
      (left : HasType o Γ lhs ty) (right : HasType o Γ rhs ty) :
      HasType o Γ (.binary span op lhs rhs) (.int 1)
  | neg {span operand ty} (inner : HasType o Γ operand ty) : HasType o Γ (.unary span .neg operand) ty
  | ref {span operand ty} (inner : HasType o Γ operand ty) :
      HasType o Γ (.unary span .ref operand) (.ptr ty)
  | deref {span operand ty} (inner : HasType o Γ operand (.ptr ty)) :
      HasType o Γ (.unary span .deref operand) ty
  | call {span callee calleeSpan args f} (known : Γ.functions callee = some f)
      (typed : ArgsTyped o Γ f.params args)
      (complete : o.missingArguments = true → args.length = f.params.length) :
      HasType o Γ (.call span callee calleeSpan args) f.returns
  | field {span base name struct d index field} (inner : HasType o Γ base (.struct struct))
      (known : Γ.structs struct = some d) (found : d.field? name = some (index, field)) :
      HasType o Γ (.field span base name) field.ty
  | index {span base offset ty width} (pointer : HasType o Γ base (.ptr ty))
      (position : HasType o Γ offset (.int width)) : HasType o Γ (.index span base offset) ty
  | struct {span name inits d} (known : Γ.structs name = some d)
      (typed : o.structLiterals = true → InitsTyped o Γ d inits) :
      HasType o Γ (.struct span name inits) (.struct name)

inductive ArgsTyped (o : Strictness) (Γ : Context) : List Param → List Expr → Prop
  | nil {params} : ArgsTyped o Γ params []
  | cons {param params arg args} (first : HasType o Γ arg param.ty) (rest : ArgsTyped o Γ params args) :
      ArgsTyped o Γ (param :: params) (arg :: args)

inductive InitsTyped (o : Strictness) (Γ : Context) : StructDecl → List FieldInit → Prop
  | nil {d} : InitsTyped o Γ d []
  | cons {d name value span inits index field} (found : d.field? name = some (index, field))
      (first : HasType o Γ value field.ty) (rest : InitsTyped o Γ d inits) :
      InitsTyped o Γ d (⟨name, value, span⟩ :: inits)

end

mutual

/-- A statement is well typed in the first context and leaves the second. -/
inductive StmtTyped (o : Strictness) : Context → Stmt → Context → Prop
  | declare {Γ span name ty} : StmtTyped o Γ (.letIn span name ty none) (Γ.bind name ty)
  | initialise {Γ span name ty init} (typed : HasType o Γ init ty) :
      StmtTyped o Γ (.letIn span name ty (some init)) (Γ.bind name ty)
  | ret {Γ span} : StmtTyped o Γ (.ret span none) Γ
  | retValue {Γ span value} (typed : HasType o Γ value Γ.returns) :
      StmtTyped o Γ (.ret span (some value)) Γ
  | cond {Γ Γ' span chain} (typed : ChainTyped o Γ chain Γ') : StmtTyped o Γ (.cond span chain) Γ'
  | while {Γ Γ' span test width body} (tested : HasType o Γ test (.int width))
      (typed : BlockTyped o Γ body Γ') : StmtTyped o Γ (.while span test body) Γ'
  | for {Γ Γ₁ Γ₂ span init test width step ty body} (started : StmtTyped o Γ init Γ₁)
      (tested : HasType o Γ₁ test (.int width)) (stepped : HasType o Γ₁ step ty)
      (typed : BlockTyped o Γ₁ body Γ₂) :
      StmtTyped o Γ (.for span init test step body) (o.leave Γ Γ₂)
  | expr {Γ e ty} (typed : HasType o Γ e ty) : StmtTyped o Γ (.expr e) Γ

inductive ChainTyped (o : Strictness) : Context → IfChain → Context → Prop
  | branch {Γ Γ₁ Γ₂ test width body rest} (tested : HasType o Γ test (.int width))
      (typed : BlockTyped o Γ body Γ₁) (others : ChainTyped o Γ₁ rest Γ₂) :
      ChainTyped o Γ (.branch test body rest) Γ₂
  | otherwise {Γ Γ' body} (typed : BlockTyped o Γ body Γ') : ChainTyped o Γ (.otherwise body) Γ'
  | done {Γ} : ChainTyped o Γ .done Γ

inductive BlockTyped (o : Strictness) : Context → Block → Context → Prop
  | block {Γ Γ' stmts span} (typed : StmtsTyped o Γ stmts Γ') :
      BlockTyped o Γ ⟨stmts, span⟩ (o.leave Γ Γ')

inductive StmtsTyped (o : Strictness) : Context → List Stmt → Context → Prop
  | nil {Γ} : StmtsTyped o Γ [] Γ
  | cons {Γ Γ₁ Γ₂ stmt stmts} (first : StmtTyped o Γ stmt Γ₁) (rest : StmtsTyped o Γ₁ stmts Γ₂) :
      StmtsTyped o Γ (stmt :: stmts) Γ₂

end

section Inversion

variable {o : Strictness} {Γ : Context} {span : Span} {ty : Ty}

theorem HasType.int_iff {value} : HasType o Γ (.int span value) ty ↔ .int 64 = ty :=
  ⟨fun typed => by cases typed; rfl, fun same => same ▸ .int⟩

theorem HasType.float_iff {value} : HasType o Γ (.float span value) ty ↔ .float 64 = ty :=
  ⟨fun typed => by cases typed; rfl, fun same => same ▸ .float⟩

theorem HasType.string_iff {value} : HasType o Γ (.string span value) ty ↔ .ptr (.int 8) = ty :=
  ⟨fun typed => by cases typed; rfl, fun same => same ▸ .string⟩

theorem HasType.variable_iff {name} : HasType o Γ (.variable span name) ty ↔ Γ.names name = some ty :=
  ⟨fun typed => by cases typed; assumption, fun bound => .variable bound⟩

theorem HasType.assign_iff {target value} :
    HasType o Γ (.assign span target value) ty ↔ HasType o Γ target ty ∧ HasType o Γ value ty :=
  ⟨fun typed => by cases typed; constructor <;> assumption, fun ⟨left, right⟩ => .assign left right⟩

theorem HasType.binary_iff {op lhs rhs} :
    HasType o Γ (.binary span op lhs rhs) ty ↔
      ∃ operand, HasType o Γ lhs operand ∧ HasType o Γ rhs operand ∧ op.resultTy operand = ty := by
  constructor
  · intro typed
    cases typed with
    | arithmetic kind left right => exact ⟨_, left, right, by simp [BinaryOp.resultTy, kind]⟩
    | comparison kind left right => exact ⟨_, left, right, by simp [BinaryOp.resultTy, kind]⟩
  · rintro ⟨operand, left, right, rfl⟩
    cases kind : op.isComparison with
    | false => simpa [BinaryOp.resultTy, kind] using .arithmetic kind left right
    | true => simpa [BinaryOp.resultTy, kind] using .comparison kind left right

theorem HasType.neg_iff {operand} : HasType o Γ (.unary span .neg operand) ty ↔ HasType o Γ operand ty :=
  ⟨fun typed => by cases typed; assumption, .neg⟩

theorem HasType.ref_iff {operand} :
    HasType o Γ (.unary span .ref operand) ty ↔ ∃ inner, HasType o Γ operand inner ∧ .ptr inner = ty :=
  ⟨fun typed => by cases typed; exact ⟨_, ‹_›, rfl⟩, fun ⟨_, typed, same⟩ => same ▸ .ref typed⟩

theorem HasType.deref_iff {operand} :
    HasType o Γ (.unary span .deref operand) ty ↔ HasType o Γ operand (.ptr ty) :=
  ⟨fun typed => by cases typed; assumption, .deref⟩

theorem HasType.call_iff {callee calleeSpan args} :
    HasType o Γ (.call span callee calleeSpan args) ty ↔
      ∃ f, Γ.functions callee = some f ∧ ArgsTyped o Γ f.params args ∧
        (o.missingArguments = true → args.length = f.params.length) ∧ f.returns = ty :=
  ⟨fun typed => by cases typed; exact ⟨_, ‹_›, ‹_›, ‹_›, rfl⟩,
    fun ⟨_, known, typed, complete, same⟩ => same ▸ .call known typed complete⟩

theorem HasType.field_iff {base name} :
    HasType o Γ (.field span base name) ty ↔
      ∃ struct d index field, HasType o Γ base (.struct struct) ∧ Γ.structs struct = some d ∧
        d.field? name = some (index, field) ∧ field.ty = ty :=
  ⟨fun typed => by cases typed; exact ⟨_, _, _, _, ‹_›, ‹_›, ‹_›, rfl⟩,
    fun ⟨_, _, _, _, inner, known, found, same⟩ => same ▸ .field inner known found⟩

theorem HasType.index_iff {base offset} :
    HasType o Γ (.index span base offset) ty ↔
      HasType o Γ base (.ptr ty) ∧ ∃ width, HasType o Γ offset (.int width) :=
  ⟨fun typed => by cases typed; exact ⟨‹_›, _, ‹_›⟩, fun ⟨pointer, _, position⟩ => .index pointer position⟩

theorem HasType.struct_iff {name inits} :
    HasType o Γ (.struct span name inits) ty ↔
      ∃ d, Γ.structs name = some d ∧ (o.structLiterals = true → InitsTyped o Γ d inits) ∧
        .struct name = ty :=
  ⟨fun typed => by cases typed; exact ⟨_, ‹_›, ‹_›, rfl⟩,
    fun ⟨_, known, typed, same⟩ => same ▸ .struct known typed⟩

theorem ArgsTyped.cons_iff {params arg args} :
    ArgsTyped o Γ params (arg :: args) ↔
      ∃ param rest, params = param :: rest ∧ HasType o Γ arg param.ty ∧ ArgsTyped o Γ rest args :=
  ⟨fun typed => by cases typed; exact ⟨_, _, rfl, ‹_›, ‹_›⟩,
    fun ⟨_, _, same, first, rest⟩ => same ▸ .cons first rest⟩

theorem ArgsTyped.length_le {params args} (typed : ArgsTyped o Γ params args) :
    args.length ≤ params.length := by
  induction args generalizing params with
  | nil => simp
  | cons arg args ih =>
    obtain ⟨param, rest, rfl, -, others⟩ := ArgsTyped.cons_iff.mp typed
    simpa using ih others

theorem InitsTyped.cons_iff {d init inits} :
    InitsTyped o Γ d (init :: inits) ↔
      (∃ index field, d.field? init.name = some (index, field) ∧ HasType o Γ init.value field.ty) ∧
        InitsTyped o Γ d inits := by
  obtain ⟨name, value, span⟩ := init
  exact ⟨fun typed => by cases typed; exact ⟨⟨_, _, ‹_›, ‹_›⟩, ‹_›⟩,
    fun ⟨⟨_, _, found, first⟩, rest⟩ => .cons found first rest⟩

end Inversion

def FunctionTyped (o : Strictness) (Γ : Context) (f : FunctionDecl) : Prop :=
  ∃ Γ', BlockTyped o ((Γ.declare f.signature).enter f.signature) f.body Γ'

/-- The functions of a document in their order. Each is declared, if need be again, before its body,
which only matters where one name is declared more than once. -/
inductive FunctionsTyped (o : Strictness) : Context → List FunctionDecl → Prop
  | nil {Γ} : FunctionsTyped o Γ []
  | cons {Γ f fs} (first : FunctionTyped o Γ f) (rest : FunctionsTyped o (Γ.declare f.signature) fs) :
      FunctionsTyped o Γ (f :: fs)

def Scope.context (s : Scope) : Context := ⟨s.lookup, s.functions.get?, s.structs.get?, s.returns⟩

mutual

def Decl.signatures : Decl → List Signature
  | .function f => [f.signature]
  | .external f _ => [f]
  | .imported _ _ document => Document.signatures document
  | _ => []
termination_by structural d => d

def Document.signatures : List Decl → List Signature
  | [] => []
  | d :: rest => d.signatures ++ Document.signatures rest
termination_by structural document => document

end

mutual

def Decl.structs : Decl → List StructDecl
  | .struct d => [d]
  | .imported _ _ document => Document.structs document
  | _ => []
termination_by structural d => d

def Document.structs : List Decl → List StructDecl
  | [] => []
  | d :: rest => d.structs ++ Document.structs rest
termination_by structural document => document

end

/-- What a name stands for after declarations: the last of them under the name, or what it stood for
before them. -/
inductive Latest {α : Type} (key : α → String) (before : String → Option α) (declared : List α) :
    String → Option α → Prop
  | last {front x back} (split : declared = front ++ x :: back) (alone : ∀ y ∈ back, key y ≠ key x) :
      Latest key before declared (key x) (some x)
  | kept {name} (absent : ∀ x ∈ declared, key x ≠ name) : Latest key before declared name (before name)

/-- The second context knows in addition what the document and its imports declare, wherever it stands. -/
structure Context.Declares (Γ : Context) (d : Document) (Γ' : Context) : Prop where
  functions : ∀ name, Latest Signature.name Γ.functions (Document.signatures d) name (Γ'.functions name)
  structs : ∀ name, Latest StructDecl.name Γ.structs (Document.structs d) name (Γ'.structs name)

/-- Bodies are looked at in their order, and those of imports are not. -/
inductive BodiesTyped (o : Strictness) : Context → List Decl → Prop
  | nil {Γ} : BodiesTyped o Γ []
  | function {Γ f rest} (first : FunctionTyped o Γ f) (others : BodiesTyped o (Γ.declare f.signature) rest) :
      BodiesTyped o Γ (.function f :: rest)
  | external {Γ f span rest} (others : BodiesTyped o Γ rest) : BodiesTyped o Γ (.external f span :: rest)
  | struct {Γ d rest} (others : BodiesTyped o Γ rest) : BodiesTyped o Γ (.struct d :: rest)
  | importOf {Γ path span rest} (others : BodiesTyped o Γ rest) : BodiesTyped o Γ (.importOf path span :: rest)
  | imported {Γ path span document rest} (others : BodiesTyped o Γ rest) :
      BodiesTyped o Γ (.imported path span document :: rest)

def DocumentTyped (o : Strictness) (Γ : Context) (d : Document) : Prop :=
  ∃ Γ', Γ.Declares d Γ' ∧ BodiesTyped o Γ' d

end StructLang
