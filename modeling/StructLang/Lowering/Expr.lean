import StructLang.Lowering.Basic

namespace StructLang

namespace BinaryOp

def spelling : BinaryOp → String
  | .add => "+"
  | .sub => "-"
  | .mul => "*"
  | .div => "/"
  | .eq => "=="
  | .lt => "<"
  | .gt => ">"
  | .le => "<="
  | .ge => ">="

def onInts : BinaryOp → Ir.BinOp ⊕ Ir.IntPred
  | .add => .inl .add
  | .sub => .inl .sub
  | .mul => .inl .mul
  | .div => .inl .sdiv
  | .eq => .inr .eq
  | .lt => .inr .slt
  | .gt => .inr .sgt
  | .le => .inr .sle
  | .ge => .inr .sge

def onFloats : BinaryOp → Ir.BinOp ⊕ Ir.FloatPred
  | .add => .inl .fadd
  | .sub => .inl .fsub
  | .mul => .inl .fmul
  | .div => .inl .fdiv
  | .eq => .inr .ueq
  | .lt => .inr .ult
  | .gt => .inr .ugt
  | .le => .inr .ule
  | .ge => .inr .uge

end BinaryOp

def Expr.hasStorage : Expr → Bool
  | .variable .. | .field .. | .index .. | .struct .. | .unary _ .deref _ => true
  | _ => false

def Expr.describe : Expr → String
  | .call _ callee _ _ => callee
  | _ => "expression"

namespace Lower

def valueOf (e : Expr) (lowered : Lower (Option Typed)) : Lower Typed := do
  match ← lowered with
  | some typed => return typed
  | none => throw (.voidValue e.describe)

/-- The address of an expression; a value without storage is first put into a new slot. -/
def addressOf (e : Expr) (lower : Want → Lower (Option Typed)) : Lower Typed := do
  if e.hasStorage then valueOf e (lower .address)
  else
    let typed ← valueOf e (lower .value)
    let slot ← build (·.alloca (.ofSource typed.ty))
    write (·.store typed.value slot)
    return ⟨slot, typed.ty⟩

def access (addr : Ir.Value) (ty : Ty) : Want → Lower Typed
  | .address => return ⟨addr, ty⟩
  | .value => return ⟨← build (·.load (.ofSource ty) addr), ty⟩

def pointee (operation : String) (ty : Ty) : Lower Ty :=
  match ty.pointee? with
  | some target => return target
  | none => throw (.unsupported operation ty)

def field (scope : Scope) (struct name : String) : Lower (Nat × Ty) := do
  match (← get).module.module.struct? struct with
  | none => throw (.unknownStruct struct)
  | some layout =>
    match layout.index? name with
    | none => throw (.unknownField struct name)
    | some index =>
      match scope.structs.get? struct with
      | none => throw (.unknownStruct struct)
      | some d =>
        match d.field? name with
        | none => throw (.unknownField struct name)
        | some (_, decl) => return (index, decl.ty)

def checkField (struct name : String) (index : Nat) (value : Ir.Value) : Lower Unit := do
  match ((← get).module.module.struct? struct).bind (·.type? index) with
  | none => throw (.unknownStruct struct)
  | some expected => unless value.ty = expected do throw (.fieldType struct name expected value.ty)

def negate (operand : Typed) : Lower Typed := do
  match operand.value.ty with
  | .float _ => return ⟨← build (·.fneg operand.value), operand.ty⟩
  | .int _ => return ⟨← build (·.neg operand.value), operand.ty⟩
  | _ => throw (.unsupported "-" operand.ty)

def combine (op : BinaryOp) (lhs rhs : Typed) : Lower Typed := do
  let value ← match lhs.value.ty with
    | .float _ =>
      match op.onFloats with
      | .inl op => build (·.binary op lhs.value rhs.value)
      | .inr pred => build (·.fcmp pred lhs.value rhs.value)
    | .int _ =>
      match op.onInts with
      | .inl op => build (·.binary op lhs.value rhs.value)
      | .inr pred => build (·.icmp pred lhs.value rhs.value)
    | .ptr =>
      match op.onInts with
      | .inl _ => throw (.unsupported op.spelling lhs.ty)
      | .inr pred => build (·.icmp pred lhs.value rhs.value)
    | _ => throw (.unsupported op.spelling lhs.ty)
  return ⟨value, if op.isComparison then .bool else lhs.ty⟩

def callee (scope : Scope) (name : String) : Lower Ty := do
  match scope.functions.get? name, (← get).module.module.function? name with
  | some f, some _ => return f.returns
  | _, _ => throw (.unknownFunction name)

mutual

def expr (scope : Scope) (want : Want) : Expr → Lower (Option Typed)
  | .int _ value => return some ⟨.int value 64, .int 64⟩
  | .float _ value => return some ⟨.float value 64, .float 64⟩
  | .string _ text => do
    let global ← modifyGet fun s =>
      let (global, module) := s.module.intern text
      (global, { s with module := module })
    return some ⟨global, .ptr (.int 8)⟩
  | .variable _ name => do
    match (← get).locals.get? name with
    | none => throw (.unknownVariable name)
    | some slot => some <$> access slot.value slot.ty want
  | .assign _ target value => do
    let typed ← valueOf value (expr scope .value value)
    let addr ← addressOf target fun want => expr scope want target
    write (·.store typed.value addr.value)
    return some typed
  | .binary _ op lhs rhs => do
    let left ← valueOf lhs (expr scope .value lhs)
    let right ← valueOf rhs (expr scope .value rhs)
    some <$> combine op left right
  | .unary _ .ref operand => do
    let addr ← addressOf operand fun want => expr scope want operand
    return some ⟨addr.value, .ptr addr.ty⟩
  | .unary _ .deref operand => do
    let pointer ← valueOf operand (expr scope .value operand)
    let target ← pointee "*" pointer.ty
    some <$> access pointer.value target want
  | .unary _ .neg operand => do
    let typed ← valueOf operand (expr scope .value operand)
    some <$> negate typed
  | .call _ name _ args => do
    let returns ← callee scope name
    let values ← exprs scope args
    let result ← build (·.call name values (.ofSource returns))
    return result.map (⟨·, returns⟩)
  | .field _ base name => do
    let addr ← addressOf base fun want => expr scope want base
    match addr.ty with
    | .struct struct => do
      let (index, ty) ← field scope struct name
      let fieldAddr ← build (·.fieldAddr struct addr.value index)
      some <$> access fieldAddr ty want
    | other => throw (.unsupported "." other)
  | .index _ base offset => do
    let pointer ← valueOf base (expr scope .value base)
    let target ← pointee "[]" pointer.ty
    let index ← valueOf offset (expr scope .value offset)
    let addr ← build (·.elementAddr (.ofSource target) pointer.value index.value)
    some <$> access addr target want
  | .struct _ name fields => do
    let slot ← build (·.alloca (.struct name))
    inits scope name slot fields
    some <$> access slot (.struct name) want
termination_by structural e => e

def exprs (scope : Scope) : List Expr → Lower (List Ir.Value)
  | [] => return []
  | e :: rest => do
    let first ← valueOf e (expr scope .value e)
    return first.value :: (← exprs scope rest)
termination_by structural es => es

def inits (scope : Scope) (struct : String) (slot : Ir.Value) : List FieldInit → Lower Unit
  | [] => return
  | first :: rest => do
    init scope struct slot first
    inits scope struct slot rest
termination_by structural fields => fields

def init (scope : Scope) (struct : String) (slot : Ir.Value) : FieldInit → Lower Unit
  | ⟨name, value, _⟩ => do
    let (index, _) ← field scope struct name
    let typed ← valueOf value (expr scope .value value)
    checkField struct name index typed.value
    let addr ← build (·.fieldAddr struct slot index)
    write (·.store typed.value addr)
termination_by structural first => first

end

end Lower

end StructLang
