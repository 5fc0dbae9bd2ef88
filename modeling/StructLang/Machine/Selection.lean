import StructLang.Ir.Extent
import StructLang.Machine.Code

namespace StructLang.Machine

inductive Feature
  | structByValue
  | floatWidth
  | intWidth
  | mainParams
  | mainReturn
  deriving DecidableEq, Repr

def Feature.message : Feature → String
  | .structByValue => "passing or returning structs by value"
  | .floatWidth => "float widths other than 32 and 64 bits"
  | .intWidth => "integer widths other than 8, 16, 32 and 64 bits"
  | .mainParams => "running `main` with parameters"
  | .mainReturn => "running `main` that does not return i64, i32 or void"

inductive SelectionFault
  | layout (error : Ir.LayoutError)
  | noBlocks (function : String)
  | unterminated (function label : String)
  | unknownTarget (id : Nat)
  | undefinedRegister (id : Nat)
  | argumentRange (index : Nat)
  | unknownGlobal (name : String)
  | noField (struct : String) (index : Nat)
  | unknownCallee (name : String)
  | noResult (callee : String)
  | voidValue
  | noMain
  deriving DecidableEq, Repr

def SelectionFault.message : SelectionFault → String
  | .layout error => error.message
  | .noBlocks function => "function '" ++ function ++ "' has no basic blocks"
  | .unterminated function label =>
    "in function '" ++ function ++ "': block '" ++ label ++ "' has no terminator"
  | .unknownTarget id => "unknown branch target " ++ toString id
  | .undefinedRegister id => "register %" ++ toString id ++ " used before definition"
  | .argumentRange index => "argument " ++ toString index ++ " out of range"
  | .unknownGlobal name => "unknown global '" ++ name ++ "'"
  | .noField struct index => "struct '" ++ struct ++ "' has no field " ++ toString index
  | .unknownCallee name => "unknown call target '" ++ name ++ "'"
  | .noResult callee => "call to '" ++ callee ++ "' produced no result"
  | .voidValue => "void cannot be used as a concrete value type"
  | .noMain => "module has no `main` function"

inductive SelectionError
  | fault (fault : SelectionFault)
  | missing (feature : Feature)
  | rejected
  deriving DecidableEq, Repr

abbrev Selected := Except SelectionError

def ofLayout {α : Type} (result : Except Ir.LayoutError α) : Selected α :=
  result.mapError fun e => .fault (.layout e)

def intScalar : Nat → Selected Scalar
  | 1 | 8 => .ok .i8
  | 16 => .ok .i16
  | 32 => .ok .i32
  | 64 => .ok .i64
  | _ => .error (.missing .intWidth)

/-- An `i1` has eight bits, and a pointer is a 64-bit integer. -/
def scalarOf : Ir.Ty → Selected Scalar
  | .int width => intScalar width
  | .float 32 => .ok .f32
  | .float 64 => .ok .f64
  | .float _ => .error (.missing .floatWidth)
  | .ptr => .ok .i64
  | .void => .error (.fault .voidValue)
  | .struct _ => .error (.missing .structByValue)

def signatureOf (f : Ir.Function) : Selected Signature := do
  let params ← f.params.mapM fun p => scalarOf p.ty
  if f.returns = .void then return ⟨params, none⟩
  return ⟨params, some (← scalarOf f.returns)⟩

/-- The offset of a scalar in its struct is taken for a signed number. -/
def displacement (offset : UInt32) : Word := offset.toInt32.toInt64.toUInt64

/-- How a field is copied with its struct, which begins at `base`; `plan` is for the structs inside of it. -/
def fieldPlan (plan : Word → String → Selected CopyPlan) (base : Word) (ty : Ir.Ty) (offset : UInt32) :
    Selected CopyPlan :=
  match ty with
  | .struct inner => do return ⟨(← plan (base + offset.toUInt64) inner).leaves, true⟩
  | _ => do return ⟨[⟨← scalarOf ty, base + displacement offset⟩], false⟩

def copyPlanWithin (m : Ir.Module) (depth : Nat) (base : Word) (name : String) : Selected CopyPlan :=
  match m.struct? name, depth with
  | none, _ => .error (.fault (.layout (.unknownStruct name)))
  | some _, 0 => .error (.fault (.layout (.containsItself name)))
  | some layout, depth + 1 => do
    let offsets ← ofLayout (m.fieldOffsets name)
    let parts ← (layout.fields.zip offsets).mapM fun (field, offset) =>
      fieldPlan (copyPlanWithin m depth) base field.2 offset
    return ⟨parts.flatMap (·.leaves), parts.any (·.nested)⟩
termination_by structural depth

def copyPlan (m : Ir.Module) (name : String) : Selected CopyPlan :=
  copyPlanWithin m (m.structs.length + 1) 0 name

structure Environment where
  module : Ir.Module
  signatures : List (String × Signature)
  /-- The address of each string constant. -/
  globals : List (String × Nat)

/-- A function being selected: the latest value of each register, and the frame so far. -/
structure Selection where
  values : List (Nat × Operand)
  nextValue : Nat
  frameSize : Nat

abbrev Select := StateT Selection Selected

namespace Select

def fault {α : Type} (f : SelectionFault) : Select α := throw (.fault f)

def constant (value : Int64) (s : Scalar) (width : Nat) : Operand :=
  ⟨.const (if width = 1 then value.toUInt64 &&& 1 else s.truncate value.toUInt64), s⟩

def operand (env : Environment) (signature : Signature) : Ir.Value → Select Operand
  | .reg r => do
    match (← get).values.lookup r.id with
    | some found => return found
    | none => fault (.undefinedRegister r.id)
  | .int value width => do
    let s ← intScalar width
    return constant value s width
  | .float value 32 => return ⟨.const (narrow value), .f32⟩
  | .float value 64 => return ⟨.const value.bits, .f64⟩
  | .float _ _ => throw (.missing .floatWidth)
  | .arg index _ =>
    match signature.params[index]? with
    | some s => return ⟨.param index, s⟩
    | none => fault (.argumentRange index)
  | .global name =>
    match env.globals.lookup name with
    | some addr => return ⟨.const addr.toUInt64, .i64⟩
    | none => fault (.unknownGlobal name)

def define (r : Ir.Reg) (s : Scalar) : Select Nat :=
  modifyGet fun sel =>
    (sel.nextValue,
      { sel with
        values := (r.id, ⟨.value sel.nextValue, s⟩) :: sel.values
        nextValue := sel.nextValue + 1 })

def newSlot (env : Environment) (ty : Ir.Ty) : Select Nat := do
  let extent ← ofLayout (env.module.extent [] ty)
  modifyGet fun sel =>
    let align := max 8 extent.align.toNat
    let offset := (sel.frameSize + align - 1) / align * align
    (offset, { sel with frameSize := offset + max extent.size.toNat 1 })

def calleeOf (env : Environment) (name : String) : Callee :=
  match (env.module.functions.filter (!·.isDeclaration)).findIdx? (·.name == name) with
  | some index => .defined index
  | none => .foreign name

def instruction (env : Environment) (signature : Signature) : Ir.Instruction → Select Instr
  | .alloca dest ty => do
    let offset ← newSlot env ty
    return .slot (← define dest .i64) offset
  | .load dest ty addr => do
    let addr ← operand env signature addr
    match ty with
    | .struct name => do
      let offset ← newSlot env ty
      let plan ← copyPlan env.module name
      return .loadStruct (← define dest .i64) offset plan addr
    | _ => do
      let s ← scalarOf ty
      return .load (← define dest s) s addr
  | .store value addr => do
    let target ← operand env signature addr
    let stored ← operand env signature value
    match value.ty with
    | .struct name => return .storeStruct (← copyPlan env.module name) stored target
    | _ => return .store stored target
  | .fieldAddr dest struct base index => do
    let offsets ← ofLayout (env.module.fieldOffsets struct)
    match offsets[index]? with
    | none => fault (.noField struct index)
    | some offset => do
      let base ← operand env signature base
      return .offset (← define dest base.scalar) base offset.toNat
  | .elementAddr dest element base index => do
    let size ← ofLayout (env.module.sizeOf element)
    let base ← operand env signature base
    let index ← operand env signature index
    return .element (← define dest base.scalar) size.toNat base index
  | .binary dest op lhs rhs => do
    let lhs ← operand env signature lhs
    let rhs ← operand env signature rhs
    return .binary (← define dest lhs.scalar) op lhs rhs
  | .neg dest value => do
    let value ← operand env signature value
    return .neg (← define dest value.scalar) value
  | .fneg dest value => do
    let value ← operand env signature value
    return .fneg (← define dest value.scalar) value
  | .icmp dest pred lhs rhs => do
    let lhs ← operand env signature lhs
    let rhs ← operand env signature rhs
    return .icmp (← define dest .i8) pred lhs rhs
  | .fcmp dest pred lhs rhs => do
    let lhs ← operand env signature lhs
    let rhs ← operand env signature rhs
    return .fcmp (← define dest .i8) pred lhs rhs
  | .call dest callee args => do
    match env.signatures.lookup callee with
    | none => fault (.unknownCallee callee)
    | some called => do
      let args ← args.mapM (operand env signature)
      match dest, called.returns with
      | none, _ => return .call none (calleeOf env callee) called args
      | some _, none => fault (.noResult callee)
      | some dest, some s => return .call (some (← define dest s)) (calleeOf env callee) called args

def target (f : Ir.Function) (id : Nat) : Select Nat :=
  match f.blocks.reverse.findIdx? (·.id == id) with
  | some back => return f.blocks.length - 1 - back
  | none => fault (.unknownTarget id)

def terminator (env : Environment) (signature : Signature) (f : Ir.Function) :
    Ir.Terminator → Select Exit
  | .ret none => return .ret none
  | .ret (some value) => return .ret (some (← operand env signature value))
  | .br id => return .br (← target f id)
  | .condBr cond onTrue onFalse => do
    let onTrue ← target f onTrue
    let onFalse ← target f onFalse
    return .condBr (← operand env signature cond) onTrue onFalse
  | .unreachable => return .trap

def block (env : Environment) (signature : Signature) (f : Ir.Function) (b : Ir.Block) :
    Select Block := do
  let instrs ← b.instructions.mapM (instruction env signature)
  match b.terminator with
  | none => fault (.unterminated f.name b.label)
  | some t => return ⟨instrs, ← terminator env signature f t⟩

end Select

def selectFunction (env : Environment) (f : Ir.Function) : Selected Function := do
  let signature ← signatureOf f
  if f.blocks.isEmpty then throw (.fault (.noBlocks f.name))
  let (blocks, sel) ← (f.blocks.mapM (Select.block env signature f)).run ⟨[], 0, 0⟩
  let code : Function := ⟨signature, sel.frameSize, sel.nextValue, blocks.toArray⟩
  if (f.blocks.map (·.id)).Nodup ∧ code.wellFormed then return code
  throw .rejected

def declareFunctions (known : List (String × Signature)) :
    List Ir.Function → Selected (List (String × Signature))
  | [] => .ok known
  | f :: rest => do
    let signature ← signatureOf f
    match known.lookup f.name with
    | none => declareFunctions ((f.name, signature) :: known) rest
    | some earlier =>
      if earlier = signature then declareFunctions known rest else throw .rejected

def placeGlobals (taken : List String) (known : List (String × Nat)) (data : List UInt8) :
    List Ir.Global → Selected (List (String × Nat) × List UInt8)
  | [] => .ok (known, data)
  | g :: rest =>
    if taken.contains g.name then .error .rejected
    else
      placeGlobals (g.name :: taken) ((g.name, origin + data.length) :: known)
        (data ++ g.text.toUTF8.toList ++ [0]) rest

def selectFunctions (env : Environment) (seen : List String) :
    List Ir.Function → Selected (List Function)
  | [] => .ok []
  | f :: rest => do
    let code ← selectFunction env f
    if seen.contains f.name then throw .rejected
    return code :: (← selectFunctions env (f.name :: seen) rest)

def select (m : Ir.Module) : Selected Program := do
  let signatures ← declareFunctions [] m.functions
  let (globals, data) ← placeGlobals (signatures.map (·.1)) [] [] m.globals
  let functions ← selectFunctions ⟨m, signatures, globals⟩ [] (m.functions.filter (!·.isDeclaration))
  return ⟨functions.toArray, data⟩

end StructLang.Machine
