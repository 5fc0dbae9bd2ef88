import StructLang.Ir.Text

namespace StructLang.Ir

inductive FunctionFault
  | definedTwice
  | declarationBody
  | noEntry
  | blockTwice (label : String)
  | registerTwice (id : Nat)
  | unterminated (label : String)
  | returnMismatch (label : String) (returns : Ty)
  | conditionType (label : String)
  | foreignTarget (label : String)
  | undefinedRegister (id : Nat) (label : String)
  | argumentRange (index : Nat)
  | unknownCallee (callee : String)
  | argumentCount (callee : String) (passed expected : Nat)
  | unknownField (index : Nat) (struct : String)
  | storeType (stored field : Ty)
  | unknownGlobal (name : String)
  deriving DecidableEq, Repr

def FunctionFault.message : FunctionFault → String
  | .definedTwice => "function is defined more than once"
  | .declarationBody => "declaration has a body"
  | .noEntry => "function has no entry block"
  | .blockTwice label => "block '" ++ label ++ "' is placed twice"
  | .registerTwice id => "register %" ++ toString id ++ " is defined more than once"
  | .unterminated label => "block '" ++ label ++ "' has no terminator"
  | .returnMismatch label returns => "return in '" ++ label ++ "' does not match " ++ returns.render
  | .conditionType label => "branch condition in '" ++ label ++ "' is not i1"
  | .foreignTarget label => "block '" ++ label ++ "' branches to a block outside the function"
  | .undefinedRegister id label =>
    "register %" ++ toString id ++ " used in '" ++ label ++ "' before it is defined"
  | .argumentRange index => "argument " ++ toString index ++ " out of range"
  | .unknownCallee callee => "call to unknown '" ++ callee ++ "'"
  | .argumentCount callee passed expected =>
    "call to '" ++ callee ++ "' passes " ++ toString passed ++ " argument(s), expected " ++ toString expected
  | .unknownField index struct => "field " ++ toString index ++ " of '" ++ struct ++ "' does not exist"
  | .storeType stored field => "store of " ++ stored.render ++ " into a " ++ field.render ++ " field"
  | .unknownGlobal name => "unknown global '@" ++ name ++ "'"

structure ValidityError where
  function : String
  fault : FunctionFault
  deriving DecidableEq, Repr

def ValidityError.message (e : ValidityError) : String :=
  "in function '" ++ e.function ++ "': " ++ e.fault.message

namespace Function

def checkPlacement (seen : List Nat) : List Block → Except FunctionFault Unit
  | [] => .ok ()
  | b :: rest =>
    if seen.contains b.id then .error (.blockTwice b.label) else checkPlacement (b.id :: seen) rest

def checkOperand (f : Function) (label : String) (visible : List Nat) :
    Value → Except FunctionFault Unit
  | .reg r => if visible.contains r.id then .ok () else .error (.undefinedRegister r.id label)
  | .arg index _ => if index < f.params.length then .ok () else .error (.argumentRange index)
  | _ => .ok ()

/-- The registers written in the function so far, and those that the block may read. -/
structure Definitions where
  written : List Nat
  visible : List Nat

def Definitions.write (d : Definitions) (id : Nat) : Except FunctionFault Definitions :=
  if d.written.contains id then .error (.registerTwice id)
  else .ok ⟨id :: d.written, id :: d.visible⟩

def checkInstruction (f : Function) (label : String) (d : Definitions) (i : Instruction) :
    Except FunctionFault Definitions := do
  i.operands.forM (f.checkOperand label d.visible)
  match i.dest? with
  | none => return d
  | some dest => d.write dest.id

def checkTerminator (f : Function) (label : String) (visible : List Nat) :
    Terminator → Except FunctionFault Unit
  | .ret value => do
    value.toList.forM (f.checkOperand label visible)
    if value.isSome == decide (f.returns = .void) then throw (.returnMismatch label f.returns)
  | .condBr cond _ _ => do
    f.checkOperand label visible cond
    if cond.ty ≠ .int 1 then throw (.conditionType label)
  | .br _ | .unreachable => .ok ()

def checkTargets (f : Function) (label : String) (t : Terminator) : Except FunctionFault Unit :=
  if t.successors.all fun id => (f.blocks.map (·.id)).contains id then .ok ()
  else .error (.foreignTarget label)

def checkBlock (f : Function) (entry : Block) (written : List Nat) (b : Block) :
    Except FunctionFault (List Nat) := do
  let entered := if b.id = entry.id then [] else entry.instructions.filterMap (·.dest?.map (·.id))
  let d ← b.instructions.foldlM (f.checkInstruction b.label) ⟨written, entered⟩
  match b.terminator with
  | none => throw (.unterminated b.label)
  | some t => do
    f.checkTerminator b.label d.visible t
    f.checkTargets b.label t
    return d.written

def checkBody (f : Function) : Except FunctionFault Unit :=
  if f.isDeclaration then if f.blocks.isEmpty then .ok () else .error .declarationBody
  else
    match f.blocks with
    | [] => .error .noEntry
    | entry :: _ => do
      checkPlacement [] f.blocks
      let _ ← f.blocks.foldlM (f.checkBlock entry) []

def validate (f : Function) : Except ValidityError Unit := f.checkBody.mapError (⟨f.name, ·⟩)

end Function

namespace Module

/-- The registers that hold field addresses, with the types of the fields, the latest first. -/
abbrev FieldTypes := List (Nat × Ty)

def checkGlobal (m : Module) : Value → Except FunctionFault Unit
  | .global name => if m.globals.any (·.name == name) then .ok () else .error (.unknownGlobal name)
  | _ => .ok ()

def checkUse (m : Module) (types : FieldTypes) : Instruction → Except FunctionFault FieldTypes
  | .call _ callee args =>
    match m.function? callee with
    | none => .error (.unknownCallee callee)
    | some f =>
      if f.params.length = args.length then .ok types
      else .error (.argumentCount callee args.length f.params.length)
  | .fieldAddr dest struct _ index =>
    match (m.struct? struct).bind (·.type? index) with
    | none => .error (.unknownField index struct)
    | some ty => .ok ((dest.id, ty) :: types)
  | .store value (.reg addr) =>
    match types.lookup addr.id with
    | some ty => if value.ty = ty then .ok types else .error (.storeType value.ty ty)
    | none => .ok types
  | _ => .ok types

def checkReferences (m : Module) (types : FieldTypes) (i : Instruction) :
    Except FunctionFault FieldTypes := do
  let types ← m.checkUse types i
  i.operands.forM m.checkGlobal
  return types

def checkFunction (m : Module) (f : Function) : Except FunctionFault Unit := do
  f.checkBody
  let _ ← (f.blocks.flatMap (·.instructions)).foldlM m.checkReferences []

def validateFrom (m : Module) (seen : List String) : List Function → Except ValidityError Unit
  | [] => .ok ()
  | f :: rest => do
    if seen.contains f.name then throw ⟨f.name, .definedTwice⟩
    (m.checkFunction f).mapError (⟨f.name, ·⟩)
    m.validateFrom (f.name :: seen) rest

def validate (m : Module) : Except ValidityError Unit := m.validateFrom [] m.functions

end Module

end StructLang.Ir
