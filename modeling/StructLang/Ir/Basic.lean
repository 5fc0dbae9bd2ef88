import StructLang.Binary64
import StructLang.Ty

namespace StructLang.Ir

/-- Pointers do not say what they point to. -/
inductive Ty
  | void
  | int (width : Nat)
  | float (width : Nat)
  | ptr
  | struct (name : String)
  deriving DecidableEq, Repr, Inhabited

def Ty.ofSource : StructLang.Ty → Ty
  | .ptr _ => .ptr
  | .int width => .int width
  | .float width => .float width
  | .struct name => .struct name
  | .void => .void

def Ty.isFloat : Ty → Bool
  | .float _ => true
  | _ => false

structure Reg where
  id : Nat
  ty : Ty
  deriving DecidableEq, Repr, Inhabited

inductive Value
  | reg (r : Reg)
  | int (value : Int64) (width : Nat)
  | float (value : Binary64) (width : Nat)
  | arg (index : Nat) (ty : Ty)
  | global (name : String)
  deriving DecidableEq, Repr, Inhabited

def Value.ty : Value → Ty
  | .reg r => r.ty
  | .int _ width => .int width
  | .float _ width => .float width
  | .arg _ ty => ty
  | .global _ => .ptr

inductive BinOp
  | add | sub | mul | sdiv | fadd | fsub | fmul | fdiv
  deriving DecidableEq, Repr, Inhabited

inductive IntPred
  | eq | ne | slt | sgt | sle | sge
  deriving DecidableEq, Repr, Inhabited

/-- Comparisons that hold whenever an operand is not a number. -/
inductive FloatPred
  | ueq | ult | ugt | ule | uge
  deriving DecidableEq, Repr, Inhabited

inductive Instruction
  /-- A place in the frame for one value of the type; the register holds its address. -/
  | alloca (dest : Reg) (ty : Ty)
  | load (dest : Reg) (ty : Ty) (addr : Value)
  | store (value addr : Value)
  /-- The address of a field of the struct at `base`. -/
  | fieldAddr (dest : Reg) (struct : String) (base : Value) (index : Nat)
  /-- The address of an element of the array at `base`. -/
  | elementAddr (dest : Reg) (element : Ty) (base index : Value)
  | binary (dest : Reg) (op : BinOp) (lhs rhs : Value)
  | neg (dest : Reg) (operand : Value)
  | fneg (dest : Reg) (operand : Value)
  | icmp (dest : Reg) (pred : IntPred) (lhs rhs : Value)
  | fcmp (dest : Reg) (pred : FloatPred) (lhs rhs : Value)
  /-- A call of a function that returns nothing has no register. -/
  | call (dest : Option Reg) (callee : String) (args : List Value)
  deriving DecidableEq, Repr, Inhabited

namespace Instruction

def dest? : Instruction → Option Reg
  | .alloca dest .. | .load dest .. | .fieldAddr dest .. | .elementAddr dest .. | .binary dest ..
  | .neg dest .. | .fneg dest .. | .icmp dest .. | .fcmp dest .. => some dest
  | .call dest .. => dest
  | .store .. => none

def operands : Instruction → List Value
  | .alloca .. => []
  | .load _ _ addr => [addr]
  | .store value addr => [value, addr]
  | .fieldAddr _ _ base _ => [base]
  | .elementAddr _ _ base index => [base, index]
  | .binary _ _ lhs rhs | .icmp _ _ lhs rhs | .fcmp _ _ lhs rhs => [lhs, rhs]
  | .neg _ operand | .fneg _ operand => [operand]
  | .call _ _ args => args

end Instruction

inductive Terminator
  | ret (value : Option Value)
  | br (target : Nat)
  | condBr (cond : Value) (onTrue onFalse : Nat)
  | unreachable
  deriving DecidableEq, Repr, Inhabited

def Terminator.successors : Terminator → List Nat
  | .br target => [target]
  | .condBr _ onTrue onFalse => [onTrue, onFalse]
  | .ret _ | .unreachable => []

structure Block where
  id : Nat
  label : String
  instructions : List Instruction
  terminator : Option Terminator
  deriving DecidableEq, Repr, Inhabited

def Block.empty (id : Nat) (label : String) : Block := ⟨id, label, [], none⟩

structure Param where
  name : String
  ty : Ty
  deriving DecidableEq, Repr, Inhabited

/-- A declaration is a function defined elsewhere; it has no blocks. -/
structure Function where
  name : String
  params : List Param
  returns : Ty
  blocks : List Block
  isDeclaration : Bool
  deriving DecidableEq, Repr, Inhabited

def Function.declaration (name : String) (params : List Param) (returns : Ty) : Function :=
  ⟨name, params, returns, [], true⟩

def Function.block? (f : Function) (id : Nat) : Option Block := f.blocks.find? (·.id == id)

/-- A string constant; a zero byte follows its text. -/
structure Global where
  name : String
  text : String
  deriving DecidableEq, Repr, Inhabited

structure Layout where
  name : String
  fields : List (String × Ty)
  deriving DecidableEq, Repr, Inhabited

/-- The position of a field, the last one if the name is repeated. -/
def Layout.index? (l : Layout) (field : String) : Option Nat :=
  (l.fields.reverse.findIdx? (·.1 == field)).map (l.fields.length - 1 - ·)

def Layout.type? (l : Layout) (index : Nat) : Option Ty := l.fields[index]?.map (·.2)

structure Module where
  name : String
  structs : List Layout
  globals : List Global
  functions : List Function
  deriving DecidableEq, Repr, Inhabited

namespace Module

def empty (name : String) : Module := ⟨name, [], [], []⟩

def function? (m : Module) (name : String) : Option Function := m.functions.find? (·.name == name)

def struct? (m : Module) (name : String) : Option Layout := m.structs.find? (·.name == name)

end Module

end StructLang.Ir
