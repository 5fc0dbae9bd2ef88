import StructLang.Machine.Memory

namespace StructLang.Machine

structure Signature where
  params : List Scalar
  returns : Option Scalar
  deriving DecidableEq, Repr, Inhabited

inductive Source
  | value (number : Nat)
  | const (word : Word)
  | param (index : Nat)
  deriving DecidableEq, Repr, Inhabited

structure Operand where
  source : Source
  scalar : Scalar
  deriving DecidableEq, Repr, Inhabited

/-- How a struct is copied; `nested` says whether it holds other structs. -/
structure CopyPlan where
  leaves : List Leaf
  nested : Bool
  deriving DecidableEq, Repr

inductive Callee
  | defined (index : Nat)
  | foreign (name : String)
  deriving DecidableEq, Repr

inductive Instr
  /-- The address of a place in the frame. -/
  | slot (dest : Nat) (offset : Nat)
  | load (dest : Nat) (scalar : Scalar) (addr : Operand)
  /-- Copies a struct to a place in the frame; the value is the address of the copy. -/
  | loadStruct (dest : Nat) (offset : Nat) (plan : CopyPlan) (addr : Operand)
  | store (value addr : Operand)
  | storeStruct (plan : CopyPlan) (source target : Operand)
  | offset (dest : Nat) (base : Operand) (bytes : Nat)
  | element (dest : Nat) (size : Nat) (base index : Operand)
  | binary (dest : Nat) (op : Ir.BinOp) (lhs rhs : Operand)
  | neg (dest : Nat) (operand : Operand)
  | fneg (dest : Nat) (operand : Operand)
  | icmp (dest : Nat) (pred : Ir.IntPred) (lhs rhs : Operand)
  | fcmp (dest : Nat) (pred : Ir.FloatPred) (lhs rhs : Operand)
  | call (dest : Option Nat) (callee : Callee) (signature : Signature) (args : List Operand)
  deriving DecidableEq, Repr

inductive Exit
  | ret (value : Option Operand)
  | br (target : Nat)
  | condBr (cond : Operand) (onTrue onFalse : Nat)
  | trap
  deriving DecidableEq, Repr, Inhabited

structure Block where
  instrs : List Instr
  exit : Exit
  deriving DecidableEq, Repr, Inhabited

structure Function where
  signature : Signature
  frameSize : Nat
  /-- The number of values the function writes. -/
  values : Nat
  blocks : Array Block
  deriving DecidableEq, Repr, Inhabited

structure Program where
  functions : Array Function
  data : List UInt8
  deriving DecidableEq, Repr, Inhabited

def CopyPlan.isEmpty (plan : CopyPlan) : Bool := plan.leaves.isEmpty && !plan.nested

namespace Instr

def dest? : Instr → Option Nat
  | .slot dest .. | .load dest .. | .loadStruct dest .. | .offset dest .. | .element dest ..
  | .binary dest .. | .neg dest .. | .fneg dest .. | .icmp dest .. | .fcmp dest .. => some dest
  | .call dest .. => dest
  | .store .. | .storeStruct .. => none

/-- The operands that are read: a copy of nothing reads no address. -/
def operands : Instr → List Operand
  | .slot .. => []
  | .load _ _ addr => [addr]
  | .loadStruct _ _ plan addr => if plan.isEmpty then [] else [addr]
  | .store value addr => [value, addr]
  | .storeStruct plan source target => if plan.isEmpty then [] else [source, target]
  | .offset _ base _ => [base]
  | .element _ _ base index => [base, index]
  | .binary _ _ lhs rhs | .icmp _ _ lhs rhs | .fcmp _ _ lhs rhs => [lhs, rhs]
  | .neg _ operand | .fneg _ operand => [operand]
  | .call _ _ _ args => args

end Instr

/-- Scalars are copied through addresses; where only structs without scalars are copied, any integer
passes, and where nothing is copied, anything. -/
def CopyPlan.accepts (plan : CopyPlan) (s : Scalar) : Bool :=
  if plan.leaves.isEmpty then plan.isEmpty || s.isInt else s.isAddress

def isFloatOp : Ir.BinOp → Bool
  | .fadd | .fsub | .fmul | .fdiv => true
  | .add | .sub | .mul | .sdiv => false

def Instr.wellTyped : Instr → Bool
  | .slot .. => true
  | .load _ _ addr => addr.scalar.isAddress
  | .loadStruct _ _ plan addr => plan.accepts addr.scalar
  | .store _ addr => addr.scalar.isAddress
  | .storeStruct plan source target => plan.accepts source.scalar && plan.accepts target.scalar
  | .offset _ base _ => base.scalar.isInt
  | .element _ _ base index => base.scalar == .i64 && index.scalar.isInt
  | .binary _ op lhs rhs => lhs.scalar == rhs.scalar && lhs.scalar.isInt != isFloatOp op
  | .neg _ operand => operand.scalar.isInt
  | .fneg _ operand => !operand.scalar.isInt
  | .icmp _ _ lhs rhs => lhs.scalar == rhs.scalar && lhs.scalar.isInt
  | .fcmp _ _ lhs rhs => lhs.scalar == rhs.scalar && !lhs.scalar.isInt
  | .call _ _ signature args => args.map (·.scalar) == signature.params

namespace Exit

def successors : Exit → List Nat
  | .br target => [target]
  | .condBr _ onTrue onFalse => [onTrue, onFalse]
  | .ret _ | .trap => []

def operands : Exit → List Operand
  | .ret value => value.toList
  | .condBr cond .. => [cond]
  | .br _ | .trap => []

def wellTyped (signature : Signature) (e : Exit) : Bool :=
  !e.successors.contains 0 &&
    match e with
    | .ret value => value.map (·.scalar) == signature.returns
    | .condBr cond .. => cond.scalar.isInt
    | .br _ | .trap => true

end Exit

namespace Function

def homes (f : Function) : Array Nat :=
  f.blocks.zipIdx.flatMap fun (b, i) => ((b.instrs.filterMap (·.dest?)).map fun _ => i).toArray

/-- Marks the blocks that can be entered from those in `waiting` without entering one that is marked
already; a block that is entered adds at most two to `waiting`. -/
def mark (f : Function) : Nat → List Nat → Array Bool → Array Bool
  | 0, _, marked | _, [], marked => marked
  | fuel + 1, i :: waiting, marked =>
    if marked.getD i true then f.mark fuel waiting marked
    else
      f.mark fuel ((f.blocks.getD i default).exit.successors ++ waiting) (marked.setIfInBounds i true)

def reachable (f : Function) : Array Bool :=
  f.mark (2 * f.blocks.size + 1) [0] (Array.replicate f.blocks.size false)

def reachableAvoiding (f : Function) (avoided : Nat) : Array Bool :=
  f.mark (2 * f.blocks.size + 1) [0]
    ((Array.replicate f.blocks.size false).setIfInBounds avoided true)

def dominates (f : Function) (d i : Nat) : Bool :=
  d == i || d == 0 || !(f.reachableAvoiding d).getD i false

def reads (b : Block) : List Nat :=
  (b.instrs.flatMap (·.operands) ++ b.exit.operands).filterMap fun operand =>
    match operand.source with
    | .value number => some number
    | _ => none

def writtenBeforeRead (f : Function) : Bool :=
  let homes := f.homes
  let reached := f.reachable
  f.blocks.toList.zipIdx.all fun (b, i) =>
    !reached.getD i false || (reads b).all fun number => f.dominates (homes.getD number 0) i

def frameFits (f : Function) : Bool := f.frameSize + 7 < 0x100000000

def wellFormed (f : Function) : Bool :=
  (f.blocks.all fun b => b.instrs.all Instr.wellTyped && b.exit.wellTyped f.signature) &&
    f.writtenBeforeRead && f.frameFits

end Function

end StructLang.Machine
