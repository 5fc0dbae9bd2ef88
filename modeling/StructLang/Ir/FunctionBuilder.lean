import StructLang.Ir.Basic

namespace StructLang.Ir

structure FunctionBuilder where
  name : String
  params : List Param
  returns : Ty
  /-- Every block created, by number. -/
  arena : List Block
  /-- The blocks placed in the function, in order. -/
  attached : List Nat
  /-- The block that is being written. -/
  current : Option Nat
  nextReg : Nat
  /-- The number of frame slots at the start of the entry block. -/
  entrySlots : Nat
  deriving DecidableEq, Repr, Inhabited

namespace FunctionBuilder

def start (name : String) (params : List Param) (returns : Ty) : FunctionBuilder :=
  ⟨name, params, returns, [], [], none, 0, 0⟩

/-- A label that is taken gets the number of the block as a suffix. -/
def freshLabel (b : FunctionBuilder) (label : String) : String :=
  if b.arena.any (·.label == label) then label ++ toString b.arena.length else label

def create (b : FunctionBuilder) (label : String) : Nat × FunctionBuilder :=
  (b.arena.length, { b with arena := b.arena ++ [Block.empty b.arena.length (b.freshLabel label)] })

def append (b : FunctionBuilder) (id : Nat) : FunctionBuilder :=
  if b.attached.contains id then b else { b with attached := b.attached ++ [id] }

def attach (b : FunctionBuilder) (label : String) : Nat × FunctionBuilder :=
  let (id, b) := b.create label
  (id, b.append id)

def switchTo (b : FunctionBuilder) (id : Nat) : FunctionBuilder := { b with current := some id }

def isTerminated (b : FunctionBuilder) : Bool :=
  ((b.current.bind (b.arena[·]?)).bind (·.terminator)).isSome

def labels (b : FunctionBuilder) : List String :=
  (b.attached.filterMap (b.arena[·]?)).map (·.label)

def newReg (b : FunctionBuilder) (ty : Ty) : Reg × FunctionBuilder :=
  (⟨b.nextReg, ty⟩, { b with nextReg := b.nextReg + 1 })

/-- Code after a terminator has no predecessor and goes to a block of its own. -/
def ensureOpen (b : FunctionBuilder) : Nat × FunctionBuilder :=
  match b.current with
  | some id => if b.isTerminated then openDead else (id, b)
  | none => openDead
where
  openDead : Nat × FunctionBuilder :=
    let (id, b) := b.attach "dead"
    (id, b.switchTo id)

def update (b : FunctionBuilder) (id : Nat) (f : Block → Block) : FunctionBuilder :=
  { b with arena := b.arena.modify id f }

def emit (b : FunctionBuilder) (i : Instruction) : FunctionBuilder :=
  let (id, b) := b.ensureOpen
  b.update id fun block => { block with instructions := block.instructions ++ [i] }

def terminate (b : FunctionBuilder) (t : Terminator) : FunctionBuilder :=
  let (id, b) := b.ensureOpen
  b.update id fun block => { block with terminator := some t }

/-- A slot in the frame. It is set up in the entry block ahead of all other code, wherever it is
asked for. -/
def alloca (b : FunctionBuilder) (ty : Ty) : Value × FunctionBuilder :=
  let (dest, b) := b.newReg .ptr
  let slot := Instruction.alloca dest ty
  match b.attached with
  | [] => (.reg dest, b.emit slot)
  | entry :: _ =>
    let b := b.update entry fun block =>
      { block with instructions := block.instructions.insertIdx b.entrySlots slot }
    (.reg dest, { b with entrySlots := b.entrySlots + 1 })

def define (b : FunctionBuilder) (ty : Ty) (instruction : Reg → Instruction) : Value × FunctionBuilder :=
  let (dest, b) := b.newReg ty
  (.reg dest, b.emit (instruction dest))

def load (b : FunctionBuilder) (ty : Ty) (addr : Value) : Value × FunctionBuilder :=
  b.define ty (.load · ty addr)

def store (b : FunctionBuilder) (value addr : Value) : FunctionBuilder := b.emit (.store value addr)

def fieldAddr (b : FunctionBuilder) (struct : String) (base : Value) (index : Nat) :
    Value × FunctionBuilder :=
  b.define .ptr (.fieldAddr · struct base index)

def elementAddr (b : FunctionBuilder) (element : Ty) (base index : Value) : Value × FunctionBuilder :=
  b.define .ptr (.elementAddr · element base index)

def binary (b : FunctionBuilder) (op : BinOp) (lhs rhs : Value) : Value × FunctionBuilder :=
  b.define lhs.ty (.binary · op lhs rhs)

def neg (b : FunctionBuilder) (operand : Value) : Value × FunctionBuilder :=
  b.define operand.ty (.neg · operand)

def fneg (b : FunctionBuilder) (operand : Value) : Value × FunctionBuilder :=
  b.define operand.ty (.fneg · operand)

def icmp (b : FunctionBuilder) (pred : IntPred) (lhs rhs : Value) : Value × FunctionBuilder :=
  b.define (.int 1) (.icmp · pred lhs rhs)

def fcmp (b : FunctionBuilder) (pred : FloatPred) (lhs rhs : Value) : Value × FunctionBuilder :=
  b.define (.int 1) (.fcmp · pred lhs rhs)

def call (b : FunctionBuilder) (callee : String) (args : List Value) (returns : Ty) :
    Option Value × FunctionBuilder :=
  if returns = .void then (none, b.emit (.call none callee args))
  else
    let (value, b) := b.define returns fun dest => .call (some dest) callee args
    (some value, b)

def build (b : FunctionBuilder) : Function :=
  ⟨b.name, b.params, b.returns, b.attached.filterMap (b.arena[·]?), false⟩

def canEmit (b : FunctionBuilder) : Bool := b.ensureOpen.1 < b.ensureOpen.2.arena.length

def canAlloca (b : FunctionBuilder) : Bool :=
  match b.attached with
  | [] => b.canEmit
  | entry :: _ => entry < b.arena.length

end FunctionBuilder

inductive BuildStep
  | create (label : String)
  | attach (label : String)
  | append (id : Nat)
  | switchTo (id : Nat)
  | alloca (ty : Ty)
  | load (ty : Ty) (addr : Value)
  | store (value addr : Value)
  | fieldAddr (struct : String) (base : Value) (index : Nat)
  | elementAddr (element : Ty) (base index : Value)
  | binary (op : BinOp) (lhs rhs : Value)
  | neg (operand : Value)
  | fneg (operand : Value)
  | icmp (pred : IntPred) (lhs rhs : Value)
  | fcmp (pred : FloatPred) (lhs rhs : Value)
  | call (callee : String) (args : List Value) (returns : Ty)
  | emit (i : Instruction)
  | terminate (t : Terminator)
  deriving DecidableEq, Repr

structure Made where
  block : Option Nat
  value : Option Value
  deriving DecidableEq, Repr

namespace FunctionBuilder

def step? (b : FunctionBuilder) : BuildStep → Option (Made × FunctionBuilder)
  | .create label => some (madeBlock (b.create label))
  | .attach label => some (madeBlock (b.attach label))
  | .append id => some (⟨none, none⟩, b.append id)
  | .switchTo id => some (⟨none, none⟩, b.switchTo id)
  | .alloca ty => if b.canAlloca then some (madeValue (b.alloca ty)) else none
  | .load ty addr => guarded (madeValue (b.load ty addr))
  | .store value addr => guarded (⟨none, none⟩, b.store value addr)
  | .fieldAddr struct base index => guarded (madeValue (b.fieldAddr struct base index))
  | .elementAddr element base index => guarded (madeValue (b.elementAddr element base index))
  | .binary op lhs rhs => guarded (madeValue (b.binary op lhs rhs))
  | .neg operand => guarded (madeValue (b.neg operand))
  | .fneg operand => guarded (madeValue (b.fneg operand))
  | .icmp pred lhs rhs => guarded (madeValue (b.icmp pred lhs rhs))
  | .fcmp pred lhs rhs => guarded (madeValue (b.fcmp pred lhs rhs))
  | .call callee args returns =>
    let (value, after) := b.call callee args returns
    guarded (⟨none, value⟩, after)
  | .emit i => guarded (⟨none, none⟩, b.emit i)
  | .terminate t => guarded (⟨none, none⟩, b.terminate t)
where
  madeBlock (made : Nat × FunctionBuilder) : Made × FunctionBuilder := (⟨some made.1, none⟩, made.2)
  madeValue (made : Value × FunctionBuilder) : Made × FunctionBuilder := (⟨none, some made.1⟩, made.2)
  guarded (made : Made × FunctionBuilder) : Option (Made × FunctionBuilder) :=
    if b.canEmit then some made else none

end FunctionBuilder

end StructLang.Ir
