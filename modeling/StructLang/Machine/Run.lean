import StructLang.Machine.Selection

namespace StructLang.Machine

structure Frame where
  code : Function
  params : Array Word
  values : Array Word
  /-- The address of the frame. -/
  base : Nat
  instrs : List Instr
  exit : Exit

/-- A call that waits for the result of another; `size` is the size its memory has. -/
structure Caller where
  frame : Frame
  dest : Option Nat
  size : Nat

structure State where
  memory : Memory
  frame : Frame
  callers : List Caller

inductive Step
  | next (s : State)
  | done (result : Option Word)
  | trap (reason : Trap)

/-- What functions that are defined elsewhere do with their arguments and the memory. -/
abbrev Foreign := String → List Word → Memory → Except Trap (Word × Memory)

def Foreign.absent : Foreign := fun name _ _ => .error (.foreignCall name)

namespace Frame

def eval (f : Frame) (operand : Operand) : Word :=
  match operand.source with
  | .value number => f.values.getD number 0
  | .const w => w
  | .param index => f.params.getD index 0

def set (f : Frame) (dest : Nat) (w : Word) : Frame :=
  match f with
  | ⟨code, params, values, base, instrs, exit⟩ =>
    ⟨code, params, values.setIfInBounds dest w, base, instrs, exit⟩

def receive (f : Frame) (dest : Option Nat) (result : Option Word) : Frame :=
  match dest, result with
  | some dest, some w => f.set dest w
  | _, _ => f

def goTo (f : Frame) (block : Nat) : Frame :=
  let b := f.code.blocks.getD block default
  { f with instrs := b.instrs, exit := b.exit }

end Frame

def frameBase (m : Memory) : Nat := (m.size + 15) / 16 * 16

def enter (code : Function) (params : Array Word) (m : Memory) (callers : List Caller) : State :=
  let base := frameBase m
  let entry := code.blocks.getD 0 default
  ⟨m.growTo (base + code.frameSize),
    ⟨code, params, Array.replicate code.values 0, base, entry.instrs, entry.exit⟩, callers⟩

def ofResult (memory : Memory) (callers : List Caller) (frame : Frame) (dest : Nat) :
    Except Trap Word → Step
  | .ok w => .next ⟨memory, frame.set dest w, callers⟩
  | .error t => .trap t

def ofMemory (callers : List Caller) (frame : Frame) : Except Trap Memory → Step
  | .ok memory => .next ⟨memory, frame, callers⟩
  | .error t => .trap t

def execute (foreign : Foreign) (p : Program) (memory : Memory) (frame : Frame) (callers : List Caller) : Instr → Step
  | .slot dest offset =>
    .next ⟨memory, frame.set dest (frame.base + offset).toUInt64, callers⟩
  | .load dest s addr => ofResult memory callers frame dest (memory.load s (frame.eval addr))
  | .loadStruct dest offset plan addr =>
    let target := (frame.base + offset).toUInt64
    ofMemory callers (frame.set dest target) (memory.copy (frame.eval addr) target plan.leaves)
  | .store value addr =>
    ofMemory callers frame (memory.store value.scalar (frame.eval addr) (frame.eval value))
  | .storeStruct plan source target =>
    ofMemory callers frame (memory.copy (frame.eval source) (frame.eval target) plan.leaves)
  | .offset dest base bytes =>
    .next ⟨memory, frame.set dest (base.scalar.truncate (frame.eval base + bytes.toUInt64)), callers⟩
  | .element dest size base index =>
    let distance := (index.scalar.signed (frame.eval index)).toUInt64 * size.toUInt64
    .next ⟨memory, frame.set dest (frame.eval base + distance), callers⟩
  | .binary dest op lhs rhs =>
    ofResult memory callers frame dest (evalBinary op lhs.scalar (frame.eval lhs) (frame.eval rhs))
  | .neg dest operand =>
    .next ⟨memory, frame.set dest (evalNeg operand.scalar (frame.eval operand)), callers⟩
  | .fneg dest operand =>
    .next ⟨memory, frame.set dest (evalFneg operand.scalar (frame.eval operand)), callers⟩
  | .icmp dest pred lhs rhs =>
    let holds := evalIcmp pred lhs.scalar (frame.eval lhs) (frame.eval rhs)
    .next ⟨memory, frame.set dest (ofBool holds), callers⟩
  | .fcmp dest pred lhs rhs =>
    let holds := evalFcmp pred lhs.scalar (frame.eval lhs) (frame.eval rhs)
    .next ⟨memory, frame.set dest (ofBool holds), callers⟩
  | .call dest callee signature args =>
    match callee with
    | .foreign name =>
      match foreign name (args.map frame.eval) memory with
      | .ok (w, memory) =>
        .next ⟨memory, frame.receive dest (signature.returns.map (·.truncate w)), callers⟩
      | .error t => .trap t
    | .defined index =>
      let size := memory.size
      let params := (args.map frame.eval).toArray
      .next (enter (p.functions.getD index default) params memory (⟨frame, dest, size⟩ :: callers))

def resume (memory : Memory) (result : Option Word) : List Caller → Step
  | [] => .done result
  | ⟨frame, dest, size⟩ :: callers =>
    .next ⟨memory.shrinkTo size, frame.receive dest result, callers⟩

def leave (memory : Memory) (frame : Frame) (callers : List Caller) : Exit → Step
  | .ret value => resume memory (value.map frame.eval) callers
  | .br target => .next ⟨memory, frame.goTo target, callers⟩
  | .condBr cond onTrue onFalse =>
    .next ⟨memory, frame.goTo (if frame.eval cond ≠ 0 then onTrue else onFalse), callers⟩
  | .trap => .trap .unreachable

def step (foreign : Foreign) (p : Program) : State → Step
  | ⟨memory, ⟨code, params, values, base, i :: rest, exit⟩, callers⟩ =>
    execute foreign p memory ⟨code, params, values, base, rest, exit⟩ callers i
  | ⟨memory, ⟨code, params, values, base, [], exit⟩, callers⟩ =>
    leave memory ⟨code, params, values, base, [], exit⟩ callers exit

inductive Outcome
  | finished (result : Option Word)
  | trapped (reason : Trap)
  | outOfFuel
  deriving DecidableEq, Repr

def run (foreign : Foreign) (p : Program) : Nat → State → Outcome
  | 0, _ => .outOfFuel
  | fuel + 1, s =>
    match step foreign p s with
    | .next s => run foreign p fuel s
    | .done result => .finished result
    | .trap reason => .trapped reason

inductive RunError
  | selection (error : SelectionError)
  | trap (reason : Trap)
  | outOfFuel
  deriving DecidableEq, Repr

def mainOf (m : Ir.Module) : Selected (Option Scalar) := do
  match (m.function? "main").filter (!·.isDeclaration) with
  | none => throw (.fault .noMain)
  | some f => do
    unless f.params.isEmpty do throw (.missing .mainParams)
    match f.returns with
    | .int 64 => return some .i64
    | .int 32 => return some .i32
    | .void => return none
    | _ => throw (.missing .mainReturn)

def exitCode (returns : Option Scalar) (result : Option Word) : Int64 :=
  match returns, result with
  | some s, some w => s.signed w
  | _, _ => 0

def runMainWith (foreign : Foreign) (m : Ir.Module) (fuel : Nat) : Except RunError Int64 := do
  let returns ← (mainOf m).mapError .selection
  let p ← (select m).mapError .selection
  let defined := m.functions.filter (!·.isDeclaration)
  let main := p.functions.getD (defined.findIdx (·.name == "main")) default
  match run foreign p fuel (enter main #[] (.ofData p.data) []) with
  | .finished result => return exitCode returns result
  | .trapped reason => throw (.trap reason)
  | .outOfFuel => throw .outOfFuel

def runMain (m : Ir.Module) (fuel : Nat) : Except RunError Int64 := runMainWith .absent m fuel

end StructLang.Machine
