import Mathlib.Logic.Relation
import StructLang.Machine.Run

namespace StructLang.Machine

open Relation (ReflTransGen)

section Steps

theorem Frame.values_set (frame : Frame) (dest : Nat) (w : Word) :
    (frame.set dest w).values = frame.values.setIfInBounds dest w := rfl

def Frame.goOn (frame : Frame) (instrs : List Instr) : Frame := { frame with instrs := instrs }

def Instr.Gives (frame : Frame) (w : Word) : Instr → Prop
  | .binary _ op lhs rhs => evalBinary op lhs.scalar (frame.eval lhs) (frame.eval rhs) = .ok w
  | .icmp .. | .fcmp .. => ∃ holds, w = ofBool holds
  | _ => True

inductive Moves (p : Program) : State → State → Prop
  | write {memory memory' frame callers i rest dest w} (next : frame.instrs = i :: rest) (written : i.dest? = some dest)
      (given : i.Gives frame w) :
      Moves p ⟨memory, frame, callers⟩ ⟨memory', (frame.goOn rest).set dest w, callers⟩
  | store {memory memory' frame callers i rest} (next : frame.instrs = i :: rest) (silent : i.dest? = none) :
      Moves p ⟨memory, frame, callers⟩ ⟨memory', frame.goOn rest, callers⟩
  | call {memory frame callers dest index signature args rest} (params : Array Word)
      (next : frame.instrs = .call dest (.defined index) signature args :: rest) :
      Moves p ⟨memory, frame, callers⟩
        (enter (p.functions.getD index default) params memory (⟨frame.goOn rest, dest, memory.size⟩ :: callers))
  | leave {memory memory' frame callers dest name signature args rest} (result : Option Word)
      (next : frame.instrs = .call dest (.foreign name) signature args :: rest) :
      Moves p ⟨memory, frame, callers⟩ ⟨memory', (frame.goOn rest).receive dest result, callers⟩
  | ret {memory memory' frame caller callers} (result : Option Word) (ended : frame.instrs = []) :
      Moves p ⟨memory, frame, caller :: callers⟩ ⟨memory', caller.frame.receive caller.dest result, callers⟩
  | branch {memory frame callers} (target : Nat) (ended : frame.instrs = []) :
      Moves p ⟨memory, frame, callers⟩ ⟨memory, frame.goTo target, callers⟩

variable {foreign : Foreign} {p : Program}

theorem moves_ofResult {memory : Memory} {frame : Frame} {callers : List Caller} {i : Instr} {rest : List Instr} {dest : Nat}
    {result : Except Trap Word} {s : State} (next : frame.instrs = i :: rest) (written : i.dest? = some dest)
    (given : ∀ w, result = .ok w → i.Gives frame w)
    (ran : ofResult memory callers (frame.goOn rest) dest result = .next s) : Moves p ⟨memory, frame, callers⟩ s := by
  cases result with
  | error t => cases ran
  | ok w =>
    cases ran
    exact .write next written (given w rfl)

theorem moves_ofMemory {memory : Memory} {frame frame' : Frame} {callers : List Caller} {result : Except Trap Memory}
    {s : State}
    (moves : ∀ memory', Moves p ⟨memory, frame, callers⟩ ⟨memory', frame', callers⟩)
    (ran : ofMemory callers frame' result = .next s) : Moves p ⟨memory, frame, callers⟩ s := by
  cases result with
  | error t => cases ran
  | ok memory' =>
    cases ran
    exact moves memory'

theorem moves_of_execute {memory : Memory} {frame : Frame} {callers : List Caller} {i : Instr} {rest : List Instr} {s : State}
    (next : frame.instrs = i :: rest) (ran : execute foreign p memory (frame.goOn rest) callers i = .next s) :
    Moves p ⟨memory, frame, callers⟩ s := by
  cases i with
  | slot | offset | element | neg | fneg =>
    cases ran
    exact .write next rfl trivial
  | load => exact moves_ofResult next rfl (fun _ _ => trivial) ran
  | loadStruct => exact moves_ofMemory (fun _ => .write next rfl trivial) ran
  | store | storeStruct => exact moves_ofMemory (fun _ => .store next rfl) ran
  | binary => exact moves_ofResult next rfl (fun _ same => same) ran
  | icmp | fcmp =>
    cases ran
    exact .write next rfl ⟨_, rfl⟩
  | call dest callee signature args =>
    cases callee with
    | foreign name =>
      unfold execute at ran
      dsimp only at ran
      split at ran
      · cases ran
        exact .leave _ next
      · cases ran
    | defined index =>
      cases ran
      exact .call _ next

theorem moves_of_leave {memory : Memory} {frame : Frame} {callers : List Caller} {exit : Exit} {s : State}
    (ended : frame.instrs = []) (ran : leave memory frame callers exit = .next s) : Moves p ⟨memory, frame, callers⟩ s := by
  cases exit with
  | br | condBr =>
    cases ran
    exact .branch _ ended
  | trap => cases ran
  | ret value =>
    cases callers with
    | nil => cases ran
    | cons caller callers =>
      cases ran
      exact .ret _ ended

theorem moves_of_step {s s' : State} (ran : step foreign p s = .next s') : Moves p s s' := by
  obtain ⟨memory, ⟨code, params, values, base, instrs, exit⟩, callers⟩ := s
  cases instrs with
  | nil => exact moves_of_leave rfl ran
  | cons i rest => exact moves_of_execute rfl ran

end Steps

section Bits

def IsBit (w : Word) : Prop := w = 0 ∨ w = 1

theorem isBit_ofBool (b : Bool) : IsBit (ofBool b) := by
  cases b
  · exact .inl rfl
  · exact .inr rfl

theorem IsBit.mul {a b : Word} (left : IsBit a) (right : IsBit b) (s : Scalar) : IsBit (s.truncate (a * b)) := by
  rcases left with rfl | rfl <;> rcases right with rfl | rfl <;> cases s <;> first | exact .inl rfl | exact .inr rfl

/-- Divided by 1, a truth value is itself; by 0 it has no quotient. -/
theorem IsBit.divide {a b w : Word} (left : IsBit a) (right : IsBit b) {s : Scalar} (divided : s.divide a b = .ok w) :
    IsBit w := by
  rcases right with rfl | rfl
  · cases s <;> cases divided
  · rcases left with rfl | rfl
    · cases s <;> cases divided <;> exact .inl rfl
    · cases s <;> cases divided <;> exact .inr rfl

theorem IsBit.ne_zero_iff {w : Word} (bit : IsBit w) : w ≠ 0 ↔ w &&& 1 = 1 := by
  rcases bit with rfl | rfl <;> decide

/-- An operand that is 0 or 1 as long as the values in `bits` are. -/
def Operand.IsBit (bits : Nat → Prop) (o : Operand) : Prop :=
  match o.source with
  | .value number => bits number
  | .const w => Machine.IsBit w
  | .param _ => False

/-- The values in `bits` are written by comparisons, and by products and quotients of such values. -/
def Instr.KeepsBits (bits : Nat → Prop) : Instr → Prop
  | .binary dest op lhs rhs => bits dest → (op = .mul ∨ op = .sdiv) ∧ lhs.IsBit bits ∧ rhs.IsBit bits
  | .icmp .. | .fcmp .. => True
  | i => ∀ dest, i.dest? = some dest → ¬bits dest

def Exit.TestsBit (bits : Nat → Prop) : Exit → Prop
  | .condBr cond _ _ => cond.IsBit bits
  | _ => True

structure Block.KeepsBits (bits : Nat → Prop) (b : Block) : Prop where
  instrs : ∀ i ∈ b.instrs, i.KeepsBits bits
  exit : b.exit.TestsBit bits

def Function.KeepsBits (bits : Nat → Prop) (code : Function) : Prop := ∀ b ∈ code.blocks, b.KeepsBits bits

def Frame.HoldsBits (bits : Nat → Prop) (frame : Frame) : Prop := ∀ n, bits n → IsBit (frame.values.getD n 0)

variable {bits : Nat → Prop} {frame : Frame}

theorem Frame.HoldsBits.eval (holds : frame.HoldsBits bits) {o : Operand} (bit : o.IsBit bits) : IsBit (frame.eval o) := by
  obtain ⟨source, scalar⟩ := o
  cases source with
  | value number => exact holds number bit
  | const w => exact bit
  | param index => exact bit.elim

theorem Frame.HoldsBits.set (holds : frame.HoldsBits bits) {dest : Nat} {w : Word} (bit : bits dest → IsBit w) :
    (frame.set dest w).HoldsBits bits := by
  intro n member
  rw [values_set, Array.getD_eq_getD_getElem?, Array.getElem?_setIfInBounds]
  split
  · rename_i here
    subst here
    split
    · exact bit member
    · exact .inl rfl
  · rw [← Array.getD_eq_getD_getElem?]
    exact holds n member

/-- What is written to a value that has to be a truth value is one. -/
theorem Instr.KeepsBits.gives {i : Instr} (keeps : i.KeepsBits bits) (holds : frame.HoldsBits bits) {dest : Nat} {w : Word}
    (written : i.dest? = some dest) (given : i.Gives frame w) : bits dest → IsBit w := by
  intro bit
  cases i with
  | binary dest' op lhs rhs =>
    cases written
    obtain ⟨op, left, right⟩ := keeps bit
    rcases op with rfl | rfl
    · cases given
      exact (holds.eval left).mul (holds.eval right) lhs.scalar
    · exact (holds.eval left).divide (holds.eval right) given
  | icmp | fcmp =>
    obtain ⟨b, rfl⟩ := given
    exact isBit_ofBool b
  | _ => exact absurd bit (keeps dest written)

end Bits

section Runs

def Instr.CallsBelow (count : Nat) : Instr → Prop
  | .call _ (.defined index) _ _ => index < count
  | _ => True

def Program.Closed (p : Program) : Prop :=
  ∀ code ∈ p.functions, ∀ b ∈ code.blocks, ∀ i ∈ b.instrs, i.CallsBelow p.functions.size

def State.frames (s : State) : List Frame := s.frame :: s.callers.map (·.frame)

/-- A call of a function of the program that is somewhere in a block, or has gone to a block that does not exist. -/
structure Frame.Within (p : Program) (frame : Frame) : Prop where
  code : frame.code ∈ p.functions
  place : ∃ b, (b ∈ frame.code.blocks ∨ b = default) ∧ frame.instrs <:+ b.instrs ∧ frame.exit = b.exit
  size : frame.values.size = frame.code.values
  bits : ∀ {bits}, frame.code.KeepsBits bits → frame.HoldsBits bits

/-- A call whose result is awaited writes no truth value. -/
structure Caller.Within (p : Program) (c : Caller) : Prop extends c.frame.Within p where
  dest : ∀ {bits}, c.frame.code.KeepsBits bits → ∀ dest, c.dest = some dest → ¬bits dest

structure State.Within (p : Program) (s : State) : Prop where
  frame : s.frame.Within p
  callers : ∀ c ∈ s.callers, c.Within p

variable {foreign : Foreign} {p : Program} {frame : Frame} {bits : Nat → Prop}

namespace Frame.Within

theorem exit (within : frame.Within p) (keeps : frame.code.KeepsBits bits) : frame.exit.TestsBit bits := by
  obtain ⟨b, place, -, exit⟩ := within.place
  rw [exit]
  rcases place with member | rfl
  · exact (keeps b member).exit
  · trivial

/-- The next instruction is one of the function. -/
theorem next (within : frame.Within p) {i : Instr} {rest : List Instr} (next : frame.instrs = i :: rest) :
    ∃ b ∈ frame.code.blocks, i ∈ b.instrs := by
  obtain ⟨b, place, suffix, -⟩ := within.place
  have member : i ∈ b.instrs := suffix.subset (next ▸ List.mem_cons_self ..)
  rcases place with place | rfl
  · exact ⟨b, place, member⟩
  · cases member

theorem keepsBits (within : frame.Within p) {i : Instr} {rest : List Instr} (next : frame.instrs = i :: rest)
    (keeps : frame.code.KeepsBits bits) : i.KeepsBits bits := by
  obtain ⟨b, place, member⟩ := within.next next
  exact (keeps b place).instrs i member

theorem goOn (within : frame.Within p) {i : Instr} {rest : List Instr} (next : frame.instrs = i :: rest) :
    (frame.goOn rest).Within p := by
  obtain ⟨b, place, suffix, exit⟩ := within.place
  refine ⟨within.code, ⟨b, place, ?_, exit⟩, within.size, within.bits⟩
  exact (next ▸ List.suffix_cons i rest).trans suffix

theorem set (within : frame.Within p) {dest : Nat} {w : Word}
    (bit : ∀ {bits}, frame.code.KeepsBits bits → bits dest → IsBit w) : (frame.set dest w).Within p := by
  refine ⟨within.code, within.place, ?_, fun keeps => (within.bits keeps).set (bit keeps)⟩
  rw [values_set, Array.size_setIfInBounds]
  exact within.size

theorem goTo (within : frame.Within p) (target : Nat) : (frame.goTo target).Within p := by
  refine ⟨within.code, ⟨_, ?_, List.suffix_refl _, rfl⟩, within.size, within.bits⟩
  rw [Array.getD_eq_getD_getElem?]
  cases found : frame.code.blocks[target]? with
  | none => exact .inr rfl
  | some b => exact .inl (Array.mem_of_getElem? found)

/-- At the start of a function every value is 0. -/
theorem enter {code : Function} (member : code ∈ p.functions) (params : Array Word) (memory : Memory) (callers : List Caller) :
    (Machine.enter code params memory callers).frame.Within p := by
  refine ⟨member, ⟨_, ?_, List.suffix_refl _, rfl⟩, Array.size_replicate, fun _ n _ => ?_⟩
  · rw [Array.getD_eq_getD_getElem?]
    cases found : code.blocks[0]? with
    | none => exact .inr rfl
    | some b => exact .inl (Array.mem_of_getElem? found)
  · refine .inl ?_
    change (Array.replicate code.values 0).getD n 0 = 0
    rw [Array.getD_eq_getD_getElem?, Array.getElem?_replicate]
    split <;> rfl

/-- A result goes where no truth value is. -/
theorem receive (within : frame.Within p) {dest : Option Nat}
    (silent : ∀ {bits}, frame.code.KeepsBits bits → ∀ n, dest = some n → ¬bits n) (result : Option Word) :
    (frame.receive dest result).Within p := by
  cases dest with
  | none => exact within
  | some n =>
    cases result with
    | none => exact within
    | some w => exact within.set fun keeps bit => absurd bit (silent keeps n rfl)

end Frame.Within

theorem State.Within.moves {s s' : State} (closed : p.Closed) (within : s.Within p) (moves : Moves p s s') : s'.Within p := by
  cases moves with
  | write next written given =>
    refine ⟨(within.frame.goOn next).set fun keeps => ?_, within.callers⟩
    exact (within.frame.keepsBits next keeps).gives (within.frame.bits keeps) written given
  | store next => exact ⟨within.frame.goOn next, within.callers⟩
  | @call memory frame callers dest index signature args rest params next =>
    obtain ⟨b, place, member⟩ := within.frame.next next
    have known : index < p.functions.size := closed _ within.frame.code b place _ member
    have callee : p.functions.getD index default ∈ p.functions := by
      rw [Array.getD_eq_getD_getElem?, Array.getElem?_eq_getElem known]
      exact Array.getElem_mem known
    refine ⟨Frame.Within.enter callee params memory _, ?_⟩
    rintro c (_ | ⟨_, before⟩)
    · exact ⟨within.frame.goOn next, fun keeps dest here => within.frame.keepsBits next keeps dest here⟩
    · exact within.callers c before
  | leave result next =>
    exact ⟨(within.frame.goOn next).receive (fun keeps => within.frame.keepsBits next keeps) result, within.callers⟩
  | @ret memory memory' frame caller callers result =>
    have waiting := within.callers caller (List.mem_cons_self ..)
    exact ⟨waiting.toWithin.receive waiting.dest result, fun c member => within.callers c (List.mem_cons_of_mem _ member)⟩
  | branch target => exact ⟨within.frame.goTo target, within.callers⟩

def Next (foreign : Foreign) (p : Program) (s s' : State) : Prop := step foreign p s = .next s'

theorem State.Within.run {s s' : State} (closed : p.Closed) (within : s.Within p)
    (ran : ReflTransGen (Next foreign p) s s') : s'.Within p := by
  induction ran with
  | refl => exact within
  | tail _ next ih => exact ih.moves closed (moves_of_step next)

theorem State.Within.frames {s : State} (within : s.Within p) {frame : Frame} (member : frame ∈ s.frames) :
    frame.Within p := by
  rcases List.mem_cons.mp member with rfl | waiting
  · exact within.frame
  · obtain ⟨c, there, rfl⟩ := List.mem_map.mp waiting
    exact (within.callers c there).toWithin

def State.branch? (s : State) : Option (Word × Nat × Nat) :=
  match s.frame.instrs, s.frame.exit with
  | [], .condBr cond onTrue onFalse => some (s.frame.eval cond, onTrue, onFalse)
  | _, _ => none

variable {s : State} {w : Word} {onTrue onFalse : Nat}

theorem State.of_branch? (branches : s.branch? = some (w, onTrue, onFalse)) :
    s.frame.instrs = [] ∧ ∃ cond, s.frame.exit = .condBr cond onTrue onFalse ∧ s.frame.eval cond = w := by
  unfold branch? at branches
  split at branches
  · rename_i cond _ _ ended exit
    cases branches
    exact ⟨ended, cond, exit, rfl⟩
  · cases branches

theorem step_of_branch? (branches : s.branch? = some (w, onTrue, onFalse)) :
    step foreign p s = .next ⟨s.memory, s.frame.goTo (if w ≠ 0 then onTrue else onFalse), s.callers⟩ := by
  obtain ⟨ended, cond, exit, rfl⟩ := s.of_branch? branches
  obtain ⟨memory, ⟨code, params, values, base, instrs, _⟩, callers⟩ := s
  cases ended
  cases exit
  rfl

/-- A branch on a truth value looks at its lowest bit. -/
theorem State.Within.branch (within : s.Within p) (keeps : s.frame.code.KeepsBits bits)
    (branches : s.branch? = some (w, onTrue, onFalse)) :
    step foreign p s = .next ⟨s.memory, s.frame.goTo (if w &&& 1 = 1 then onTrue else onFalse), s.callers⟩ := by
  have bit : Machine.IsBit w := by
    obtain ⟨-, cond, exit, rfl⟩ := s.of_branch? branches
    have tested := within.frame.exit keeps
    rw [exit] at tested
    exact (within.frame.bits keeps).eval tested
  rw [step_of_branch? branches]
  simp only [bit.ne_zero_iff]

end Runs

end StructLang.Machine
