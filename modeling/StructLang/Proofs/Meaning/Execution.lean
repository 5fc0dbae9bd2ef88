import StructLang.Proofs.Builder.Finished

namespace StructLang.Ir

/-- The numbers in the registers, and what is in the slots of the frame. A slot is empty until something
is stored to it. -/
structure Activation where
  regs : Nat → Option Int64
  slots : Nat → Option (Option Int64)

namespace Activation

def start : Activation := ⟨fun _ => none, fun _ => none⟩

def setReg (a : Activation) (r : Reg) (n : Int64) : Activation :=
  { a with regs := fun id => if id = r.id then some n else a.regs id }

def setSlot (a : Activation) (r : Reg) (content : Option Int64) : Activation :=
  { a with slots := fun id => if id = r.id then some content else a.slots id }

def receive (a : Activation) : Option Reg → Option Int64 → Option Activation
  | none, _ => some a
  | some r, some n => some (a.setReg r n)
  | some _, none => none

end Activation

def Value.eval (args : List Int64) (a : Activation) : Value → Option Int64
  | .reg r => a.regs r.id
  | .int n width => if width = 64 then some n else none
  | .arg index ty => if ty = .int 64 then args[index]? else none
  | _ => none

def BinOp.eval (x y : Int64) : BinOp → Option Int64
  | .add => some (x + y)
  | .sub => some (x - y)
  | .mul => some (x * y)
  | .sdiv => if y = 0 ∨ (x = Int64.minValue ∧ y = -1) then none else some (x / y)
  | _ => none

def IntPred.eval (x y : Int64) : IntPred → Bool
  | .eq => x = y
  | .ne => x ≠ y
  | .slt => x < y
  | .sgt => y < x
  | .sle => x ≤ y
  | .sge => y ≤ x

def Instruction.apply (args : List Int64) (a : Activation) : Instruction → Option Activation
  | .alloca dest (.int 64) => some (a.setSlot dest none)
  | .load dest (.int 64) (.reg addr) => do
    let content ← a.slots addr.id
    return a.setReg dest (← content)
  | .store value (.reg addr) => do
    let n ← value.eval args a
    let _ ← a.slots addr.id
    return a.setSlot addr (some n)
  | .binary dest op lhs rhs => do
    let x ← lhs.eval args a
    let y ← rhs.eval args a
    return a.setReg dest (← op.eval x y)
  | .neg dest operand => do return a.setReg dest (-(← operand.eval args a))
  | .icmp dest pred lhs rhs => do
    let x ← lhs.eval args a
    let y ← rhs.eval args a
    return a.setReg dest (if pred.eval x y then 1 else 0)
  | _ => none

/-- From the instructions and the exit that are left of a block, the function returns the result, with at
most `depth` calls active at a time besides its own. -/
inductive Runs (m : Module) : (depth : Nat) → Function → (args : List Int64) → Activation →
    List Instruction → Option Terminator → (result : Option Int64) → Prop
  | step {depth f args a i a' rest exit result} (applied : i.apply args a = some a')
      (next : Runs m depth f args a' rest exit result) : Runs m depth f args a (i :: rest) exit result
  | call {depth f args a dest callee values ns g entry others answer a' rest exit result}
      (found : m.function? callee = some g) (blocks : g.blocks = entry :: others)
      (passed : values.map (·.eval args a) = ns.map some)
      (called : Runs m depth g ns .start entry.instructions entry.terminator answer)
      (received : a.receive dest answer = some a') (next : Runs m (depth + 1) f args a' rest exit result) :
      Runs m (depth + 1) f args a (.call dest callee values :: rest) exit result
  | br {depth f args a target b result} (found : f.block? target = some b)
      (next : Runs m depth f args a b.instructions b.terminator result) :
      Runs m depth f args a [] (some (.br target)) result
  | condBr {depth f args a cond n onTrue onFalse b result} (tested : cond.eval args a = some n)
      (found : f.block? (if n ≠ 0 then onTrue else onFalse) = some b)
      (next : Runs m depth f args a b.instructions b.terminator result) :
      Runs m depth f args a [] (some (.condBr cond onTrue onFalse)) result
  | ret {depth f args a} : Runs m depth f args a [] (some (.ret none)) none
  | retValue {depth f args a value n} (found : value.eval args a = some n) :
      Runs m depth f args a [] (some (.ret (some value))) (some n)

def Module.Returns (m : Module) (depth : Nat) (name : String) (args : List Int64) (result : Option Int64) : Prop :=
  ∃ f entry others, m.function? name = some f ∧ f.blocks = entry :: others ∧
    Runs m depth f args .start entry.instructions entry.terminator result

structure Site where
  module : Module
  depth : Nat
  builder : FunctionBuilder
  args : List Int64
  done : builder.Finished

namespace FunctionBuilder

variable {b : FunctionBuilder}

theorem Finished.block?_build (done : b.Finished) {id : Nat} (known : id < b.arena.length) :
    ∃ label, b.build.block? id = some ⟨id, label, b.instructions id, b.exit id⟩ := by
  obtain ⟨label, blocks⟩ := done.blocks_eq
  have here : b.attached.find? (· == id) = some id := by
    cases found : b.attached.find? (· == id) with
    | none => exact absurd (beq_self_eq_true id) (List.find?_eq_none.mp found id (done.placed known))
    | some other => rw [eq_of_beq (List.find?_some (p := (· == id)) found)]
  refine ⟨label id, ?_⟩
  rw [Function.block?, blocks, List.find?_map]
  change (b.attached.find? (· == id)).map _ = _
  rw [here]
  rfl

end FunctionBuilder

namespace Site

variable (site : Site) {s : FunctionBuilder} {a a' : Activation} {result : Option Int64}

def Continues (s : FunctionBuilder) (a : Activation) (result : Option Int64) : Prop :=
  Runs site.module site.depth site.builder.build site.args a
    ((site.builder.code s.target).drop (s.code s.target).length) (site.builder.exit s.target) result

def Exits (t : Terminator) (a : Activation) (result : Option Int64) : Prop :=
  Runs site.module site.depth site.builder.build site.args a [] (some t) result

variable {site} {s' : FunctionBuilder}

/-- Writing goes on at the same place. -/
theorem Continues.same (next : site.Continues s' a result) (target : s'.target = s.target)
    (code : s'.code s.target = s.code s.target) : site.Continues s a result := by
  unfold Continues at next ⊢
  rw [target, code] at next
  exact next

theorem rest_emit {i : Instruction} (laid : s.Laid) (unfinished : s.isTerminated = false)
    (ordinary : i.isSlot = false) (grows : (s.emit i).Grows site.builder) :
    (s.emit i).target = s.target ∧ (site.builder.code s.target).drop (s.code s.target).length =
      i :: (site.builder.code s.target).drop ((s.emit i).code s.target).length := by
  have stays := (laid.straight_emit ordinary).stays unfinished
  have target := laid.target_eq (laid.emit ordinary) unfinished stays.1 stays.2
  obtain ⟨rest, split⟩ := grows.code s.target
  rw [laid.code_emit ordinary, if_pos rfl] at split ⊢
  refine ⟨target, ?_⟩
  rw [← split, List.append_assoc, List.drop_left, ← List.append_assoc, List.drop_left]
  rfl

/-- An instruction is carried out before what is written after it. -/
theorem Continues.emit {i : Instruction} (laid : s.Laid) (unfinished : s.isTerminated = false)
    (ordinary : i.isSlot = false) (grows : (s.emit i).Grows site.builder)
    (applied : i.apply site.args a = some a') (next : site.Continues (s.emit i) a' result) :
    site.Continues s a result := by
  obtain ⟨target, rest⟩ := rest_emit laid unfinished ordinary grows
  unfold Continues at next ⊢
  rw [target] at next
  rw [rest]
  exact .step applied next

theorem Continues.call {dest : Option Reg} {callee : String} {values : List Value} (laid : s.Laid)
    (unfinished : s.isTerminated = false) (grows : (s.emit (.call dest callee values)).Grows site.builder)
    {depth : Nat} (deep : site.depth = depth + 1) {ns : List Int64} {answer : Option Int64}
    (passed : values.map (·.eval site.args a) = ns.map some) (returns : site.module.Returns depth callee ns answer)
    (received : a.receive dest answer = some a')
    (next : site.Continues (s.emit (.call dest callee values)) a' result) : site.Continues s a result := by
  obtain ⟨target, rest⟩ := rest_emit laid unfinished rfl grows
  obtain ⟨g, entry, others, found, blocks, called⟩ := returns
  unfold Continues at next ⊢
  rw [target, deep] at next
  rw [rest, deep]
  exact .call found blocks passed called received next

theorem Continues.terminate {t : Terminator} (laid : s.Laid) (grows : (s.terminate t).Grows site.builder)
    (next : site.Exits t a result) : site.Continues s a result := by
  have exit : (s.terminate t).exit s.target = some t := by rw [laid.exit_terminate, if_pos rfl]
  obtain ⟨exit, code⟩ := grows.finished exit
  unfold Continues
  rw [exit, code, laid.code_terminate, List.drop_length]
  exact next

/-- At the start of a block. -/
theorem Continues.run (next : site.Continues s a result) (empty : s.code s.target = []) (other : s.target ≠ 0) :
    Runs site.module site.depth site.builder.build site.args a (site.builder.instructions s.target)
      (site.builder.exit s.target) result := by
  unfold Continues at next
  rw [empty] at next
  rw [site.done.sound.laid.others other]
  exact next

theorem Continues.br (next : site.Continues s a result) (empty : s.code s.target = []) (other : s.target ≠ 0)
    (known : s.target < site.builder.arena.length) : site.Exits (.br s.target) a result := by
  obtain ⟨label, found⟩ := site.done.block?_build known
  exact .br found (next.run empty other)

theorem Continues.condBr {cond : Value} {n : Int64} {onTrue onFalse : Nat} (next : site.Continues s a result)
    (empty : s.code s.target = []) (other : s.target ≠ 0) (known : s.target < site.builder.arena.length)
    (tested : cond.eval site.args a = some n) (chosen : (if n ≠ 0 then onTrue else onFalse) = s.target) :
    site.Exits (.condBr cond onTrue onFalse) a result := by
  obtain ⟨label, found⟩ := site.done.block?_build known
  rw [← chosen] at found
  refine .condBr tested found ?_
  rw [chosen]
  exact next.run empty other

end Site

end StructLang.Ir
