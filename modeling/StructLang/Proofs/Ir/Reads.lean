import StructLang.Ir.Basic

namespace StructLang.Ir

def Function.body (f : Function) : List Instruction := f.blocks.flatMap (·.instructions)

def defs (is : List Instruction) : List Reg := is.filterMap (·.dest?)

@[simp] theorem defs_nil : defs [] = [] := rfl

@[simp] theorem defs_append (front back : List Instruction) : defs (front ++ back) = defs front ++ defs back :=
  List.filterMap_append

theorem mem_defs_singleton {i : Instruction} {r : Reg} : r ∈ defs [i] ↔ i.dest? = some r := by
  simp [defs]

theorem defs_subset {front whole : List Instruction} (grown : front <+: whole) {r : Reg} (written : r ∈ defs front) :
    r ∈ defs whole := by
  obtain ⟨back, rfl⟩ := grown
  rw [defs_append]
  exact List.mem_append_left _ written

inductive Instruction.Reads : Instruction → Value → Prop
  | load {dest ty addr} : Reads (.load dest ty addr) addr
  | stored {value addr} : Reads (.store value addr) value
  | place {value addr} : Reads (.store value addr) addr
  | field {dest struct base index} : Reads (.fieldAddr dest struct base index) base
  | element {dest ty base index} : Reads (.elementAddr dest ty base index) base
  | index {dest ty base index} : Reads (.elementAddr dest ty base index) index
  | left {dest op lhs rhs} : Reads (.binary dest op lhs rhs) lhs
  | right {dest op lhs rhs} : Reads (.binary dest op lhs rhs) rhs
  | neg {dest operand} : Reads (.neg dest operand) operand
  | fneg {dest operand} : Reads (.fneg dest operand) operand
  | icmpLeft {dest pred lhs rhs} : Reads (.icmp dest pred lhs rhs) lhs
  | icmpRight {dest pred lhs rhs} : Reads (.icmp dest pred lhs rhs) rhs
  | fcmpLeft {dest pred lhs rhs} : Reads (.fcmp dest pred lhs rhs) lhs
  | fcmpRight {dest pred lhs rhs} : Reads (.fcmp dest pred lhs rhs) rhs
  | arg {dest callee args v} (passed : v ∈ args) : Reads (.call dest callee args) v

theorem Instruction.mem_operands_iff {i : Instruction} {v : Value} : v ∈ i.operands ↔ i.Reads v := by
  constructor
  · intro listed
    cases i with
    | alloca => cases listed
    | call dest callee args => exact .arg listed
    | _ =>
      simp only [operands, List.mem_cons, List.not_mem_nil, or_false] at listed
      grind [Reads]
  · intro reads
    cases reads with
    | arg passed => exact passed
    | _ => simp [operands]

def Value.Known (params : Nat) (known : Reg → Prop) : Value → Prop
  | .reg r => known r
  | .arg index _ => index < params
  | _ => True

theorem Value.Known.mono {params : Nat} {known known' : Reg → Prop} (more : ∀ r, known r → known' r) {v : Value}
    (h : v.Known params known) : v.Known params known' := by
  cases v with
  | reg r => exact more r h
  | _ => exact h

def Ordered (params : Nat) : (known : Reg → Prop) → List Instruction → Prop
  | _, [] => True
  | known, i :: rest =>
    (∀ v ∈ i.operands, v.Known params known) ∧ Ordered params (fun r => known r ∨ i.dest? = some r) rest

theorem Ordered.mono {params : Nat} {is : List Instruction} : ∀ {known known' : Reg → Prop},
    (∀ r, known r → known' r) → Ordered params known is → Ordered params known' is := by
  induction is with
  | nil => exact fun _ _ => trivial
  | cons i rest ih =>
    intro known known' more ordered
    exact ⟨fun v read => (ordered.1 v read).mono more, ih (fun r => Or.imp_left (more r)) ordered.2⟩

theorem Ordered.reads {params : Nat} {is : List Instruction} : ∀ {known : Reg → Prop}, Ordered params known is →
    ∀ i ∈ is, ∀ v ∈ i.operands, v.Known params fun r => known r ∨ r ∈ defs is := by
  induction is with
  | nil =>
    intro _ _ i member
    cases member
  | cons j rest ih =>
    intro known ordered i member v read
    have more (r : Reg) : (known r ∨ j.dest? = some r) ∨ r ∈ defs rest → known r ∨ r ∈ defs (j :: rest) := by
      change _ → known r ∨ r ∈ defs ([j] ++ rest)
      rw [defs_append, List.mem_append, mem_defs_singleton, or_assoc]
      exact id
    rcases List.mem_cons.mp member with rfl | later
    · exact (ordered.1 v read).mono fun r known => more r (.inl (.inl known))
    · exact (ih ordered.2 i later v read).mono more

theorem ordered_append {params : Nat} {front back : List Instruction} : ∀ {known : Reg → Prop},
    Ordered params known (front ++ back) ↔
      Ordered params known front ∧ Ordered params (fun r => known r ∨ r ∈ defs front) back := by
  induction front with
  | nil => simp [Ordered]
  | cons i rest ih =>
    intro known
    have written : (fun r => (known r ∨ i.dest? = some r) ∨ r ∈ defs rest) =
        fun r => known r ∨ r ∈ defs (i :: rest) := by
      funext r
      change _ = (known r ∨ r ∈ defs ([i] ++ rest))
      rw [defs_append, List.mem_append, mem_defs_singleton, or_assoc]
    simp only [List.cons_append, Ordered, ih, written, and_assoc]

def Terminator.operands : Terminator → List Value
  | .ret value => value.toList
  | .condBr cond _ _ => [cond]
  | .br _ | .unreachable => []

def Terminator.conditionTyped : Terminator → Prop
  | .condBr cond _ _ => cond.ty = .int 1
  | _ => True

end StructLang.Ir
