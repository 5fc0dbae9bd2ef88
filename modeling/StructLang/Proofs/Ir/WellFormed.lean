import StructLang.Ir.Validity
import StructLang.Proofs.Ir.Reads

namespace StructLang.Ir

def writes (is : List Instruction) : List Nat := (defs is).map (·.id)

@[simp] theorem writes_nil : writes [] = [] := rfl

@[simp] theorem writes_append (front back : List Instruction) :
    writes (front ++ back) = writes front ++ writes back := by
  simp [writes]

theorem writes_flatMap {α : Type} (as : List α) (code : α → List Instruction) :
    writes (as.flatMap code) = as.flatMap fun a => writes (code a) := by
  induction as with
  | nil => rfl
  | cons a rest ih => simp [ih]

theorem writes_cons (i : Instruction) (rest : List Instruction) :
    writes (i :: rest) = (i.dest?.map (·.id)).toList ++ writes rest := by
  cases dest : i.dest? <;> simp [writes, defs, dest]

theorem bind_ok_iff {α β ε : Type} {x : Except ε α} {g : α → Except ε β} {b : β} :
    (x >>= g) = .ok b ↔ ∃ a, x = .ok a ∧ g a = .ok b := by
  cases x with
  | error e => simp [bind, Except.bind]
  | ok a => simp [bind, Except.bind]

theorem andThen_ok_iff {β ε : Type} {x : Except ε Unit} {g : Unit → Except ε β} {b : β} :
    (x >>= g) = .ok b ↔ x = .ok () ∧ g () = .ok b := by
  rw [bind_ok_iff]
  constructor
  · rintro ⟨⟨⟩, ok⟩
    exact ok
  · exact fun ok => ⟨(), ok⟩

theorem forM_ok_iff {α ε : Type} (check : α → Except ε Unit) (as : List α) :
    as.forM check = .ok () ↔ ∀ a ∈ as, check a = .ok () := by
  induction as with
  | nil => simp [pure, Except.pure]
  | cons a rest ih =>
    change (check a >>= fun _ => rest.forM check) = .ok () ↔ _
    simp only [andThen_ok_iff, ih, List.forall_mem_cons]

def Visible (params : Nat) : (visible : List Nat) → List Instruction → Prop
  | _, [] => True
  | visible, i :: rest =>
    (∀ v ∈ i.operands, v.Known params fun r => r.id ∈ visible) ∧ Visible params (writes [i] ++ visible) rest

theorem Ordered.visible {params : Nat} {is : List Instruction} : ∀ {known : Reg → Prop} {visible : List Nat},
    (∀ r, known r → r.id ∈ visible) → Ordered params known is → Visible params visible is := by
  induction is with
  | nil => exact fun _ _ => trivial
  | cons i rest ih =>
    intro known visible numbers ordered
    refine ⟨fun v read => (ordered.1 v read).mono numbers, ih ?_ ordered.2⟩
    rintro r (before | new)
    · exact List.mem_append_right _ (numbers r before)
    · exact List.mem_append_left _ (by simp [writes_cons, new])

namespace Function

variable (f : Function)

def entryVisible (entry b : Block) : List Nat := if b.id = entry.id then [] else writes entry.instructions

structure ExitFormed (visible : List Nat) (t : Terminator) : Prop where
  reads : ∀ v ∈ t.operands, v.Known f.params.length fun r => r.id ∈ visible
  returns : ∀ {value}, t = .ret value → (value.isSome = true ↔ f.returns ≠ .void)
  typed : t.conditionTyped
  inside : ∀ target ∈ t.successors, target ∈ f.blocks.map (·.id)

structure BlockFormed (entry b : Block) : Prop where
  reads : Visible f.params.length (entryVisible entry b) b.instructions
  exit : ∃ t, b.terminator = some t ∧ f.ExitFormed (writes b.instructions ++ entryVisible entry b) t

structure WellFormed (entry : Block) : Prop where
  placed : (f.blocks.map (·.id)).Nodup
  once : (writes (f.blocks.flatMap (·.instructions))).Nodup
  blocks : ∀ b ∈ f.blocks, f.BlockFormed entry b

theorem checkOperand_ok_iff (label : String) (visible : List Nat) (v : Value) :
    f.checkOperand label visible v = .ok () ↔ v.Known f.params.length fun r => r.id ∈ visible := by
  cases v with
  | reg r =>
    simp only [checkOperand, Value.Known, List.contains_iff_mem]
    split <;> simp_all
  | arg index ty =>
    simp only [checkOperand, Value.Known]
    split <;> simp_all
  | _ => simp [checkOperand, Value.Known]

theorem checkOperands_ok_iff (label : String) (visible : List Nat) (vs : List Value) :
    vs.forM (f.checkOperand label visible) = .ok () ↔
      ∀ v ∈ vs, v.Known f.params.length fun r => r.id ∈ visible := by
  simp only [forM_ok_iff, checkOperand_ok_iff]

def Definitions.after (d : Definitions) (is : List Instruction) : Definitions :=
  ⟨(writes is).reverse ++ d.written, (writes is).reverse ++ d.visible⟩

theorem checkInstruction_ok_iff {label : String} {d d' : Definitions} {i : Instruction} (once : d.written.Nodup) :
    f.checkInstruction label d i = .ok d' ↔
      (∀ v ∈ i.operands, v.Known f.params.length fun r => r.id ∈ d.visible) ∧ d' = d.after [i] ∧ d'.written.Nodup := by
  simp only [checkInstruction, andThen_ok_iff, checkOperands_ok_iff]
  refine and_congr_right fun _ => ?_
  cases dest : i.dest? with
  | none =>
    simp only [Definitions.after, writes_cons, dest, Option.map_none, Option.toList_none, List.nil_append, writes_nil,
      List.reverse_nil]
    constructor
    · rintro ⟨⟩
      exact ⟨rfl, once⟩
    · rintro ⟨rfl, -⟩
      rfl
  | some r =>
    simp only [Definitions.after, writes_cons, dest, Option.map_some, Option.toList_some, List.append_nil, writes_nil,
      List.reverse_singleton, List.cons_append, List.nil_append, Definitions.write]
    split
    · rename_i twice
      rw [List.contains_iff_mem] at twice
      constructor
      · rintro ⟨⟩
      · rintro ⟨rfl, nodup⟩
        exact absurd twice (List.nodup_cons.mp nodup).1
    · rename_i fresh
      rw [List.contains_iff_mem] at fresh
      constructor
      · rintro ⟨⟩
        exact ⟨rfl, List.nodup_cons.mpr ⟨fresh, once⟩⟩
      · rintro ⟨rfl, -⟩
        rfl

theorem Definitions.after_cons (d : Definitions) (i : Instruction) (rest : List Instruction) :
    d.after (i :: rest) = (d.after [i]).after rest := by
  change d.after ([i] ++ rest) = _
  simp only [after, writes_append, List.reverse_append, List.append_assoc]

theorem checkInstructions_ok_iff {label : String} {is : List Instruction} : ∀ {d d' : Definitions}, d.written.Nodup →
    (is.foldlM (f.checkInstruction label) d = .ok d' ↔
      Visible f.params.length d.visible is ∧ d' = d.after is ∧ d'.written.Nodup) := by
  induction is with
  | nil =>
    intro d d' once
    constructor
    · rintro ⟨⟩
      exact ⟨trivial, rfl, once⟩
    · rintro ⟨-, rfl, -⟩
      rfl
  | cons i rest ih =>
    intro d d' once
    have step : (d.after [i]).visible = writes [i] ++ d.visible := by
      cases dest : i.dest? <;> simp [Definitions.after, writes_cons, dest]
    simp only [List.foldlM_cons, bind_ok_iff, Visible, ← step]
    constructor
    · rintro ⟨middle, first, others⟩
      obtain ⟨reads, rfl, once'⟩ := (f.checkInstruction_ok_iff once).mp first
      obtain ⟨reads', rfl, once''⟩ := (ih once').mp others
      exact ⟨⟨reads, reads'⟩, (d.after_cons i rest).symm, once''⟩
    · rintro ⟨⟨reads, reads'⟩, rfl, once'⟩
      rw [d.after_cons] at once' ⊢
      have once₁ : (d.after [i]).written.Nodup := (List.nodup_append.mp once').2.1
      exact ⟨d.after [i], (f.checkInstruction_ok_iff once).mpr ⟨reads, rfl, once₁⟩,
        (ih once₁).mpr ⟨reads', rfl, once'⟩⟩

theorem checkTerminator_ok_iff (label : String) (visible : List Nat) (t : Terminator) :
    f.checkTerminator label visible t = .ok () ↔
      (∀ v ∈ t.operands, v.Known f.params.length fun r => r.id ∈ visible) ∧
      (∀ {value}, t = .ret value → (value.isSome = true ↔ f.returns ≠ .void)) ∧ t.conditionTyped := by
  cases t with
  | ret value =>
    simp only [checkTerminator, andThen_ok_iff, checkOperands_ok_iff, Terminator.operands, Terminator.conditionTyped,
      and_true, Terminator.ret.injEq, forall_eq']
    refine and_congr_right fun _ => ?_
    by_cases void : f.returns = .void <;> cases value.isSome <;>
      simp [void, pure, Except.pure, throw, throwThe, MonadExceptOf.throw]
  | condBr cond onTrue onFalse =>
    simp only [checkTerminator, andThen_ok_iff, checkOperand_ok_iff, Terminator.operands, Terminator.conditionTyped,
      reduceCtorEq, false_implies, implies_true, true_and, List.mem_singleton, forall_eq]
    refine and_congr_right fun _ => ?_
    by_cases bit : cond.ty = .int 1 <;> simp [bit, pure, Except.pure, throw, throwThe, MonadExceptOf.throw]
  | br target => simp [checkTerminator, Terminator.operands, Terminator.conditionTyped]
  | unreachable => simp [checkTerminator, Terminator.operands, Terminator.conditionTyped]

theorem checkTargets_ok_iff (label : String) (t : Terminator) :
    f.checkTargets label t = .ok () ↔ ∀ target ∈ t.successors, target ∈ f.blocks.map (·.id) := by
  simp only [checkTargets, List.all_eq_true, List.contains_iff_mem]
  split
  · rename_i inside
    exact ⟨fun _ => inside, fun _ => rfl⟩
  · rename_i outside
    exact ⟨nofun, fun inside => absurd inside outside⟩

theorem entryVisible_eq (entry b : Block) :
    (if b.id = entry.id then [] else entry.instructions.filterMap (·.dest?.map (·.id))) = entryVisible entry b := by
  simp only [entryVisible, writes, defs, List.map_filterMap]

theorem checkBlock_ok_iff {entry b : Block} {before after : List Nat} (once : before.Nodup) :
    f.checkBlock entry before b = .ok after ↔
      f.BlockFormed entry b ∧ after = (writes b.instructions).reverse ++ before ∧ after.Nodup := by
  simp only [checkBlock, entryVisible_eq, bind_ok_iff]
  constructor
  · rintro ⟨d, instructions, exit⟩
    obtain ⟨reads, rfl, once'⟩ := (f.checkInstructions_ok_iff once).mp instructions
    cases found : b.terminator with
    | none => rw [found] at exit; cases exit
    | some t =>
      simp only [found, andThen_ok_iff, checkTerminator_ok_iff, checkTargets_ok_iff] at exit
      obtain ⟨⟨known, returns, typed⟩, inside, ⟨⟩⟩ := exit
      refine ⟨⟨reads, t, found, ⟨fun v read => (known v read).mono fun r => ?_, returns, typed, inside⟩⟩, rfl, once'⟩
      simp [Definitions.after]
  · rintro ⟨⟨reads, t, found, ⟨known, returns, typed, inside⟩⟩, rfl, once'⟩
    refine ⟨Definitions.after ⟨before, entryVisible entry b⟩ b.instructions,
      (f.checkInstructions_ok_iff once).mpr ⟨reads, rfl, once'⟩, ?_⟩
    simp only [found, andThen_ok_iff, checkTerminator_ok_iff, checkTargets_ok_iff]
    refine ⟨⟨fun v read => (known v read).mono fun r => ?_, returns, typed⟩, inside, rfl⟩
    simp [Definitions.after]

theorem checkBlocks_ok_iff {entry : Block} {bs : List Block} : ∀ {before after : List Nat}, before.Nodup →
    (bs.foldlM (f.checkBlock entry) before = .ok after ↔
      (∀ b ∈ bs, f.BlockFormed entry b) ∧
        after = (writes (bs.flatMap (·.instructions))).reverse ++ before ∧ after.Nodup) := by
  induction bs with
  | nil =>
    intro before after once
    constructor
    · rintro ⟨⟩
      exact ⟨by simp, rfl, once⟩
    · rintro ⟨-, rfl, -⟩
      rfl
  | cons b rest ih =>
    intro before after once
    simp only [List.foldlM_cons, bind_ok_iff, List.forall_mem_cons, List.flatMap_cons, writes_append,
      List.reverse_append, List.append_assoc]
    constructor
    · rintro ⟨middle, first, others⟩
      obtain ⟨formed, rfl, once'⟩ := (f.checkBlock_ok_iff once).mp first
      obtain ⟨formed', rfl, once''⟩ := (ih once').mp others
      exact ⟨⟨formed, formed'⟩, rfl, once''⟩
    · rintro ⟨⟨formed, formed'⟩, rfl, once'⟩
      have once₁ := (List.nodup_append.mp once').2.1
      exact ⟨_, (f.checkBlock_ok_iff once).mpr ⟨formed, rfl, once₁⟩, (ih once₁).mpr ⟨formed', rfl, once'⟩⟩

theorem checkPlacement_ok_iff {bs : List Block} : ∀ {seen : List Nat}, seen.Nodup →
    (checkPlacement seen bs = .ok () ↔ ((bs.map (·.id)).reverse ++ seen).Nodup) := by
  induction bs with
  | nil =>
    intro seen once
    simpa [checkPlacement] using once
  | cons b rest ih =>
    intro seen once
    simp only [checkPlacement, List.contains_iff_mem, List.map_cons, List.reverse_cons, List.append_assoc,
      List.singleton_append]
    split
    · rename_i twice
      refine ⟨nofun, fun nodup => ?_⟩
      exact absurd twice (List.nodup_cons.mp (List.nodup_append.mp nodup).2.1).1
    · rename_i fresh
      exact ih (List.nodup_cons.mpr ⟨fresh, once⟩)

/-- The checker of a single function accepts exactly the well-formed ones. -/
theorem checkBody_ok_iff {entry : Block} {rest : List Block} (blocks : f.blocks = entry :: rest)
    (definition : f.isDeclaration = false) : f.checkBody = .ok () ↔ f.WellFormed entry := by
  have body : f.checkBody = (checkPlacement [] f.blocks >>= fun _ =>
      f.blocks.foldlM (f.checkBlock entry) [] >>= fun _ => .ok ()) := by
    simp only [checkBody, definition, blocks]
    rfl
  rw [body, andThen_ok_iff, checkPlacement_ok_iff List.nodup_nil, bind_ok_iff, List.append_nil,
    (List.reverse_perm _).nodup_iff]
  constructor
  · rintro ⟨placed, after, checked, -⟩
    obtain ⟨formed, rfl, once⟩ := (f.checkBlocks_ok_iff List.nodup_nil).mp checked
    rw [List.append_nil, (List.reverse_perm _).nodup_iff] at once
    exact ⟨placed, once, formed⟩
  · rintro ⟨placed, once, formed⟩
    refine ⟨placed, _, (f.checkBlocks_ok_iff List.nodup_nil).mpr ⟨formed, rfl, ?_⟩, rfl⟩
    rwa [List.append_nil, (List.reverse_perm _).nodup_iff]

end Function

section Truth

def Value.IsTruth (v : Value) : Prop := ∃ r, v = .reg r ∧ r.ty = .int 1

def Instruction.KeepsTruth : Instruction → Prop
  | .binary dest op lhs rhs => dest.ty = .int 1 → (op = .mul ∨ op = .sdiv) ∧ lhs.IsTruth ∧ rhs.IsTruth
  | .icmp .. | .fcmp .. => True
  | i => ∀ r, i.dest? = some r → r.ty ≠ .int 1

def Terminator.TestsTruth : Terminator → Prop
  | .condBr cond _ _ => cond.IsTruth
  | _ => True

structure Block.KeepsTruth (b : Block) : Prop where
  instructions : ∀ i ∈ b.instructions, i.KeepsTruth
  exit : ∀ t, b.terminator = some t → t.TestsTruth

/-- Every register is written once, and read as what it was written. -/
structure Function.KeepsTruth (f : Function) : Prop where
  blocks : ∀ b ∈ f.blocks, b.KeepsTruth
  once : (writes f.body).Nodup
  reads : ∀ b ∈ f.blocks, ∀ i ∈ b.instructions, ∀ r, .reg r ∈ i.operands → r ∈ defs f.body
  exits : ∀ b ∈ f.blocks, ∀ t, b.terminator = some t → ∀ r, .reg r ∈ t.operands → r ∈ defs f.body

end Truth

end StructLang.Ir
