import StructLang.Machine.Selection
import StructLang.Proofs.Ir.Shape
import StructLang.Proofs.Meaning.Plain

namespace StructLang

open Ir

namespace Ir.Function

def slotIds (f : Function) : List Nat := writes (f.body.filter (·.isSlot))

structure FlatExit (f : Function) (entry b : Block) (t : Terminator) : Prop where
  plain : t.Plain
  reads : ∀ v ∈ t.operands, v.Known f.params.length fun r => r ∈ defs entry.instructions ∨ r ∈ defs b.instructions
  condition : t.conditionTyped
  inside : ∀ target ∈ t.successors, target ∈ f.blocks.map (·.id)
  returns : ∀ {value}, t = .ret value → (value.isSome = true ↔ f.returns ≠ .void)

structure Flat (scope : Scope) (f : Function) (entry : Block) (others : List Block) : Prop where
  blocks : f.blocks = entry :: others
  first : entry.id = 0
  placed : (f.blocks.map (·.id)).Nodup
  once : (writes f.body).Nodup
  code : ∀ {i}, i ∈ f.body → i.isSlot = false → i.Plain scope
  slots : ∀ {i}, i ∈ f.body → i.isSlot = true → ∃ id, i = .alloca ⟨id, .ptr⟩ (.int 64)
  calls : ∀ {dest callee args g}, .call dest callee args ∈ f.body → scope.functions.get? callee = some g →
    args.length = g.params.length
  entryReads : Ordered f.params.length (fun _ => False) entry.instructions
  reads : ∀ {b}, b ∈ others → Ordered f.params.length (· ∈ defs entry.instructions) b.instructions
  exits : ∀ {b}, b ∈ f.blocks → ∃ t, b.terminator = some t ∧ f.FlatExit entry b t
  params : ∀ p ∈ f.params, p.ty = .int 64
  results : f.returns = .int 64 ∨ f.returns = .void

end Ir.Function

namespace Machine

def wordOf : Ir.Ty → Scalar
  | .int 1 => .i8
  | _ => .i64

def wordSignature (params : Nat) (returns : Ir.Ty) : Signature :=
  ⟨List.replicate params .i64, if returns = .void then none else some .i64⟩

section Code

variable (env : Environment) (f : Ir.Function)

def number (id : Nat) : Nat := (writes f.body).idxOf id

def offset (id : Nat) : Nat := 8 * f.slotIds.idxOf id

def register (r : Reg) : Operand := ⟨.value (number f r.id), wordOf r.ty⟩

def operandOf : Ir.Value → Operand
  | .reg r => register f r
  | .int value width => Select.constant value (wordOf (.int width)) width
  | .arg index _ => ⟨.param index, .i64⟩
  | .float .. | .global _ => ⟨.const 0, .i64⟩

def instrOf : Instruction → Instr
  | .load dest _ addr => .load (number f dest.id) .i64 (operandOf f addr)
  | .store value addr => .store (operandOf f value) (operandOf f addr)
  | .binary dest op lhs rhs => .binary (number f dest.id) op (operandOf f lhs) (operandOf f rhs)
  | .neg dest operand => .neg (number f dest.id) (operandOf f operand)
  | .icmp dest pred lhs rhs => .icmp (number f dest.id) pred (operandOf f lhs) (operandOf f rhs)
  | .call dest callee args =>
    .call (dest.map fun dest => number f dest.id) (Select.calleeOf env callee)
      ((env.signatures.lookup callee).getD default) (args.map (operandOf f))
  | i => .slot (i.dest?.elim 0 fun dest => number f dest.id) (i.dest?.elim 0 fun dest => offset f dest.id)

def position (id : Nat) : Nat := f.blocks.findIdx (·.id == id)

def exitOf : Terminator → Exit
  | .ret value => .ret (value.map (operandOf f))
  | .br id => .br (position f id)
  | .condBr cond onTrue onFalse => .condBr (operandOf f cond) (position f onTrue) (position f onFalse)
  | .unreachable => .trap

def blockOf (b : Ir.Block) : Block := ⟨b.instructions.map (instrOf env f), b.terminator.elim .trap (exitOf f)⟩

def codeOf : Function :=
  ⟨wordSignature f.params.length f.returns, 8 * f.slotIds.length, (writes f.body).length,
    (f.blocks.map (blockOf env f)).toArray⟩

end Code

theorem number_of_split {f : Ir.Function} {before rest : List Instruction} {i : Instruction} {r : Reg}
    (once : (writes f.body).Nodup) (split : f.body = before ++ i :: rest) (dest : i.dest? = some r) :
    number f r.id = (writes before).length ∧ r.id ∉ writes before := by
  have all : writes f.body = writes before ++ r.id :: writes rest := by
    rw [split, writes_append, writes_cons, dest]
    rfl
  have fresh : r.id ∉ writes before := by
    intro member
    rw [all, List.nodup_append] at once
    exact once.2.2 _ member _ (List.mem_cons_self ..) rfl
  rw [number, all, List.idxOf_append, if_neg fresh, List.idxOf_cons_self, Nat.zero_add]
  exact ⟨rfl, fresh⟩

theorem offset_of_split {f : Ir.Function} {before rest : List Instruction} {id : Nat}
    (once : (writes f.body).Nodup) (split : f.body = before ++ .alloca ⟨id, .ptr⟩ (.int 64) :: rest) :
    offset f id = 8 * (writes (before.filter (·.isSlot))).length := by
  have fresh := (number_of_split once split rfl).2
  have fresh' : id ∉ writes (before.filter (·.isSlot)) := by
    intro member
    obtain ⟨r, written, rfl⟩ := List.mem_map.mp member
    exact fresh (List.mem_map.mpr ⟨r, (List.filter_sublist.filterMap _).subset written, rfl⟩)
  have all : f.slotIds = writes (before.filter (·.isSlot)) ++ id :: writes (rest.filter (·.isSlot)) := by
    rw [Ir.Function.slotIds, split, List.filter_append, List.filter_cons_of_pos rfl, writes_append, writes_cons]
    rfl
  rw [offset, all, List.idxOf_append, if_neg fresh', List.idxOf_cons_self, Nat.zero_add]

structure Covers (f : Ir.Function) (before : List Instruction) (sel : Selection) : Prop where
  values : ∀ {r}, r ∈ defs before → sel.values.lookup r.id = some (register f r)
  next : sel.nextValue = (writes before).length
  frame : sel.frameSize = 8 * (writes (before.filter (·.isSlot))).length

theorem Covers.unwritten {f : Ir.Function} {before : List Instruction} {sel : Selection} (covers : Covers f before sel)
    {i : Instruction} (dest : i.dest? = none) : Covers f (before ++ [i]) sel := by
  have same : defs (before ++ [i]) = defs before := by simp [defs, dest]
  have ordinary : i.isSlot = false := by
    cases i with
    | alloca => cases dest
    | _ => rfl
  refine ⟨fun written => covers.values (same ▸ written), ?_, ?_⟩
  · rw [covers.next, writes, writes, same]
  · rw [List.filter_append, List.filter_cons_of_neg (by simp [ordinary]), List.filter_nil, List.append_nil]
    exact covers.frame

def Environment.Knows (env : Environment) (scope : Scope) : Prop :=
  ∀ {name f}, scope.functions.get? name = some f →
    env.signatures.lookup name = some (wordSignature f.params.length (.ofSource f.returns))

namespace Select

variable {α β : Type} {env : Environment} {scope : Scope} {f : Ir.Function} {entry : Ir.Block} {others : List Ir.Block}
  {before rest : List Instruction} {sel sel' : Selection}

theorem bind_ok {x : Select α} {g : α → Select β} {a : α} (done : x sel = .ok (a, sel')) : (x >>= g) sel = g a sel' := by
  change (x sel >>= fun (a, sel) => g a sel) = _
  rw [done]
  rfl

theorem lift_ok {x : Selected α} {a : α} (done : x = .ok a) : (liftM x : Select α) sel = .ok (a, sel) := by
  subst done
  rfl

abbrev Readable (f : Ir.Function) (before : List Instruction) (v : Ir.Value) : Prop :=
  v.Known f.params.length (· ∈ defs before)

def IsWord (v : Ir.Value) : Prop := v.ty = .int 64 ∨ v.ty = .int 1 ∨ v.IsAddress

theorem operand_eq (env : Environment) (covers : Covers f before sel) {v : Ir.Value} (readable : Readable f before v)
    (word : IsWord v) (returns : Ir.Ty) :
    operand env (wordSignature f.params.length returns) v sel = .ok (operandOf f v, sel) := by
  cases v with
  | reg r =>
    have found := covers.values readable
    simp only [operand, bind, StateT.bind, get, getThe, MonadStateOf.get, StateT.get, pure, Except.pure, Except.bind, found]
    rfl
  | int value width =>
    rcases word with ty | ty | ⟨id, same⟩
    · cases ty
      rfl
    · cases ty
      rfl
    · cases same
  | arg index ty =>
    have bound : index < f.params.length := readable
    simp only [operand, wordSignature, List.getElem?_replicate, bound, if_true]
    rfl
  | _ =>
    rcases word with ty | ty | ⟨id, same⟩
    · cases ty
    · cases ty
    · cases same

theorem operands_eq (env : Environment) (covers : Covers f before sel) (returns : Ir.Ty) {values : List Ir.Value}
    (readable : ∀ v ∈ values, Readable f before v) (words : ∀ v ∈ values, IsWord v) :
    values.mapM (operand env (wordSignature f.params.length returns)) sel = .ok (values.map (operandOf f), sel) := by
  induction values with
  | nil => rfl
  | cons v values ih =>
    have first := operand_eq env covers (readable v (List.mem_cons_self ..)) (words v (List.mem_cons_self ..)) returns
    have later := ih (fun v member => readable v (List.mem_cons_of_mem _ member))
      fun v member => words v (List.mem_cons_of_mem _ member)
    rw [List.mapM_cons, bind_ok first, bind_ok later]
    rfl

/-- An instruction that writes a register gives it the next value. -/
theorem define_eq (covers : Covers f before sel) (once : (writes f.body).Nodup) {i : Instruction}
    (split : f.body = before ++ i :: rest) {r : Reg} (dest : i.dest? = some r) {frame : Nat}
    (framed : frame = 8 * (writes ((before ++ [i]).filter (·.isSlot))).length) :
    ∃ sel', define r (wordOf r.ty) { sel with frameSize := frame } = .ok (number f r.id, sel') ∧
      Covers f (before ++ [i]) sel' := by
  obtain ⟨next, fresh⟩ := number_of_split once split dest
  refine ⟨⟨(r.id, register f r) :: sel.values, sel.nextValue + 1, frame⟩, ?_, ?_, ?_, framed⟩
  · simp only [register, next, ← covers.next]
    rfl
  · intro r' written
    rw [defs_append, List.mem_append, mem_defs_singleton, dest] at written
    rcases written with earlier | same
    · have other : r'.id ≠ r.id := fun same => fresh (same ▸ List.mem_map_of_mem earlier)
      rw [List.lookup_cons, beq_eq_false_iff_ne.mpr other]
      exact covers.values earlier
    · cases same
      rw [List.lookup_cons, beq_self_eq_true]
  · change sel.nextValue + 1 = _
    rw [writes_append, List.length_append, covers.next, writes_cons, dest]
    rfl

/-- One that makes no slot leaves the frame as it is. -/
theorem define_ordinary (covers : Covers f before sel) (once : (writes f.body).Nodup) {i : Instruction}
    (split : f.body = before ++ i :: rest) {r : Reg} (dest : i.dest? = some r) (ordinary : i.isSlot = false) :
    ∃ sel', define r (wordOf r.ty) sel = .ok (number f r.id, sel') ∧ Covers f (before ++ [i]) sel' := by
  have same : (before ++ [i]).filter (·.isSlot) = before.filter (·.isSlot) := by
    rw [List.filter_append, List.filter_cons_of_neg (by simp [ordinary]), List.filter_nil, List.append_nil]
  exact define_eq covers once split dest (same ▸ covers.frame)

theorem extent_number (m : Module) : m.extent [] (.int 64) = .ok ⟨8, 8⟩ := by
  have scalar : Extent.scalar 64 = ⟨8, 8⟩ := by cbv
  rw [Module.extent, scalar]

theorem newSlot_eq (covers : Covers f before sel) :
    newSlot env (.int 64) sel = .ok (sel.frameSize, { sel with frameSize := sel.frameSize + 8 }) := by
  have place : (sel.frameSize + 8 - 1) / 8 * 8 = sel.frameSize := by
    rw [covers.frame]
    omega
  have extent : ofLayout (env.module.extent [] (.int 64)) = .ok ⟨8, 8⟩ := by
    rw [extent_number]
    rfl
  rw [newSlot, bind_ok (lift_ok extent)]
  change Except.ok ((sel.frameSize + 8 - 1) / 8 * 8, { sel with frameSize := (sel.frameSize + 8 - 1) / 8 * 8 + 8 }) = _
  rw [place]

theorem scalar_number {v : Ir.Value} (ty : v.ty = .int 64) : (operandOf f v).scalar = .i64 := by
  cases v with
  | reg r =>
    cases r
    cases ty
    rfl
  | int => cases ty; rfl
  | arg => rfl
  | _ => cases ty

theorem scalar_address {v : Ir.Value} (address : v.IsAddress) : (operandOf f v).scalar = .i64 := by
  obtain ⟨id, rfl⟩ := address
  rfl

/-- Selection of an instruction comes to its code. -/
theorem instruction_eq (flat : f.Flat scope entry others) (knows : env.Knows scope) (covers : Covers f before sel)
    {i : Instruction} (split : f.body = before ++ i :: rest) (readable : ∀ v ∈ i.operands, Readable f before v)
    (returns : Ir.Ty) :
    ∃ sel', instruction env (wordSignature f.params.length returns) i sel = .ok (instrOf env f i, sel') ∧
      Covers f (before ++ [i]) sel' := by
  have member : i ∈ f.body := split ▸ List.mem_append_right _ (List.mem_cons_self ..)
  have operand {v : Ir.Value} (read : v ∈ i.operands) (word : IsWord v) :=
    operand_eq env covers (readable v read) word returns
  cases slot : i.isSlot with
  | true =>
    obtain ⟨id, rfl⟩ := flat.slots member slot
    have framed : sel.frameSize + 8 =
        8 * (writes ((before ++ [Instruction.alloca ⟨id, .ptr⟩ (.int 64)]).filter (·.isSlot))).length := by
      rw [covers.frame, List.filter_append, writes_append, List.length_append]
      rfl
    obtain ⟨sel', defined, covers'⟩ := define_eq covers flat.once split rfl framed
    refine ⟨sel', ?_, covers'⟩
    rw [instruction, bind_ok (newSlot_eq covers)]
    refine (bind_ok defined).trans ?_
    rw [covers.frame, ← offset_of_split flat.once split]
    rfl
  | false =>
    have defined {r : Reg} (dest : i.dest? = some r) := define_ordinary covers flat.once split dest slot
    have plain := flat.code member slot
    cases i with
    | load dest ty addr =>
      obtain ⟨destTy, rfl, address⟩ := plain
      obtain ⟨sel', defined, covers'⟩ := defined rfl
      rw [destTy] at defined
      refine ⟨sel', ?_, covers'⟩
      rw [instruction, bind_ok (operand (by simp [Instruction.operands]) (.inr (.inr address)))]
      exact (bind_ok (lift_ok rfl)).trans (bind_ok defined)
    | store value addr =>
      obtain ⟨ty, address⟩ := plain
      refine ⟨sel, ?_, covers.unwritten rfl⟩
      rw [instruction, bind_ok (operand (by simp [Instruction.operands]) (.inr (.inr address))),
        bind_ok (operand (by simp [Instruction.operands]) (.inl ty)), ty]
      rfl
    | binary dest op lhs rhs =>
      obtain ⟨destTy, left, right, -⟩ := plain
      obtain ⟨sel', defined, covers'⟩ := defined rfl
      rw [destTy] at defined
      refine ⟨sel', ?_, covers'⟩
      rw [instruction, bind_ok (operand (by simp [Instruction.operands]) (.inl left)),
        bind_ok (operand (by simp [Instruction.operands]) (.inl right)), scalar_number left]
      exact bind_ok defined
    | neg dest value =>
      obtain ⟨destTy, ty⟩ := plain
      obtain ⟨sel', defined, covers'⟩ := defined rfl
      rw [destTy] at defined
      refine ⟨sel', ?_, covers'⟩
      rw [instruction, bind_ok (operand (by simp [Instruction.operands]) (.inl ty)), scalar_number ty]
      exact bind_ok defined
    | icmp dest pred lhs rhs =>
      obtain ⟨destTy, left, right⟩ := plain
      obtain ⟨sel', defined, covers'⟩ := defined rfl
      rw [destTy] at defined
      refine ⟨sel', ?_, covers'⟩
      rw [instruction, bind_ok (operand (by simp [Instruction.operands]) (.inl left)),
        bind_ok (operand (by simp [Instruction.operands]) (.inl right))]
      exact bind_ok defined
    | call dest callee args =>
      obtain ⟨tys, g, known, result⟩ := plain
      have args_eq := operands_eq env covers returns readable fun v member => .inl (tys v member)
      cases dest with
      | none =>
        refine ⟨sel, ?_, covers.unwritten rfl⟩
        rw [instruction, instrOf, knows known]
        exact bind_ok args_eq
      | some dest =>
        obtain ⟨number, destTy⟩ := result
        obtain ⟨sel', defined, covers'⟩ := defined rfl
        rw [destTy] at defined
        refine ⟨sel', ?_, covers'⟩
        rw [instruction, instrOf, knows known, number]
        exact (bind_ok args_eq).trans (bind_ok defined)
    | _ => exact plain.elim

theorem instructions_eq (flat : f.Flat scope entry others) (knows : env.Knows scope) (returns : Ir.Ty)
    {is : List Instruction} : ∀ {before : List Instruction} {sel : Selection}, Covers f before sel →
    f.body = before ++ (is ++ rest) → Ordered f.params.length (· ∈ defs before) is →
    ∃ sel', is.mapM (instruction env (wordSignature f.params.length returns)) sel = .ok (is.map (instrOf env f), sel') ∧
      Covers f (before ++ is) sel' := by
  induction is with
  | nil => exact fun covers _ _ => ⟨_, rfl, by simpa using covers⟩
  | cons i is ih =>
    intro before sel covers split ordered
    obtain ⟨sel₁, first, covers₁⟩ := instruction_eq flat knows covers split ordered.1 returns
    have later : Ordered f.params.length (· ∈ defs (before ++ [i])) is := by
      refine ordered.2.mono fun r known => ?_
      rw [defs_append, List.mem_append, mem_defs_singleton]
      exact known
    obtain ⟨sel₂, second, covers₂⟩ := ih covers₁ (by simpa using split) later
    refine ⟨sel₂, ?_, by simpa using covers₂⟩
    rw [List.mapM_cons, bind_ok first, bind_ok second]
    rfl

theorem findIdx_of_split {front back : List α} {p : α → Bool} {a : α} (earlier : ∀ x ∈ front, p x = false)
    (here : p a = true) : (front ++ a :: back).findIdx p = front.length := by
  rw [List.findIdx_append, List.findIdx_eq_length.mpr earlier, if_neg (Nat.lt_irrefl _), List.findIdx_cons, here]
  simp

/-- Where all blocks have different numbers, the last block of a number is the first. -/
theorem target_eq (placed : (f.blocks.map (·.id)).Nodup) {id : Nat} (known : id ∈ f.blocks.map (·.id)) (sel : Selection) :
    target f id sel = .ok (position f id, sel) := by
  obtain ⟨b, member, rfl⟩ := List.mem_map.mp known
  obtain ⟨front, back, split⟩ := List.append_of_mem member
  rw [split, List.map_append, List.map_cons, List.nodup_append, List.nodup_cons] at placed
  have front_ne : ∀ b' ∈ front, (b'.id == b.id) = false := fun b' early =>
    beq_eq_false_iff_ne.mpr (placed.2.2 _ (List.mem_map_of_mem early) _ (List.mem_cons_self ..))
  have back_ne : ∀ b' ∈ back, (b'.id == b.id) = false := fun b' late =>
    beq_eq_false_iff_ne.mpr fun same => placed.2.1.1 (List.mem_map.mpr ⟨b', late, same⟩)
  have first : position f b.id = front.length := by
    rw [position, split]
    exact findIdx_of_split front_ne (beq_self_eq_true _)
  have last : f.blocks.reverse.findIdx? (·.id == b.id) = some back.length := by
    rw [split, List.reverse_append, List.reverse_cons, List.append_assoc, List.findIdx?_append,
      List.findIdx?_eq_none_iff.mpr fun b' member => back_ne b' (List.mem_reverse.mp member)]
    simp [List.findIdx?_cons]
  have length : f.blocks.length - 1 - back.length = front.length := by
    rw [split, List.length_append, List.length_cons]
    omega
  simp only [target, last]
  rw [length, first]
  rfl

theorem terminator_eq (placed : (f.blocks.map (·.id)).Nodup) (covers : Covers f before sel) {b : Ir.Block} {t : Terminator}
    (exit : f.FlatExit entry b t) (readable : ∀ v ∈ t.operands, Readable f before v) (returns : Ir.Ty) :
    terminator env (wordSignature f.params.length returns) f t sel = .ok (exitOf f t, sel) := by
  have operand {v : Ir.Value} (read : v ∈ t.operands) (word : IsWord v) :=
    operand_eq env covers (readable v read) word returns
  have target {id : Nat} (branch : id ∈ t.successors) := target_eq placed (exit.inside id branch) sel
  cases t with
  | ret value =>
    cases value with
    | none => rfl
    | some v => exact bind_ok (operand (by simp [Terminator.operands]) (.inl (exit.plain.1 v rfl)))
  | br id => exact bind_ok (target (by simp [Terminator.successors]))
  | condBr cond onTrue onFalse =>
    rw [terminator, bind_ok (target (by simp [Terminator.successors])), bind_ok (target (by simp [Terminator.successors]))]
    exact bind_ok (operand (by simp [Terminator.operands]) (.inr (.inl exit.condition)))
  | unreachable => rfl

/-- The code of a block is selected where the entry, or the block itself, comes last. -/
theorem block_eq (flat : f.Flat scope entry others) (knows : env.Knows scope) (returns : Ir.Ty) {b : Ir.Block}
    (member : b ∈ f.blocks) (covers : Covers f before sel) (split : f.body = before ++ (b.instructions ++ rest))
    (ordered : Ordered f.params.length (· ∈ defs before) b.instructions)
    (entered : ∀ r ∈ defs entry.instructions, r ∈ defs (before ++ b.instructions)) :
    ∃ sel', block env (wordSignature f.params.length returns) f b sel = .ok (blockOf env f b, sel') ∧
      Covers f (before ++ b.instructions) sel' := by
  obtain ⟨sel', written, covers'⟩ := instructions_eq flat knows returns covers split ordered
  obtain ⟨t, found, exit⟩ := flat.exits member
  have readable : ∀ v ∈ t.operands, Readable f (before ++ b.instructions) v := by
    intro v read
    refine (exit.reads v read).mono fun r known => ?_
    rcases known with early | here
    · exact entered r early
    · rw [defs_append]
      exact List.mem_append_right _ here
  refine ⟨sel', ?_, covers'⟩
  rw [block, bind_ok written, found]
  refine (bind_ok (terminator_eq flat.placed covers' exit readable returns)).trans ?_
  rw [blockOf, found]
  rfl

/-- The blocks after the entry. -/
theorem blocks_eq (flat : f.Flat scope entry others) (knows : env.Knows scope) (returns : Ir.Ty) {bs : List Ir.Block} :
    bs ⊆ others → ∀ {before : List Instruction} {sel : Selection}, Covers f before sel →
    f.body = before ++ bs.flatMap (·.instructions) → (∀ r ∈ defs entry.instructions, r ∈ defs before) →
    ∃ sel', bs.mapM (block env (wordSignature f.params.length returns) f) sel = .ok (bs.map (blockOf env f), sel') ∧
      Covers f f.body sel' := by
  induction bs with
  | nil =>
    intro _ before sel covers split _
    rw [List.flatMap_nil, List.append_nil] at split
    exact ⟨sel, rfl, split ▸ covers⟩
  | cons b bs ih =>
    intro subset before sel covers split entered
    have later : b ∈ others := subset (List.mem_cons_self ..)
    have member : b ∈ f.blocks := flat.blocks ▸ List.mem_cons_of_mem _ later
    have ordered := (flat.reads later).mono entered
    have entered₁ : ∀ r ∈ defs entry.instructions, r ∈ defs (before ++ b.instructions) := by
      intro r early
      rw [defs_append]
      exact List.mem_append_left _ (entered r early)
    obtain ⟨sel₁, first, covers₁⟩ := block_eq flat knows returns member covers split ordered entered₁
    obtain ⟨sel₂, second, covers₂⟩ := ih (fun b member => subset (List.mem_cons_of_mem _ member)) covers₁
      (by simpa using split) entered₁
    refine ⟨sel₂, ?_, covers₂⟩
    rw [List.mapM_cons, bind_ok first, bind_ok second]
    rfl

/-- All blocks of a function, from the start. -/
theorem body_eq (flat : f.Flat scope entry others) (knows : env.Knows scope) (returns : Ir.Ty) :
    ∃ sel, f.blocks.mapM (block env (wordSignature f.params.length returns) f) ⟨[], 0, 0⟩ =
      .ok (f.blocks.map (blockOf env f), sel) ∧ Covers f f.body sel := by
  have start : Covers f [] ⟨[], 0, 0⟩ := ⟨nofun, rfl, rfl⟩
  have split : f.body = [] ++ (entry.instructions ++ others.flatMap (·.instructions)) := by
    rw [Ir.Function.body, flat.blocks]
    rfl
  obtain ⟨sel₁, first, covers₁⟩ := block_eq flat knows returns (flat.blocks ▸ List.mem_cons_self ..) start split
    (flat.entryReads.mono fun _ => False.elim) fun _ early => early
  obtain ⟨sel₂, second, covers₂⟩ := blocks_eq flat knows returns (List.Subset.refl others) covers₁ (by simpa using split)
    fun _ early => early
  refine ⟨sel₂, ?_, covers₂⟩
  rw [flat.blocks, List.mapM_cons, bind_ok first, bind_ok second]
  rfl

end Select

theorem scalarOf_params {ps : List Ir.Param} (tys : ∀ p ∈ ps, p.ty = .int 64) :
    ps.mapM (fun p => scalarOf p.ty) = .ok (List.replicate ps.length .i64) := by
  induction ps with
  | nil => rfl
  | cons p ps ih =>
    rw [List.mapM_cons, tys p (List.mem_cons_self ..), ih fun p member => tys p (List.mem_cons_of_mem _ member)]
    rfl

theorem signatureOf_eq {f : Ir.Function} (params : ∀ p ∈ f.params, p.ty = .int 64)
    (returns : f.returns = .int 64 ∨ f.returns = .void) :
    signatureOf f = .ok (wordSignature f.params.length f.returns) := by
  rw [signatureOf, scalarOf_params params]
  rcases returns with number | nothing
  · simp only [wordSignature, number]
    rfl
  · simp only [wordSignature, nothing]
    rfl

end Machine

end StructLang
