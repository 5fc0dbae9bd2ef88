import StructLang.Proofs.Machine.Memory
import StructLang.Proofs.Machine.Programs
import StructLang.Proofs.Meaning.Execution

namespace StructLang

open Ir

namespace Machine

section Words

theorem truncate_i64 (w : Word) : Scalar.i64.truncate w = w := UInt64.and_neg_one

theorem toUInt64_eq_iff {x y : Int64} : x.toUInt64 = y.toUInt64 ↔ x = y :=
  ⟨fun same => congrArg UInt64.toInt64 same, fun same => congrArg _ same⟩

/-- Computations on words are those on the numbers they hold. -/
theorem evalBinary_eq {op : BinOp} {x y n : Int64} (found : op.eval x y = some n) :
    evalBinary op .i64 x.toUInt64 y.toUInt64 = .ok n.toUInt64 := by
  cases op with
  | sdiv =>
    obtain ⟨defined, same⟩ := Option.ite_none_left_eq_some.mp found
    cases same
    rw [not_or] at defined
    have nonzero : ¬Scalar.i64.truncate y.toUInt64 = 0 := by
      rw [truncate_i64]
      exact fun zero => defined.1 (toUInt64_eq_iff.mp zero)
    have fits : ¬(Scalar.i64.signed x.toUInt64 = Scalar.i64.least ∧ Scalar.i64.signed y.toUInt64 = -1) := defined.2
    rw [evalBinary, Scalar.divide, if_neg nonzero, if_neg fits, truncate_i64]
    rfl
  | add | sub | mul =>
    cases found
    rw [evalBinary, truncate_i64]
    rfl
  | _ => cases found

theorem evalNeg_eq (x : Int64) : evalNeg .i64 x.toUInt64 = (-x).toUInt64 := by
  rw [evalNeg, truncate_i64, UInt64.zero_sub]
  rfl

theorem evalIcmp_eq (pred : IntPred) (x y : Int64) :
    ofBool (evalIcmp pred .i64 x.toUInt64 y.toUInt64) = (if pred.eval x y then 1 else 0 : Int64).toUInt64 := by
  have equal : (x.toUInt64 == y.toUInt64) = decide (x = y) := by
    rw [Bool.eq_iff_iff, beq_iff_eq, decide_eq_true_iff, toUInt64_eq_iff]
  have same : evalIcmp pred .i64 x.toUInt64 y.toUInt64 = pred.eval x y := by
    cases pred with
    | eq => exact equal
    | ne => simp [evalIcmp, IntPred.eval, bne, equal]
    | _ => rfl
  rw [same, ofBool]
  cases pred.eval x y <;> rfl

end Words

section Runs

variable {foreign : Foreign} {p : Program}

def Halts (foreign : Foreign) (p : Program) (s : State) (result : Option Word) : Prop :=
  ∃ fuel, run foreign p fuel s = .finished result

def Step.Halts (foreign : Foreign) (p : Program) (result : Option Word) : Step → Prop
  | .next s => Machine.Halts foreign p s result
  | .done r => r = result
  | .trap _ => False

theorem Halts.of_step {s : State} {result : Option Word} (next : (step foreign p s).Halts foreign p result) :
    Halts foreign p s result := by
  cases stepped : step foreign p s with
  | next s' =>
    rw [stepped] at next
    obtain ⟨fuel, ends⟩ := next
    exact ⟨fuel + 1, by rw [run, stepped]; exact ends⟩
  | done r =>
    rw [stepped] at next
    exact ⟨1, by rw [run, stepped]; exact congrArg Outcome.finished next⟩
  | trap reason =>
    rw [stepped] at next
    exact next.elim

/-- More steps do not change a result. -/
theorem run_of_le {s : State} {result : Option Word} {fuel more : Nat} (ends : run foreign p fuel s = .finished result)
    (enough : fuel ≤ more) : run foreign p more s = .finished result := by
  induction fuel generalizing s more with
  | zero => cases ends
  | succ fuel ih =>
    obtain ⟨more, rfl⟩ : ∃ k, more = k + 1 := ⟨more - 1, by omega⟩
    rw [run] at ends ⊢
    cases stepped : step foreign p s with
    | next s' =>
      rw [stepped] at ends
      exact ih ends (by omega)
    | _ =>
      rw [stepped] at ends
      exact ends

end Runs

section Layout

variable {f : Ir.Function}

theorem idxOf_inj {ids : List Nat} {id id' : Nat} (member : id ∈ ids) (same : ids.idxOf id' = ids.idxOf id) : id' = id := by
  have bound := List.idxOf_lt_length_iff.mpr member
  have found := List.getElem_idxOf bound
  have found' := List.getElem_idxOf (same ▸ bound : ids.idxOf id' < ids.length)
  simp only [same] at found'
  exact found'.symm.trans found

theorem slotIds_subset (f : Ir.Function) : f.slotIds.Sublist (writes f.body) :=
  (List.filter_sublist.filterMap _).map _

theorem ordinary_not_slot (once : (writes f.body).Nodup) {i : Instruction} (member : i ∈ f.body) (ordinary : i.isSlot = false)
    {r : Reg} (dest : i.dest? = some r) : r.id ∉ f.slotIds := by
  obtain ⟨front, back, split⟩ := List.append_of_mem member
  have all : writes f.body = writes front ++ r.id :: writes back := by
    rw [split, writes_append, writes_cons, dest]
    rfl
  have slots : f.slotIds = writes (front.filter (·.isSlot)) ++ writes (back.filter (·.isSlot)) := by
    rw [Ir.Function.slotIds, split, List.filter_append, List.filter_cons_of_neg (by simp [ordinary]), writes_append]
  have inside (is : List Instruction) : writes (is.filter (·.isSlot)) ⊆ writes is :=
    ((List.filter_sublist.filterMap _).map _).subset
  rw [all, List.nodup_append, List.nodup_cons] at once
  rw [slots, List.mem_append]
  rintro (early | late)
  · exact once.2.2 _ (inside front early) _ (List.mem_cons_self ..) rfl
  · exact once.2.1.1 (inside back late)

theorem offset_bound {id : Nat} (slot : id ∈ f.slotIds) : offset f id + 8 ≤ 8 * f.slotIds.length := by
  have bound := List.idxOf_lt_length_iff.mpr slot
  rw [offset]
  omega

/-- Different slots do not overlap. -/
theorem offset_apart {id id' : Nat} (slot : id ∈ f.slotIds) (other : id' ≠ id) :
    offset f id' + 8 ≤ offset f id ∨ offset f id + 8 ≤ offset f id' := by
  have different : f.slotIds.idxOf id' ≠ f.slotIds.idxOf id := fun same => other (idxOf_inj slot same)
  rw [offset, offset]
  omega

end Layout

section Frames

variable (env : Environment) (f : Ir.Function) (args : List Int64)

def frameOf (values : Array Word) (base : Nat) (is : List Instruction) (exit : Option Terminator) : Frame :=
  ⟨codeOf env f, (args.map (·.toUInt64)).toArray, values, base, is.map (instrOf env f), exit.elim .trap (exitOf f)⟩

/-- The machine is where the call is: values for the registers, and eight bytes for each slot. -/
structure Matched (a : Activation) (memory : Memory) (values : Array Word) (base : Nat) : Prop where
  count : values.size = (writes f.body).length
  regs : ∀ {id n}, a.regs id = some n → id ∉ f.slotIds ∧ values.getD (number f id) 0 = n.toUInt64
  slots : ∀ {id content}, a.slots id = some content → id ∈ f.slotIds ∧
    values.getD (number f id) 0 = (base + offset f id).toUInt64 ∧
    ∀ n, content = some n → memory.readAt (base + offset f id) 8 = n.toUInt64
  low : origin ≤ base
  size : memory.size = base + 8 * f.slotIds.length

variable {env f args} {a : Activation} {memory : Memory} {values : Array Word} {base : Nat} {is : List Instruction}
  {exit : Option Terminator}

theorem getD_set {k : Nat} {w : Word} (bound : k < values.size) (j : Nat) :
    (values.setIfInBounds k w).getD j 0 = if j = k then w else values.getD j 0 := by
  rw [Array.getD_eq_getD_getElem?, Array.getD_eq_getD_getElem?, Array.getElem?_setIfInBounds]
  by_cases here : k = j
  · simp [here, here ▸ bound]
  · simp [here, Ne.symm here]

theorem Matched.setReg (matched : Matched f a memory values base) {r : Reg} (written : r.id ∈ writes f.body)
    (ordinary : r.id ∉ f.slotIds) (n : Int64) :
    Matched f (a.setReg r n) memory (values.setIfInBounds (number f r.id) n.toUInt64) base := by
  have bound : number f r.id < values.size := matched.count ▸ List.idxOf_lt_length_iff.mpr written
  have other {id : Nat} (different : id ≠ r.id) : number f id ≠ number f r.id := fun same => different (idxOf_inj written same)
  refine ⟨by simpa using matched.count, ?_, ?_, matched.low, matched.size⟩
  · intro id k found
    rw [getD_set bound]
    by_cases here : id = r.id
    · subst here
      simp only [Activation.setReg, if_true, Option.some.injEq] at found
      exact ⟨ordinary, by rw [if_pos rfl, found]⟩
    · simp only [Activation.setReg, here, if_false] at found
      rw [if_neg (other here)]
      exact matched.regs found
  · intro id content found
    obtain ⟨slot, address, held⟩ := matched.slots found
    have here : id ≠ r.id := fun same => ordinary (same ▸ slot)
    rw [getD_set bound, if_neg (other here)]
    exact ⟨slot, address, held⟩

/-- A slot gets its address. -/
theorem Matched.alloca (matched : Matched f a memory values base) {r : Reg} (slot : r.id ∈ f.slotIds) :
    Matched f (a.setSlot r none) memory (values.setIfInBounds (number f r.id) (base + offset f r.id).toUInt64) base := by
  have written := (slotIds_subset f).subset slot
  have bound : number f r.id < values.size := matched.count ▸ List.idxOf_lt_length_iff.mpr written
  have other {id : Nat} (different : id ≠ r.id) : number f id ≠ number f r.id := fun same => different (idxOf_inj written same)
  refine ⟨by simpa using matched.count, ?_, ?_, matched.low, matched.size⟩
  · intro id k found
    obtain ⟨ordinary, held⟩ := matched.regs found
    have here : id ≠ r.id := fun same => ordinary (same ▸ slot)
    rw [getD_set bound, if_neg (other here)]
    exact ⟨ordinary, held⟩
  · intro id content found
    rw [getD_set bound]
    by_cases here : id = r.id
    · subst here
      simp only [Activation.setSlot, if_true, Option.some.injEq] at found
      subst found
      exact ⟨slot, if_pos rfl, nofun⟩
    · simp only [Activation.setSlot, here, if_false] at found
      rw [if_neg (other here)]
      exact matched.slots found

/-- A number is stored into a slot. -/
theorem Matched.store (matched : Matched f a memory values base) {r : Reg} {content : Option Int64}
    (held : a.slots r.id = some content) (n : Int64) :
    Matched f (a.setSlot r (some n)) (memory.writeAt (base + offset f r.id) n.toUInt64 8) values base := by
  obtain ⟨slot, address, -⟩ := matched.slots held
  have bound := offset_bound slot
  have size := matched.size
  refine ⟨matched.count, matched.regs, ?_, matched.low, by rw [Memory.size_writeAt]; exact size⟩
  intro id content' found
  by_cases here : id = r.id
  · subst here
    simp only [Activation.setSlot, if_true, Option.some.injEq] at found
    subst found
    refine ⟨slot, address, ?_⟩
    rintro k ⟨⟩
    exact Memory.readAt_writeAt (by omega)
  · simp only [Activation.setSlot, here, if_false] at found
    obtain ⟨slot', address', held'⟩ := matched.slots found
    refine ⟨slot', address', fun k same => ?_⟩
    have apart := offset_apart slot here
    rw [← held' k same]
    exact Memory.readAt_congr fun j low high => Memory.bytes_writeAt (by omega)

theorem eval_operandOf (matched : Matched f a memory values base) {v : Ir.Value} {n : Int64}
    (found : v.eval args a = some n) : (frameOf env f args values base is exit).eval (operandOf f v) = n.toUInt64 := by
  cases v with
  | reg r => exact (matched.regs found).2
  | int value width =>
    obtain ⟨wide, same⟩ := Option.ite_none_right_eq_some.mp found
    cases same
    subst wide
    exact truncate_i64 _
  | arg index ty =>
    obtain ⟨-, passed⟩ := Option.ite_none_right_eq_some.mp found
    simp [frameOf, operandOf, Frame.eval, Array.getD_eq_getD_getElem?, passed]
  | _ => cases found

theorem eval_operands (matched : Matched f a memory values base) {vs : List Ir.Value} {ns : List Int64}
    (found : vs.map (·.eval args a) = ns.map some) :
    (vs.map (operandOf f)).map (frameOf env f args values base is exit).eval = ns.map (·.toUInt64) := by
  induction vs generalizing ns with
  | nil =>
    cases ns with
    | nil => rfl
    | cons => cases found
  | cons v vs ih =>
    cases ns with
    | nil => cases found
    | cons n ns =>
      simp only [List.map_cons, List.cons.injEq] at found ⊢
      exact ⟨eval_operandOf matched found.1, ih found.2⟩

/-- The address of a slot. -/
theorem eval_slot (matched : Matched f a memory values base) {r : Reg} {content : Option Int64}
    (held : a.slots r.id = some content) :
    (frameOf env f args values base is exit).eval (operandOf f (.reg r)) = (base + offset f r.id).toUInt64 :=
  (matched.slots held).2.1

/-- One instruction of the call is one step of the machine. -/
theorem step_eq {scope : Scope} {entry : Ir.Block} {others : List Ir.Block} (flat : f.Flat scope entry others)
    (matched : Matched f a memory values base) (small : memory.size < 0x10000000000000000) {i : Instruction}
    (member : i ∈ f.body) {a' : Activation} (applied : i.apply args a = some a') (foreign : Foreign) (p : Program)
    (env : Environment)
    (is : List Instruction) (exit : Option Terminator) (callers : List Caller) :
    ∃ memory' values', step foreign p ⟨memory, frameOf env f args values base (i :: is) exit, callers⟩ =
        .next ⟨memory', frameOf env f args values' base is exit, callers⟩ ∧
      Matched f a' memory' values' base ∧ ∀ k < base, memory'.bytes[k]? = memory.bytes[k]? := by
  have executed : step foreign p ⟨memory, frameOf env f args values base (i :: is) exit, callers⟩ =
      execute foreign p memory (frameOf env f args values base is exit) callers (instrOf env f i) := rfl
  rw [executed]
  have set {r : Reg} (dest : i.dest? = some r) (ordinary : i.isSlot = false) (n : Int64) :=
    matched.setReg (List.mem_map_of_mem (List.mem_filterMap.mpr ⟨i, member, dest⟩))
      (ordinary_not_slot flat.once member ordinary dest) n
  have size := matched.size
  have low := matched.low
  cases slot : i.isSlot with
  | true =>
    obtain ⟨id, rfl⟩ := flat.slots member slot
    cases applied
    have held : id ∈ f.slotIds := by
      refine List.mem_map.mpr ⟨⟨id, .ptr⟩, List.mem_filterMap.mpr ⟨_, List.mem_filter.mpr ⟨member, slot⟩, rfl⟩, rfl⟩
    exact ⟨memory, _, rfl, matched.alloca held, fun _ _ => rfl⟩
  | false =>
    have plain := flat.code member slot
    cases i with
    | load dest ty addr =>
      obtain ⟨-, rfl, id, rfl⟩ := plain
      obtain ⟨content, found, applied⟩ := Option.bind_eq_some_iff.mp applied
      obtain ⟨n, rfl, applied⟩ := Option.bind_eq_some_iff.mp applied
      cases applied
      obtain ⟨here, -, held⟩ := matched.slots found
      have bound := offset_bound here
      refine ⟨memory, _, ?_, set rfl slot n, fun _ _ => rfl⟩
      rw [instrOf, execute, eval_slot matched found, Memory.load_eq (by omega) (by omega) small, held n rfl]
      rfl
    | store value addr =>
      obtain ⟨ty, id, rfl⟩ := plain
      obtain ⟨n, found, applied⟩ := Option.bind_eq_some_iff.mp applied
      obtain ⟨content, held, applied⟩ := Option.bind_eq_some_iff.mp applied
      cases applied
      have bound := offset_bound (matched.slots held).1
      refine ⟨_, values, ?_, matched.store held n, fun k below => Memory.bytes_writeAt (.inl (by omega))⟩
      rw [instrOf, execute, eval_slot matched held, eval_operandOf matched found, Select.scalar_number ty,
        Memory.store_eq (by omega) (by omega) small]
      rfl
    | binary dest op lhs rhs =>
      obtain ⟨-, left, -⟩ := plain
      obtain ⟨x, found, applied⟩ := Option.bind_eq_some_iff.mp applied
      obtain ⟨y, found', applied⟩ := Option.bind_eq_some_iff.mp applied
      obtain ⟨n, computed, applied⟩ := Option.bind_eq_some_iff.mp applied
      cases applied
      refine ⟨memory, _, ?_, set rfl slot n, fun _ _ => rfl⟩
      rw [instrOf, execute, eval_operandOf matched found, eval_operandOf matched found', Select.scalar_number left,
        evalBinary_eq computed]
      rfl
    | neg dest operand =>
      obtain ⟨-, ty⟩ := plain
      obtain ⟨n, found, applied⟩ := Option.bind_eq_some_iff.mp applied
      cases applied
      refine ⟨memory, _, ?_, set rfl slot (-n), fun _ _ => rfl⟩
      rw [instrOf, execute, eval_operandOf matched found, Select.scalar_number ty, evalNeg_eq]
      rfl
    | icmp dest pred lhs rhs =>
      obtain ⟨-, left, -⟩ := plain
      obtain ⟨x, found, applied⟩ := Option.bind_eq_some_iff.mp applied
      obtain ⟨y, found', applied⟩ := Option.bind_eq_some_iff.mp applied
      cases applied
      refine ⟨memory, _, ?_, set rfl slot (if pred.eval x y then 1 else 0), fun _ _ => rfl⟩
      simp only [instrOf, execute, eval_operandOf matched found, eval_operandOf matched found', Select.scalar_number left,
        evalIcmp_eq]
      rfl
    | call => cases applied
    | _ => exact plain.elim

theorem goTo_eq {target : Nat} {b : Ir.Block} (found : f.block? target = some b) :
    (frameOf env f args values base is exit).goTo (position f target) =
      frameOf env f args values base b.instructions b.terminator := by
  obtain ⟨here, front, back, split, earlier⟩ := List.find?_eq_some_iff_append.mp found
  have place : position f target = front.length := by
    rw [position, split]
    exact Select.findIdx_of_split (fun b member => by simpa using earlier b member) here
  have block : (codeOf env f).blocks.getD (position f target) default = blockOf env f b := by
    rw [place, codeOf, split]
    simp
  have code : (frameOf env f args values base is exit).code = codeOf env f := rfl
  simp only [Frame.goTo, code, block]
  rfl

/-- A call starts with a frame of its own behind the memory of its caller. -/
theorem enter_eq {entry : Ir.Block} {others : List Ir.Block} (blocks : f.blocks = entry :: others) (env : Environment)
    (args : List Int64) (memory : Memory) (callers : List Caller) :
    enter (codeOf env f) (args.map (·.toUInt64)).toArray memory callers =
      ⟨memory.growTo (frameBase memory + 8 * f.slotIds.length), frameOf env f args (Array.replicate (writes f.body).length 0)
        (frameBase memory) entry.instructions entry.terminator, callers⟩ := by
  have first : (codeOf env f).blocks.getD 0 default = blockOf env f entry := by
    rw [codeOf, blocks]
    rfl
  rw [enter, first]
  rfl

theorem frameBase_bounds (memory : Memory) : memory.size ≤ frameBase memory ∧ frameBase memory < memory.size + 16 := by
  rw [frameBase]
  omega

theorem matched_start (low : origin ≤ memory.size) :
    Matched f .start (memory.growTo (frameBase memory + 8 * f.slotIds.length)) (Array.replicate (writes f.body).length 0)
      (frameBase memory) := by
  obtain ⟨behind, -⟩ := frameBase_bounds memory
  exact ⟨Array.size_replicate, nofun, nofun, Nat.le_trans low behind, Memory.size_growTo (by omega)⟩

end Frames

/-- What a call comes back with, and where it was called. -/
theorem Matched.receive {f : Ir.Function} {a a' : Activation} {memory : Memory} {values : Array Word} {base : Nat}
    (matched : Matched f a memory values base) {dest : Option Reg}
    (fits : ∀ r, dest = some r → r.id ∈ writes f.body ∧ r.id ∉ f.slotIds) {answer : Option Int64}
    (received : a.receive dest answer = some a') (env : Environment) (args : List Int64) (is : List Instruction)
    (exit : Option Terminator) (callers : List Caller) {memory' : Memory}
    (same : ∀ k < memory.size, memory'.bytes[k]? = memory.bytes[k]?) :
    ∃ values', Matched f a' memory values' base ∧
      resume memory' (answer.map (·.toUInt64))
          (⟨frameOf env f args values base is exit, dest.map fun r => number f r.id, memory.size⟩ :: callers) =
        .next ⟨memory, frameOf env f args values' base is exit, callers⟩ := by
  have restored := Memory.shrinkTo_eq same
  cases dest with
  | none =>
    cases received
    refine ⟨values, matched, ?_⟩
    rw [resume, restored]
    rfl
  | some r =>
    cases answer with
    | none => cases received
    | some n =>
      cases received
      obtain ⟨written, ordinary⟩ := fits r rfl
      refine ⟨_, matched.setReg written ordinary n, ?_⟩
      rw [resume, restored]
      rfl

theorem block_subset {f : Ir.Function} {b : Ir.Block} (member : b ∈ f.blocks) : b.instructions ⊆ f.body :=
  fun _ here => List.mem_flatMap.mpr ⟨b, member, here⟩

/-- A call that returns in the module returns in its program, and the memory of its callers is as before. -/
theorem halts_of_runs {scope : Scope} {m : Module} (flat : m.Flat scope) {room : Nat}
    (frames : ∀ g ∈ m.functions, 8 * g.slotIds.length ≤ room) {depth : Nat} {f : Ir.Function} {args : List Int64}
    {a : Activation} {is : List Instruction} {exit : Option Terminator} {result : Option Int64}
    (runs : Runs m depth f args a is exit result) {entry : Ir.Block} {others : List Ir.Block}
    (body : f.Flat scope entry others)
    (inside : is ⊆ f.body) {memory : Memory} {values : Array Word} {base : Nat} (matched : Matched f a memory values base)
    (space : memory.size + depth * (room + 16) < 0x10000000000000000) {callers : List Caller} {out : Option Word}
    {foreign : Foreign}
    (next : ∀ memory' : Memory, (∀ k < base, memory'.bytes[k]? = memory.bytes[k]?) →
      (resume memory' (result.map (·.toUInt64)) callers).Halts foreign (programOf m) out) :
    Halts foreign (programOf m) ⟨memory, frameOf (environmentOf m) f args values base is exit, callers⟩ out := by
  -- By induction on the run: what is left of a callee is run before its caller goes on.
  induction runs generalizing entry others memory values base callers with
  | @step depth f args a i a' rest exit result applied _ ih =>
    obtain ⟨memory', values', stepped, matched', same⟩ := step_eq body matched (by omega) (inside (List.mem_cons_self ..))
      applied foreign (programOf m) (environmentOf m) rest exit callers
    have size : memory'.size = memory.size := matched'.size.trans matched.size.symm
    refine .of_step ?_
    rw [stepped]
    refine ih body (fun i later => inside (List.mem_cons_of_mem _ later)) matched' (by omega) fun memory'' same' => ?_
    exact next memory'' fun k below => (same' k below).trans (same k below)
  | @call depth f args a dest callee vs ns g first others' answer a' rest exit result found blocks passed _ received _
      ihCallee ih =>
    have member : g ∈ m.functions := List.mem_of_find?_eq_some found
    have defined : g.isDeclaration = false := by
      cases declared : g.isDeclaration with
      | false => rfl
      | true => rw [flat.declarations g member declared] at blocks; cases blocks
    obtain ⟨entry', rest', body'⟩ := flat.bodies g member defined
    have fits : ∀ r, dest = some r → r.id ∈ writes f.body ∧ r.id ∉ f.slotIds := by
      rintro r rfl
      have here := inside (List.mem_cons_self ..)
      exact ⟨List.mem_map_of_mem (List.mem_filterMap.mpr ⟨_, here, rfl⟩), ordinary_not_slot body.once here rfl rfl⟩
    have called : step foreign (programOf m)
        ⟨memory, frameOf (environmentOf m) f args values base (.call dest callee vs :: rest) exit, callers⟩ =
          .next (enter (codeOf (environmentOf m) g) (ns.map (·.toUInt64)).toArray memory
            (⟨frameOf (environmentOf m) f args values base rest exit, dest.map fun r => number f r.id, memory.size⟩ ::
              callers)) := by
      change execute foreign (programOf m) memory (frameOf (environmentOf m) f args values base rest exit) callers
        (instrOf (environmentOf m) f (.call dest callee vs)) = _
      simp only [instrOf, execute, calleeOf_eq flat found defined, eval_operands matched passed,
        code_findIdx flat found defined]
    refine .of_step ?_
    rw [called, enter_eq blocks]
    obtain ⟨behind, near⟩ := frameBase_bounds memory
    have grown : (memory.growTo (frameBase memory + 8 * g.slotIds.length)).size = frameBase memory + 8 * g.slotIds.length :=
      Memory.size_growTo (by omega)
    have frame := frames g member
    refine ihCallee body' ?_ (matched_start (Nat.le_trans matched.low (by rw [matched.size]; omega))) ?_ fun memory' same => ?_
    · exact block_subset (blocks ▸ List.mem_cons_self ..)
    · have cost : (depth + 1) * (room + 16) = depth * (room + 16) + (room + 16) := Nat.succ_mul ..
      omega
    · have kept : ∀ k < memory.size, memory'.bytes[k]? = memory.bytes[k]? := fun k below =>
        (same k (by omega)).trans (Memory.bytes_growTo below)
      obtain ⟨values', matched', resumed⟩ := matched.receive fits received (environmentOf m) args rest exit callers kept
      rw [resumed]
      exact ih body (fun i later => inside (List.mem_cons_of_mem _ later)) matched' space next
  | @br depth f args a target b result found _ ih =>
    refine .of_step ?_
    change Halts foreign _ ⟨memory, (frameOf (environmentOf m) f args values base [] _).goTo (position f target), callers⟩ out
    rw [goTo_eq found]
    exact ih body (block_subset (List.mem_of_find?_eq_some found)) matched space next
  | @condBr depth f args a cond n onTrue onFalse b result tested found _ ih =>
    refine .of_step ?_
    change Halts foreign _ ⟨memory, (frameOf (environmentOf m) f args values base [] _).goTo
      (if (frameOf (environmentOf m) f args values base [] _).eval (operandOf f cond) ≠ 0
        then position f onTrue else position f onFalse), callers⟩ out
    have zero : n.toUInt64 = 0 ↔ n = 0 := toUInt64_eq_iff
    have chosen : (if n.toUInt64 ≠ 0 then onTrue else onFalse) = if n ≠ 0 then onTrue else onFalse := by
      simp only [ne_eq, zero]
    rw [eval_operandOf matched tested, ← apply_ite (position f), chosen, goTo_eq found]
    exact ih body (block_subset (List.mem_of_find?_eq_some found)) matched space next
  | ret => exact .of_step (next memory fun _ _ => rfl)
  | @retValue depth f args a value n found =>
    refine .of_step ?_
    change (resume memory (some ((frameOf (environmentOf m) f args values base [] _).eval (operandOf f value)))
      callers).Halts foreign _ out
    rw [eval_operandOf matched found]
    exact next memory fun _ _ => rfl

end Machine

end StructLang
