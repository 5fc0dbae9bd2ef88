import StructLang.Proofs.Machine.Encoding

namespace StructLang

open Ir

namespace Machine

variable {env : Environment} {scope : Scope} {f : Ir.Function} {entry : Ir.Block} {others : List Ir.Block}

theorem wellTyped_instrOf (flat : f.Flat scope entry others) (knows : env.Knows scope) {i : Instruction}
    (member : i ∈ f.body) : (instrOf env f i).wellTyped = true := by
  cases slot : i.isSlot with
  | true =>
    obtain ⟨id, rfl⟩ := flat.slots member slot
    rfl
  | false =>
    have plain := flat.code member slot
    cases i with
    | load dest ty addr =>
      simp only [instrOf, Instr.wellTyped, Select.scalar_address plain.2.2]
      rfl
    | store value addr =>
      simp only [instrOf, Instr.wellTyped, Select.scalar_address plain.2]
      rfl
    | binary dest op lhs rhs =>
      obtain ⟨-, left, right, op⟩ := plain
      simp only [instrOf, Instr.wellTyped, Select.scalar_number left, Select.scalar_number right]
      rcases op with rfl | rfl | rfl | rfl <;> rfl
    | neg dest operand =>
      simp only [instrOf, Instr.wellTyped, Select.scalar_number plain.2]
      rfl
    | icmp dest pred lhs rhs =>
      simp only [instrOf, Instr.wellTyped, Select.scalar_number plain.2.1, Select.scalar_number plain.2.2]
      rfl
    | call dest callee args =>
      obtain ⟨tys, g, known, -⟩ := plain
      have scalars : (args.map (operandOf f)).map (·.scalar) = List.replicate args.length .i64 := by
        rw [List.map_map, List.eq_replicate_iff]
        refine ⟨List.length_map .., fun s found => ?_⟩
        obtain ⟨v, passed, rfl⟩ := List.mem_map.mp found
        exact Select.scalar_number (tys v passed)
      simp only [instrOf, Instr.wellTyped, knows known, Option.getD_some, scalars, wordSignature,
        flat.calls member known, beq_self_eq_true]
    | _ => exact plain.elim

theorem position_ne_zero (flat : f.Flat scope entry others) {id : Nat} (other : id ≠ 0) : position f id ≠ 0 := by
  have different : (entry.id == id) = false := beq_eq_false_iff_ne.mpr (flat.first ▸ other.symm)
  rw [position, flat.blocks, List.findIdx_cons, different]
  exact Nat.succ_ne_zero _

theorem successors_exitOf (f : Ir.Function) (t : Terminator) : (exitOf f t).successors = t.successors.map (position f) := by
  cases t <;> rfl

theorem wellTyped_exitOf (flat : f.Flat scope entry others) {b : Ir.Block} {t : Terminator} (exit : f.FlatExit entry b t) :
    (exitOf f t).wellTyped (wordSignature f.params.length f.returns) = true := by
  have away : (exitOf f t).successors.contains 0 = false := by
    rw [successors_exitOf, List.contains_eq_mem, decide_eq_false_iff_not, List.mem_map]
    rintro ⟨id, branch, same⟩
    exact position_ne_zero flat (fun zero => exit.plain.2 (zero ▸ branch)) same
  unfold Exit.wellTyped
  rw [away]
  cases t with
  | ret value =>
    have returns := exit.returns rfl
    cases value with
    | none =>
      have nothing : f.returns = .void := Decidable.byContradiction fun other => nomatch returns.mpr other
      simp [exitOf, wordSignature, nothing]
    | some v =>
      have something := returns.mp rfl
      simp [exitOf, wordSignature, something, Select.scalar_number (exit.plain.1 v rfl)]
  | br id => rfl
  | condBr cond onTrue onFalse =>
    have bit : cond.ty = .int 1 := exit.condition
    cases cond with
    | reg r =>
      cases r
      cases bit
      rfl
    | int => cases bit; rfl
    | arg => rfl
    | _ => cases bit
  | unreachable => rfl

theorem operands_instrOf (flat : f.Flat scope entry others) {i : Instruction} (member : i ∈ f.body) :
    (instrOf env f i).operands = i.operands.map (operandOf f) := by
  cases slot : i.isSlot with
  | true =>
    obtain ⟨id, rfl⟩ := flat.slots member slot
    rfl
  | false =>
    have plain := flat.code member slot
    cases i with
    | fieldAddr | elementAddr | fneg | fcmp | alloca => exact plain.elim
    | _ => rfl

theorem operands_exitOf (f : Ir.Function) (t : Terminator) : (exitOf f t).operands = t.operands.map (operandOf f) := by
  cases t with
  | ret value => cases value <;> rfl
  | _ => rfl

theorem dest?_instrOf (flat : f.Flat scope entry others) {i : Instruction} (member : i ∈ f.body) :
    (instrOf env f i).dest? = i.dest?.map fun r => number f r.id := by
  cases slot : i.isSlot with
  | true =>
    obtain ⟨id, rfl⟩ := flat.slots member slot
    rfl
  | false =>
    have plain := flat.code member slot
    cases i with
    | fieldAddr | elementAddr | fneg | fcmp | alloca => exact plain.elim
    | _ => rfl

/-- The values that a block reads are those of registers that the entry or the block itself writes. -/
theorem reads_blockOf (flat : f.Flat scope entry others) {b : Ir.Block} (member : b ∈ f.blocks) {k : Nat}
    (read : k ∈ Function.reads (blockOf env f b)) :
    ∃ r, k = number f r.id ∧ (r ∈ defs entry.instructions ∨ r ∈ defs b.instructions) := by
  have inside : ∀ i ∈ b.instructions, i ∈ f.body := fun i placed => List.mem_flatMap.mpr ⟨b, member, placed⟩
  have known : ∀ i ∈ b.instructions, ∀ v ∈ i.operands,
      v.Known f.params.length fun r => r ∈ defs entry.instructions ∨ r ∈ defs b.instructions := by
    have placed := member
    rw [flat.blocks] at placed
    rcases List.mem_cons.mp placed with rfl | later
    · exact fun i here v reads => (flat.entryReads.reads i here v reads).mono fun r => Or.imp_left False.elim
    · exact (flat.reads later).reads
  obtain ⟨t, found, exit⟩ := flat.exits member
  rw [Function.reads, List.mem_filterMap] at read
  obtain ⟨o, read, source⟩ := read
  have value : ∃ v, v.Known f.params.length (fun r => r ∈ defs entry.instructions ∨ r ∈ defs b.instructions) ∧
      operandOf f v = o := by
    rcases List.mem_append.mp read with early | late
    · obtain ⟨i', member', read'⟩ := List.mem_flatMap.mp early
      obtain ⟨i, here, rfl⟩ := List.mem_map.mp member'
      rw [operands_instrOf flat (inside i here)] at read'
      obtain ⟨v, reads, same⟩ := List.mem_map.mp read'
      exact ⟨v, known i here v reads, same⟩
    · simp only [blockOf, found, Option.elim_some, operands_exitOf] at late
      obtain ⟨v, reads, same⟩ := List.mem_map.mp late
      exact ⟨v, exit.reads v reads, same⟩
  obtain ⟨v, known, rfl⟩ := value
  cases v with
  | reg r =>
    cases source
    exact ⟨r, rfl, known⟩
  | _ => cases source

/-- The block of a written register, in a list of blocks that starts at a position. -/
theorem home_eq {bs : List Ir.Block} : ∀ {start k : Nat} {b : Ir.Block} {id : Nat},
    (writes (bs.flatMap (·.instructions))).Nodup → bs[k]? = some b → id ∈ writes b.instructions →
    ((bs.zipIdx start).flatMap fun (b, i) => (writes b.instructions).map fun _ => i)[(writes
      (bs.flatMap (·.instructions))).idxOf id]? = some (start + k) := by
  induction bs with
  | nil => exact fun _ found => by simp at found
  | cons b₀ rest ih =>
    intro start k b id once found written
    simp only [List.flatMap_cons, writes_append] at once ⊢
    rw [List.zipIdx_cons, List.flatMap_cons, List.idxOf_append]
    cases k with
    | zero =>
      cases found
      have bound := List.idxOf_lt_length_iff.mpr written
      rw [if_pos written, List.getElem?_append_left (by simpa using bound), List.getElem?_map,
        List.getElem?_eq_getElem bound]
      rfl
    | succ k =>
      have later : id ∈ writes (rest.flatMap (·.instructions)) := by
        rw [writes_flatMap]
        exact List.mem_flatMap.mpr ⟨b, List.mem_of_getElem? found, written⟩
      have absent : id ∉ writes b₀.instructions := fun early => (List.nodup_append.mp once).2.2 _ early _ later rfl
      rw [if_neg absent, List.getElem?_append_right (by simp), List.length_map, Nat.add_sub_cancel,
        ih (List.nodup_append.mp once).2.1 found written]
      congr 1
      omega

theorem dests_instrOf (flat : f.Flat scope entry others) {is : List Instruction} (inside : is ⊆ f.body) :
    (is.map (instrOf env f)).filterMap (·.dest?) = (writes is).map (number f) := by
  induction is with
  | nil => rfl
  | cons i is ih =>
    rw [List.map_cons, List.filterMap_cons, dest?_instrOf flat (inside (List.mem_cons_self ..)),
      ih fun j member => inside (List.mem_cons_of_mem _ member), writes_cons]
    cases i.dest? <;> rfl

theorem homes_codeOf (flat : f.Flat scope entry others) :
    (codeOf env f).homes.toList = f.blocks.zipIdx.flatMap fun (b, i) => (writes b.instructions).map fun _ => i := by
  rw [Function.homes, Array.toList_flatMap, Array.toList_zipIdx]
  simp only [codeOf, List.zipIdx_map, List.flatMap_map]
  rw [List.flatMap_def, List.flatMap_def]
  congr 1
  refine List.map_congr_left fun (b, i) member => ?_
  have placed : b ∈ f.blocks := List.mem_of_getElem? (List.mem_zipIdx_iff_getElem?.mp member)
  have inside : b.instructions ⊆ f.body := fun i here => List.mem_flatMap.mpr ⟨b, placed, here⟩
  simp only [blockOf, Prod.map, dests_instrOf flat inside, List.map_map]
  rfl

/-- What a block reads was written on every way to it: by the entry, or by the block itself. -/
theorem writtenBeforeRead_codeOf (flat : f.Flat scope entry others) : (codeOf env f).writtenBeforeRead = true := by
  have home {k : Nat} {b : Ir.Block} (found : f.blocks[k]? = some b) {r : Reg} (written : r ∈ defs b.instructions) :
      (codeOf env f).homes.getD (number f r.id) 0 = k := by
    rw [Array.getD_eq_getD_getElem?, ← Array.getElem?_toList, homes_codeOf flat, number, Ir.Function.body,
      home_eq flat.once found (List.mem_map_of_mem written), Option.getD_some, Nat.zero_add]
  have first : f.blocks[0]? = some entry := by
    rw [flat.blocks]
    rfl
  rw [Function.writtenBeforeRead, List.all_eq_true]
  rintro ⟨code, k⟩ member
  simp only [codeOf, List.mem_zipIdx_iff_getElem?, List.getElem?_map] at member
  obtain ⟨b, found, rfl⟩ := Option.map_eq_some_iff.mp member
  rw [Bool.or_eq_true, List.all_eq_true]
  refine .inr fun number read => ?_
  obtain ⟨r, rfl, early | here⟩ := reads_blockOf flat (List.mem_of_getElem? found) read
  · simp [Function.dominates, home first early]
  · simp [Function.dominates, home found here]

theorem wellFormed_codeOf (flat : f.Flat scope entry others) (knows : env.Knows scope)
    (small : 8 * f.slotIds.length + 7 < 0x100000000) : (codeOf env f).wellFormed = true := by
  have typed : (codeOf env f).blocks.all (fun b => b.instrs.all Instr.wellTyped && b.exit.wellTyped (codeOf env f).signature) =
      true := by
    simp only [codeOf, List.all_toArray, List.all_map, List.all_eq_true, Function.comp_apply, Bool.and_eq_true]
    intro b member
    refine ⟨?_, ?_⟩
    · intro code selected
      obtain ⟨i, here, rfl⟩ := List.mem_map.mp selected
      exact wellTyped_instrOf flat knows (List.mem_flatMap.mpr ⟨b, member, here⟩)
    · obtain ⟨t, found, exit⟩ := flat.exits member
      simp only [blockOf, found, Option.elim_some]
      exact wellTyped_exitOf flat exit
  rw [Function.wellFormed, typed, writtenBeforeRead_codeOf flat, Function.frameFits]
  exact decide_eq_true small

/-- Selection of a function over numbers comes to its code. -/
theorem selectFunction_eq (flat : f.Flat scope entry others) (knows : env.Knows scope)
    (small : 8 * f.slotIds.length + 7 < 0x100000000) : selectFunction env f = .ok (codeOf env f) := by
  obtain ⟨sel, selected, covers⟩ := Select.body_eq flat knows f.returns
  have accepted := wellFormed_codeOf flat knows small
  have code : (⟨wordSignature f.params.length f.returns, sel.frameSize, sel.nextValue,
      (f.blocks.map (blockOf env f)).toArray⟩ : Function) = codeOf env f := by
    rw [covers.frame, covers.next]
    rfl
  have nonempty : f.blocks.isEmpty = false := by rw [flat.blocks]; rfl
  simp only [selectFunction, signatureOf_eq flat.params flat.results, nonempty, bind, Except.bind, StateT.run, selected, code,
    flat.placed, accepted, and_self, if_true, Bool.false_eq_true, if_false]
  rfl

end Machine

end StructLang
