import Mathlib.Data.List.Forall2
import Mathlib.Data.List.Nodup
import StructLang.Proofs.Ir.WellFormed
import StructLang.Proofs.Machine.Bits
import StructLang.Proofs.Machine.Programs

namespace StructLang

open Ir

def Ir.Function.truths (f : Function) (n : Nat) : Prop := ∃ r, (defs f.body)[n]? = some r ∧ r.ty = .int 1

namespace Machine

def Function.body (code : Function) : List Instr := code.blocks.toList.flatMap (·.instrs)

/-- Instruction by instruction, code writes to the next value where a register is written, and nowhere else. -/
def Destined : Nat → List Instruction → List Instr → Prop
  | _, [], [] => True
  | n, i :: is, c :: cs => c.dest? = i.dest?.map (fun _ => n) ∧ Destined (n + (defs [i]).length) is cs
  | _, _, _ => False

theorem Destined.append {is is' : List Instruction} {cs' : List Instr} : ∀ {n : Nat} {cs : List Instr}, Destined n is cs →
    Destined (n + (defs is).length) is' cs' → Destined n (is ++ is') (cs ++ cs') := by
  induction is with
  | nil =>
    intro n cs first rest
    cases cs with
    | nil => exact rest
    | cons => cases first
  | cons i is ih =>
    intro n cs first rest
    cases cs with
    | nil => cases first
    | cons c cs =>
      refine ⟨first.1, ih first.2 ?_⟩
      rwa [Nat.add_assoc, ← List.length_append, ← defs_append]

/-- The register that an instruction writes has the place of its value among all that are written. -/
theorem Destined.place {is : List Instruction} : ∀ {n k : Nat} {cs : List Instr}, Destined n is cs → ∀ {i : Instruction}
    {c : Instr}, (i, c) ∈ is.zip cs → ∀ {r : Reg}, i.dest? = some r → c.dest? = some k →
    n ≤ k ∧ (defs is)[k - n]? = some r := by
  induction is with
  | nil =>
    intro n k cs _ i c member
    cases member
  | cons j is ih =>
    intro n k cs destined i c member r dest written
    cases cs with
    | nil => cases member
    | cons c' cs =>
      have split : defs (j :: is) = defs [j] ++ defs is := defs_append [j] is
      rw [List.zip_cons_cons, List.mem_cons] at member
      rcases member with here | later
      · cases here
        rw [destined.1, dest] at written
        cases written
        refine ⟨Nat.le_refl _, ?_⟩
        rw [split, Nat.sub_self]
        simp [defs, dest]
      · obtain ⟨above, place⟩ := ih destined.2 later dest written
        refine ⟨by omega, ?_⟩
        rw [split, List.getElem?_append_right (by omega), ← place]
        congr 1
        omega

/-- Every register that is written has a value. -/
theorem Destined.exists_dest {is : List Instruction} : ∀ {n : Nat} {cs : List Instr}, Destined n is cs →
    ∀ {r : Reg}, r ∈ defs is → ∃ i c k, (i, c) ∈ is.zip cs ∧ i.dest? = some r ∧ c.dest? = some k := by
  induction is with
  | nil =>
    intro n cs _ r member
    cases member
  | cons j is ih =>
    intro n cs destined r member
    cases cs with
    | nil => cases destined
    | cons c cs =>
      change r ∈ defs ([j] ++ is) at member
      rw [defs_append, List.mem_append, mem_defs_singleton] at member
      rcases member with here | later
      · refine ⟨j, c, n, List.mem_cons_self .., here, ?_⟩
        rw [destined.1, here]
        rfl
      · obtain ⟨i, c', k, pair, dest, written⟩ := ih destined.2 later
        exact ⟨i, c', k, List.mem_cons_of_mem _ pair, dest, written⟩

namespace Select

variable {α β : Type} {sel : Selection} {post : α → Selection → Prop}

def Ensures (x : Select α) (sel : Selection) (post : α → Selection → Prop) : Prop :=
  ∀ a sel', x sel = .ok (a, sel') → post a sel'

theorem ensures_pure {a : α} (holds : post a sel) : Ensures (pure a) sel post := by
  intro a' sel' ran
  cases ran
  exact holds

theorem ensures_error {e : SelectionError} : Ensures (throw e) sel post := by
  rintro a sel' ⟨⟩

theorem Ensures.bind {x : Select α} {f : α → Select β} {post : β → Selection → Prop} {mid : α → Selection → Prop}
    (first : Ensures x sel mid) (next : ∀ a sel', mid a sel' → Ensures (f a) sel' post) : Ensures (x >>= f) sel post := by
  intro b sel'' ran
  cases done : x sel with
  | error e =>
    change (x sel >>= fun r => f r.1 r.2) = _ at ran
    rw [done] at ran
    cases ran
  | ok r =>
    rw [bind_ok done] at ran
    exact next r.1 r.2 (first r.1 r.2 done) b sel'' ran

theorem ensures_get : Ensures get sel fun read sel' => read = sel ∧ sel' = sel := by
  intro read sel' ran
  cases ran
  exact ⟨rfl, rfl⟩

theorem ensures_lift {x : Selected α} : Ensures (liftM x : Select α) sel fun _ sel' => sel' = sel := by
  intro a sel' ran
  cases x with
  | error e => cases ran
  | ok a => cases ran; rfl

end Select

structure Numbered (before : List Instruction) (sel : Selection) : Prop where
  next : sel.nextValue = (defs before).length
  values : ∀ {id o}, sel.values.lookup id = some o →
    ∃ n r, o.source = .value n ∧ (defs before)[n]? = some r ∧ r.id = id

theorem Numbered.unwritten {before : List Instruction} {sel : Selection} (numbered : Numbered before sel) {i : Instruction}
    (dest : i.dest? = none) : Numbered (before ++ [i]) sel := by
  have same : defs (before ++ [i]) = defs before := by simp [defs, dest]
  exact ⟨same ▸ numbered.next, fun found => same ▸ numbered.values found⟩

namespace Select

variable {env : Environment} {signature : Signature} {before : List Instruction} {sel : Selection}

/-- An operand for a register is its latest value. -/
theorem ensures_operand (v : Ir.Value) :
    Ensures (operand env signature v) sel fun o sel' => sel' = sel ∧ ∀ r, v = .reg r → sel.values.lookup r.id = some o := by
  have other {v : Ir.Value} {o : Operand} (none : ∀ r, v ≠ .reg r) : Ensures (pure o) sel fun o sel' =>
      sel' = sel ∧ ∀ r, v = .reg r → sel.values.lookup r.id = some o :=
    ensures_pure ⟨rfl, fun r same => absurd same (none r)⟩
  unfold operand
  split
  · refine ensures_get.bind ?_
    rintro _ _ ⟨rfl, rfl⟩
    split
    · rename_i o found
      refine ensures_pure ⟨rfl, ?_⟩
      rintro r ⟨⟩
      exact found
    · exact ensures_error
  · refine ensures_lift.bind ?_
    rintro s _ rfl
    exact other (by rintro r ⟨⟩)
  · exact other (by rintro r ⟨⟩)
  · exact other (by rintro r ⟨⟩)
  · exact ensures_error
  · split
    · exact other (by rintro r ⟨⟩)
    · exact ensures_error
  · split
    · exact other (by rintro r ⟨⟩)
    · exact ensures_error

/-- Reading operands leaves the selection as it is. -/
theorem ensures_operands (vs : List Ir.Value) : Ensures (vs.mapM (operand env signature)) sel fun _ sel' => sel' = sel := by
  induction vs with
  | nil => exact ensures_pure rfl
  | cons v vs ih =>
    rw [List.mapM_cons]
    refine (ensures_operand v).bind ?_
    rintro o _ ⟨rfl, -⟩
    refine ih.bind ?_
    rintro os _ rfl
    exact ensures_pure rfl

theorem ensures_define (numbered : Numbered before sel) {i : Instruction} {r : Reg} (dest : i.dest? = some r) (s : Scalar) :
    Ensures (define r s) sel fun n sel' => n = (defs before).length ∧ Numbered (before ++ [i]) sel' := by
  have written : defs (before ++ [i]) = defs before ++ [r] := by simp [defs, dest]
  intro n sel' ran
  cases ran
  refine ⟨numbered.next, ?_, ?_⟩
  · rw [written, List.length_append, List.length_singleton, ← numbered.next]
  · intro id o found
    rw [List.lookup_cons] at found
    rw [written]
    split at found
    · rename_i here
      cases found
      exact ⟨_, r, rfl, by simp [numbered.next], (beq_iff_eq.mp here).symm⟩
    · obtain ⟨n, r', source, place, same⟩ := numbered.values found
      have inside := (List.getElem?_eq_some_iff.mp place).1
      exact ⟨n, r', source, by rw [List.getElem?_append_left inside, place], same⟩

theorem ensures_newSlot (numbered : Numbered before sel) (ty : Ir.Ty) :
    Ensures (newSlot env ty) sel fun _ sel' => Numbered before sel' := by
  refine ensures_lift.bind ?_
  rintro extent _ rfl n sel' ran
  cases ran
  exact ⟨numbered.next, numbered.values⟩

section Instructions

variable {f : Ir.Function} {rest : List Instruction} {i : Instruction}

/-- The register that an instruction writes has the next place. -/
theorem truths_iff (split : f.body = before ++ i :: rest) {r : Reg} (dest : i.dest? = some r) :
    f.truths (defs before).length ↔ r.ty = .int 1 := by
  have place : (defs f.body)[(defs before).length]? = some r := by
    rw [split, defs_append, List.getElem?_append_right (Nat.le_refl _), Nat.sub_self]
    simp [defs, dest]
  constructor
  · rintro ⟨r', place', truth⟩
    cases place.symm.trans place'
    exact truth
  · exact fun truth => ⟨r, place, truth⟩

/-- A truth value is read from a value for truth values. -/
theorem isBit_of_lookup (keeps : f.KeepsTruth) (numbered : Numbered before sel) (part : before <+: f.body) {r : Reg}
    (written : r ∈ defs f.body) (truth : r.ty = .int 1) {o : Operand} (found : sel.values.lookup r.id = some o) :
    o.IsBit f.truths := by
  obtain ⟨n, r', source, place, same⟩ := numbered.values found
  obtain ⟨later, whole⟩ := part
  have inside := (List.getElem?_eq_some_iff.mp place).1
  have place' : (defs f.body)[n]? = some r' := by
    rw [← whole, defs_append, List.getElem?_append_left inside, place]
  cases List.inj_on_of_nodup_map keeps.once (List.mem_of_getElem? place') written same
  rw [Operand.IsBit, source]
  exact ⟨r, place', truth⟩

structure Coded (env : Environment) (f : Ir.Function) (before : List Instruction) (i : Instruction) (instr : Instr)
    (sel : Selection) : Prop where
  numbered : Numbered (before ++ [i]) sel
  dest : instr.dest? = i.dest?.map fun _ => (defs before).length
  bits : instr.KeepsBits f.truths
  calls : instr.CallsBelow (definedIn env.module).length

/-- The code of an instruction that writes a register ends by giving it a value. -/
theorem ensures_written (numbered : Numbered before sel) {r : Reg} (dest : i.dest? = some r) {s : Scalar} {code : Nat → Instr}
    (written : (code (defs before).length).dest? = some (defs before).length)
    (bits : (code (defs before).length).KeepsBits f.truths)
    (calls : (code (defs before).length).CallsBelow (definedIn env.module).length) :
    Ensures (define r s >>= fun n => pure (code n)) sel (Coded env f before i) := by
  refine (ensures_define numbered dest s).bind ?_
  rintro n sel' ⟨rfl, numbered⟩
  exact ensures_pure ⟨numbered, by rw [dest, written]; rfl, bits, calls⟩

theorem ensures_instruction (keeps : f.KeepsTruth) (numbered : Numbered before sel) (split : f.body = before ++ i :: rest)
    (kept : i.KeepsTruth) (reads : ∀ r, .reg r ∈ i.operands → r ∈ defs f.body) :
    Ensures (instruction env signature i) sel (Coded env f before i) := by
  -- A register of any other type does not get a value for truth values.
  have plain {r : Reg} (dest : i.dest? = some r) (other : r.ty ≠ .int 1) :
      ∀ n, some (defs before).length = some n → ¬f.truths n := by
    rintro n ⟨⟩ bit
    exact other ((truths_iff split dest).mp bit)
  have operand {v : Ir.Value} (read : v ∈ i.operands) {o : Operand}
      (found : ∀ r, v = .reg r → sel.values.lookup r.id = some o) (truth : v.IsTruth) : o.IsBit f.truths := by
    obtain ⟨r, rfl, truth⟩ := truth
    exact isBit_of_lookup keeps numbered ⟨_, split.symm⟩ (reads r read) truth (found r rfl)
  cases i with
  | alloca dest ty =>
    refine (ensures_newSlot numbered ty).bind fun offset sel₁ numbered => ?_
    exact ensures_written numbered rfl rfl (plain rfl (kept dest rfl)) trivial
  | load dest ty addr =>
    refine (ensures_operand addr).bind ?_
    rintro o _ ⟨rfl, -⟩
    split
    · refine (ensures_newSlot numbered _).bind fun offset sel₁ numbered => ensures_lift.bind ?_
      rintro copied _ rfl
      exact ensures_written numbered rfl rfl (plain rfl (kept dest rfl)) trivial
    · refine ensures_lift.bind ?_
      rintro s _ rfl
      exact ensures_written numbered rfl rfl (plain rfl (kept dest rfl)) trivial
  | store value addr =>
    refine (ensures_operand addr).bind ?_
    rintro target _ ⟨rfl, -⟩
    refine (ensures_operand value).bind ?_
    rintro stored _ ⟨rfl, -⟩
    split
    · refine ensures_lift.bind ?_
      rintro copied _ rfl
      exact ensures_pure ⟨numbered.unwritten rfl, rfl, by rintro n ⟨⟩, trivial⟩
    · exact ensures_pure ⟨numbered.unwritten rfl, rfl, by rintro n ⟨⟩, trivial⟩
  | fieldAddr dest struct base index =>
    refine ensures_lift.bind ?_
    rintro offsets _ rfl
    split
    · exact ensures_error
    · refine (ensures_operand base).bind ?_
      rintro o _ ⟨rfl, -⟩
      exact ensures_written numbered rfl rfl (plain rfl (kept dest rfl)) trivial
  | elementAddr dest element base index =>
    refine ensures_lift.bind ?_
    rintro size _ rfl
    refine (ensures_operand base).bind ?_
    rintro o _ ⟨rfl, -⟩
    refine (ensures_operand index).bind ?_
    rintro o' _ ⟨rfl, -⟩
    exact ensures_written numbered rfl rfl (plain rfl (kept dest rfl)) trivial
  | binary dest op lhs rhs =>
    refine (ensures_operand lhs).bind ?_
    rintro left _ ⟨rfl, left'⟩
    refine (ensures_operand rhs).bind ?_
    rintro right _ ⟨rfl, right'⟩
    refine ensures_written numbered rfl rfl (fun bit => ?_) trivial
    obtain ⟨ops, truth, truth'⟩ := kept ((truths_iff split rfl).mp bit)
    exact ⟨ops, operand (by simp [Instruction.operands]) left' truth,
      operand (by simp [Instruction.operands]) right' truth'⟩
  | neg dest value | fneg dest value =>
    refine (ensures_operand value).bind ?_
    rintro o _ ⟨rfl, -⟩
    exact ensures_written numbered rfl rfl (plain rfl (kept dest rfl)) trivial
  | icmp dest pred lhs rhs | fcmp dest pred lhs rhs =>
    refine (ensures_operand lhs).bind ?_
    rintro left _ ⟨rfl, -⟩
    refine (ensures_operand rhs).bind ?_
    rintro right _ ⟨rfl, -⟩
    exact ensures_written numbered rfl rfl trivial trivial
  | call dest callee args =>
    have below {dest : Option Nat} {called : Signature} {args : List Operand} :
        (Instr.call dest (calleeOf env callee) called args).CallsBelow
          (definedIn env.module).length := by
      unfold calleeOf
      split
      · rename_i index found
        exact (List.findIdx?_eq_some_iff_getElem.mp found).1
      · trivial
    rw [instruction]
    split
    · exact ensures_error
    refine (ensures_operands args).bind ?_
    rintro os _ rfl
    split
    · exact ensures_pure ⟨numbered.unwritten rfl, rfl, by rintro n ⟨⟩, below⟩
    · exact ensures_error
    · exact ensures_written numbered rfl rfl (plain rfl (kept _ rfl)) below

theorem ensures_instructions (keeps : f.KeepsTruth) {is : List Instruction} : ∀ {before : List Instruction} {sel : Selection},
    Numbered before sel → f.body = before ++ (is ++ rest) → (∀ i ∈ is, i.KeepsTruth) →
    (∀ i ∈ is, ∀ r, .reg r ∈ i.operands → r ∈ defs f.body) →
    Ensures (is.mapM (instruction env signature)) sel fun instrs sel' => Numbered (before ++ is) sel' ∧
      Destined (defs before).length is instrs ∧
      ∀ instr ∈ instrs, instr.KeepsBits f.truths ∧ instr.CallsBelow (definedIn env.module).length := by
  induction is with
  | nil =>
    intro before sel numbered _ _ _
    exact ensures_pure ⟨by simpa using numbered, trivial, by rintro i ⟨⟩⟩
  | cons i is ih =>
    intro before sel numbered split kept reads
    have first : Ensures (instruction env signature i) sel (Coded env f before i) :=
      ensures_instruction keeps numbered split (kept i (List.mem_cons_self ..)) (reads i (List.mem_cons_self ..))
    rw [List.mapM_cons]
    refine first.bind fun instr sel₁ coded => ?_
    refine (ih coded.numbered (by simpa using split) (fun i member => kept i (List.mem_cons_of_mem _ member))
      fun i member => reads i (List.mem_cons_of_mem _ member)).bind ?_
    rintro instrs sel₂ ⟨numbered, destined, others⟩
    rw [defs_append, List.length_append] at destined
    exact ensures_pure ⟨by simpa using numbered, ⟨coded.dest, destined⟩,
      List.forall_mem_cons.mpr ⟨⟨coded.bits, coded.calls⟩, others⟩⟩

end Instructions

section Blocks

variable {f : Ir.Function} {rest : List Instruction}

theorem ensures_target (id : Nat) : Ensures (target f id) sel fun _ sel' => sel' = sel := by
  unfold target
  split
  · exact ensures_pure rfl
  · exact ensures_error

theorem ensures_terminator (keeps : f.KeepsTruth) (numbered : Numbered before sel) (part : before <+: f.body) {t : Terminator}
    (tests : t.TestsTruth) (reads : ∀ r, .reg r ∈ t.operands → r ∈ defs f.body) :
    Ensures (terminator env signature f t) sel fun exit sel' => sel' = sel ∧ exit.TestsBit f.truths := by
  cases t with
  | ret value =>
    cases value with
    | none => exact ensures_pure ⟨rfl, trivial⟩
    | some v =>
      refine (ensures_operand v).bind ?_
      rintro o _ ⟨rfl, -⟩
      exact ensures_pure ⟨rfl, trivial⟩
  | br id =>
    refine (ensures_target id).bind ?_
    rintro target _ rfl
    exact ensures_pure ⟨rfl, trivial⟩
  | condBr cond onTrue onFalse =>
    refine (ensures_target onTrue).bind ?_
    rintro target _ rfl
    refine (ensures_target onFalse).bind ?_
    rintro target' _ rfl
    refine (ensures_operand cond).bind ?_
    rintro o _ ⟨rfl, found⟩
    obtain ⟨r, rfl, truth⟩ := tests
    exact ensures_pure ⟨rfl, isBit_of_lookup keeps numbered part (reads r (List.mem_cons_self ..)) truth (found r rfl)⟩
  | unreachable => exact ensures_pure ⟨rfl, trivial⟩

theorem ensures_block (keeps : f.KeepsTruth) (numbered : Numbered before sel) {b : Ir.Block} (member : b ∈ f.blocks)
    (split : f.body = before ++ (b.instructions ++ rest)) :
    Ensures (block env signature f b) sel fun code sel' => Numbered (before ++ b.instructions) sel' ∧
      Destined (defs before).length b.instructions code.instrs ∧ code.KeepsBits f.truths ∧
      ∀ i ∈ code.instrs, i.CallsBelow (definedIn env.module).length := by
  refine (ensures_instructions keeps numbered split (keeps.blocks b member).instructions (keeps.reads b member)).bind ?_
  rintro instrs sel₁ ⟨numbered, destined, coded⟩
  split
  · exact ensures_error
  · rename_i t found
    have part : before ++ b.instructions <+: f.body := ⟨rest, by rw [split, List.append_assoc]⟩
    refine (ensures_terminator keeps numbered part ((keeps.blocks b member).exit t found)
      (keeps.exits b member t found)).bind ?_
    rintro exit _ ⟨rfl, tests⟩
    exact ensures_pure ⟨numbered, destined, ⟨fun i member => (coded i member).1, tests⟩, fun i member => (coded i member).2⟩

theorem ensures_blocks (keeps : f.KeepsTruth) {bs : List Ir.Block} : ∀ {before : List Instruction} {sel : Selection},
    Numbered before sel → f.body = before ++ bs.flatMap (·.instructions) → bs ⊆ f.blocks →
    Ensures (bs.mapM (block env signature f)) sel fun codes sel' => Numbered f.body sel' ∧
      Destined (defs before).length (bs.flatMap (·.instructions)) (codes.flatMap (·.instrs)) ∧
      ∀ code ∈ codes, code.KeepsBits f.truths ∧ ∀ i ∈ code.instrs, i.CallsBelow (definedIn env.module).length := by
  induction bs with
  | nil =>
    intro before sel numbered split _
    rw [List.flatMap_nil, List.append_nil] at split
    exact ensures_pure ⟨split ▸ numbered, trivial, by rintro code ⟨⟩⟩
  | cons b bs ih =>
    intro before sel numbered split subset
    rw [List.mapM_cons]
    refine (ensures_block keeps numbered (subset (List.mem_cons_self ..)) split).bind ?_
    rintro code sel₁ ⟨numbered, here, first⟩
    refine (ih numbered (by simpa using split) fun b member => subset (List.mem_cons_of_mem _ member)).bind ?_
    rintro codes sel₂ ⟨numbered, destined, others⟩
    rw [defs_append, List.length_append] at destined
    exact ensures_pure ⟨numbered, here.append destined, List.forall_mem_cons.mpr ⟨first, others⟩⟩

end Blocks

end Select

/-- The code of a function that keeps truth values, in a program of `count` functions: it has a value for each register that
the function writes, and keeps those of the truth values. -/
structure Function.Keeps (count : Nat) (f : Ir.Function) (code : Function) : Prop where
  values : code.values = (defs f.body).length
  dests : Destined 0 f.body code.body
  bits : code.KeepsBits f.truths
  calls : ∀ b ∈ code.blocks, ∀ i ∈ b.instrs, i.CallsBelow count

theorem selectFunction_keeps {env : Environment} {f : Ir.Function} {code : Function} (keeps : f.KeepsTruth)
    (selected : selectFunction env f = .ok code) : code.Keeps (definedIn env.module).length f := by
  unfold selectFunction at selected
  cases signed : signatureOf f with
  | error e =>
    rw [signed] at selected
    cases selected
  | ok signature =>
    rw [signed] at selected
    simp only [bind, Except.bind] at selected
    split at selected
    · cases selected
    split at selected
    · cases selected
    rename_i result ran
    obtain ⟨blocks, sel⟩ := result
    have start : Numbered [] ⟨[], 0, 0⟩ := ⟨rfl, by rintro id o ⟨⟩⟩
    obtain ⟨numbered, destined, coded⟩ := Select.ensures_blocks keeps start rfl (List.Subset.refl _) blocks sel ran
    split at selected
    · cases selected
      refine ⟨numbered.next, destined, fun b member => ?_, fun b member => ?_⟩
      · exact (coded b (by simpa using member)).1
      · exact (coded b (by simpa using member)).2
    · cases selected

theorem selectFunctions_forall₂ {env : Environment} {fs : List Ir.Function} : ∀ {seen : List String} {codes : List Function},
    selectFunctions env seen fs = .ok codes → List.Forall₂ (fun f code => selectFunction env f = .ok code) fs codes := by
  induction fs with
  | nil =>
    rintro seen codes ⟨⟩
    exact .nil
  | cons f fs ih =>
    intro seen codes selected
    simp only [selectFunctions, bind, Except.bind] at selected
    split at selected
    · cases selected
    rename_i code first
    split at selected
    · cases selected
    rename_i passed
    split at selected
    · cases selected
    rename_i others rest
    cases selected
    exact .cons first (ih rest)

/-- A program has the code of each function with a body, in their order. -/
theorem select_forall₂ {m : Module} {p : Program} (selected : select m = .ok p) :
    ∃ env, env.module = m ∧ List.Forall₂ (fun f code => selectFunction env f = .ok code) (definedIn m) p.functions.toList := by
  unfold select at selected
  simp only [bind, Except.bind] at selected
  split at selected
  · cases selected
  rename_i signatures _
  split at selected
  · cases selected
  rename_i placed _
  split at selected
  · cases selected
  rename_i codes ran
  cases selected
  exact ⟨⟨m, signatures, placed.1⟩, rfl, selectFunctions_forall₂ ran⟩

section Programs

variable {m : Module} {p : Program}

theorem select_size (selected : select m = .ok p) : p.functions.size = (definedIn m).length := by
  obtain ⟨env, -, coded⟩ := select_forall₂ selected
  exact coded.length_eq.symm

theorem select_keeps (selected : select m = .ok p) (keeps : ∀ f ∈ m.functions, f.KeepsTruth) {k : Nat} {f : Ir.Function}
    {code : Function} (function : (definedIn m)[k]? = some f) (place : p.functions[k]? = some code) :
    code.Keeps (definedIn m).length f := by
  obtain ⟨env, rfl, coded⟩ := select_forall₂ selected
  have member : f ∈ env.module.functions := List.mem_of_mem_filter (List.mem_of_getElem? function)
  have place : p.functions.toList[k]? = some code := by rwa [Array.getElem?_toList]
  have chosen : selectFunction env f = .ok code := by
    obtain ⟨inside, rfl⟩ := List.getElem?_eq_some_iff.mp function
    obtain ⟨inside', rfl⟩ := List.getElem?_eq_some_iff.mp place
    exact coded.get inside inside'
  exact selectFunction_keeps (keeps f member) chosen

theorem select_closed (selected : select m = .ok p) (keeps : ∀ f ∈ m.functions, f.KeepsTruth) : p.Closed := by
  intro code member
  obtain ⟨k, inside, rfl⟩ := Array.mem_iff_getElem.mp member
  rw [select_size selected]
  have function := List.getElem?_eq_getElem (select_size selected ▸ inside)
  exact (select_keeps selected keeps function (Array.getElem?_eq_getElem inside)).calls

end Programs

end Machine

end StructLang
