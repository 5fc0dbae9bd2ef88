import Mathlib
import StructLang.Proofs.Ir.References
import StructLang.Proofs.Machine.Simulation
import StructLang.Proofs.Meaning.Modules

namespace StructLang

open Ir

namespace Ir.FunctionBuilder

variable {b : FunctionBuilder} {scope : Scope}

/-- A finished function over numbers is flat. -/
theorem Finished.flat (done : b.Finished) (plain : b.Plain scope) (returns : b.ReturnsMatch)
    (calls : ∀ {dest callee args g}, .call dest callee args ∈ b.build.body → scope.functions.get? callee = some g →
      args.length = g.params.length)
    (params : ∀ p ∈ b.params, p.ty = .int 64) (results : b.returns = .int 64 ∨ b.returns = .void) :
    ∃ entry others, b.build.Flat scope entry others := by
  have laid := done.sound.laid
  obtain ⟨label, blocks⟩ := done.blocks_eq
  obtain ⟨first, others, front⟩ := done.entry
  have shaped : b.build.Shaped ⟨0, first, b.instructions 0, b.exit 0⟩ := done.shaped rfl rfl
  have written {block : Block} (member : block ∈ b.build.blocks) :
      ∃ id ∈ b.attached, block.id = id ∧ block.instructions = b.instructions id ∧ block.terminator = b.exit id := by
    rw [blocks] at member
    obtain ⟨id, placed, rfl⟩ := List.mem_map.mp member
    exact ⟨id, placed, rfl, rfl, rfl⟩
  have placed {i : Instruction} (member : i ∈ b.build.body) : ∃ id, i ∈ b.instructions id := by
    obtain ⟨block, member, here⟩ := List.mem_flatMap.mp member
    obtain ⟨id, -, -, same, -⟩ := written member
    exact ⟨id, same ▸ here⟩
  have slotDefs {r : Reg} (slot : r ∈ defs b.slots) : r ∈ defs (b.instructions 0) := by
    rw [laid.front, defs_append]
    exact List.mem_append_left _ slot
  refine ⟨⟨0, first, b.instructions 0, b.exit 0⟩, others, ?_⟩
  constructor
  case blocks => exact front
  case first => rfl
  case placed => exact shaped.placed
  case once => exact shaped.once
  case calls => exact calls
  case params => exact params
  case results => exact results
  case code =>
    intro i member ordinary
    obtain ⟨id, here⟩ := placed member
    exact plain.code (List.mem_filter.mpr ⟨here, by simp [ordinary]⟩)
  case slots =>
    intro i member slot
    obtain ⟨id, here⟩ := placed member
    cases laid.entry_of_isSlot here slot
    exact plain.slots (List.mem_filter.mpr ⟨here, slot⟩)
  case entryReads =>
    change Ordered b.params.length _ (b.instructions 0)
    rw [laid.front]
    exact ordered_append.mpr ⟨Finished.slots_ordered b _ _, (done.sound.reads 0).mono fun r => Or.inr⟩
  case reads =>
    intro block later
    obtain ⟨id, -, number, same, -⟩ := written (front ▸ List.mem_cons_of_mem _ later)
    have other : id ≠ 0 := by
      have distinct := shaped.placed
      rw [front, List.map_cons, List.nodup_cons] at distinct
      rintro rfl
      exact distinct.1 (List.mem_map.mpr ⟨block, later, number⟩)
    rw [same, laid.others other]
    exact (done.sound.reads id).mono fun r => slotDefs
  case exits =>
    intro block member
    obtain ⟨id, attached, -, same, exit⟩ := written member
    obtain ⟨t, found⟩ := done.exit (laid.placed attached)
    have sound := done.sound.exits found
    refine ⟨t, exit.trans found, plain.exits found, ?_, sound.typed, ?_, ?_⟩
    · intro v read
      refine (sound.reads v read).mono fun r known => ?_
      rw [same]
      refine known.imp slotDefs fun here => (List.filter_sublist.filterMap _).subset here
    · obtain ⟨t', found', formed⟩ := (shaped.blocks block member).exit
      cases (exit.trans found).symm.trans found'
      exact formed.inside
    · rintro value rfl
      exact returns found

end Ir.FunctionBuilder

theorem Signature.irParams_of_isInteger {f : Signature} (int : f.isInteger = true) : ∀ p ∈ f.irParams, p.ty = .int 64 := by
  intro p member
  obtain ⟨p', passed, rfl⟩ := List.mem_map.mp member
  rw [Lower.params_of_isInteger int p' passed]
  rfl

theorem Signature.irReturns_of_isInteger {f : Signature} (int : f.isInteger = true) :
    Ir.Ty.ofSource f.returns = .int 64 ∨ Ir.Ty.ofSource f.returns = .void := by
  rcases Lower.returns_of_isInteger int with number | nothing
  · exact .inl (congrArg _ number)
  · exact .inr (congrArg _ nothing)

/-- The frames of so many calls fit into the memory that can be addressed, and each of them is small enough to be
accepted. -/
def Ir.Module.FitsStack (m : Module) (calls : Nat) : Prop :=
  ∃ room, (∀ g ∈ m.functions, 8 * g.slotIds.length ≤ room) ∧ room + 7 < 0x100000000 ∧
    calls * (room + 16) + 16 < 0x10000000000000000

namespace Document

variable {d : Document} {m : Module}

theorem Assembled.written {scope : Scope} {done : List FunctionDecl} (assembled : d.Assembled scope done m)
    (subset : done ⊆ d.functions) {g : Ir.Function} (member : g ∈ m.functions) :
    ∃ f ∈ Document.signatures d, g.name = f.name ∧ g.params = f.irParams ∧ g.returns = .ofSource f.returns := by
  rcases assembled.each g member with ⟨f, known, rfl⟩ | ⟨f, placed, start, s, result, rfl⟩
  · exact ⟨f, known, rfl, rfl, rfl⟩
  · obtain ⟨written, -⟩ := (Lower.written_body scope true start f).ok result
    exact ⟨f.signature, signature_mem (subset placed), written.name, written.params, written.returns⟩

theorem validate_of_lower {scope : Scope} {blockScoping : Bool} {name : String}
    (lowered : d.lower scope blockScoping name = .ok m) : m.validate = .ok () := by
  simp only [lower] at lowered
  split at lowered
  · cases lowered
  · split at lowered
    · cases lowered
    · cases lowered
      assumption

/-- A call that has a meaning passes as many numbers as the function takes. -/
theorem length_of_call (distinct : d.DistinctFunctions) {bound depth : Nat} {name : String} {args : List Int64} {v : Meaning}
    (answered : d.call bound (depth + 1) name args = some v) {f : Signature}
    (known : (d.check .strict).scope.functions.get? name = some f) : f.params.length = args.length := by
  obtain ⟨f', found, answered⟩ := Option.bind_eq_some_iff.mp answered
  obtain ⟨same, -⟩ := Option.ite_none_right_eq_some.mp answered
  obtain rfl : f'.signature.name = name :=
    eq_of_beq (List.find?_some (p := fun f : FunctionDecl => f.signature.name == name) found)
  rw [functions_scope distinct, find?_of_mem_nodup Signature.name distinct (signature_mem (List.mem_of_find?_eq_some found))]
    at known
  cases known
  exact same

section Flat

variable (distinct : d.DistinctFunctions) (int : d.isInteger = true)
  (assembled : d.Assembled (d.check .strict).scope d.functions.reverse m)
include distinct assembled

/-- A function of the module has the signature that the document declares for its name. -/
theorem signature_written {g : Ir.Function} (member : g ∈ m.functions) {f : Signature}
    (known : (d.check .strict).scope.functions.get? g.name = some f) :
    g.params.length = f.params.length ∧ g.returns = .ofSource f.returns := by
  obtain ⟨f', declared, name, params, returns⟩ := assembled.written (fun f => List.mem_reverse.mp) member
  rw [functions_scope distinct, name, find?_of_mem_nodup Signature.name distinct declared] at known
  cases known
  exact ⟨by simp [params, Signature.irParams], returns⟩

include int

theorem flat_module (valid : m.validate = .ok ()) : m.Flat (d.check .strict).scope where
  globals := assembled.globals
  names := assembled.names ▸ distinct
  params g member := by
    obtain ⟨f, declared, -, params, -⟩ := assembled.written (fun f => List.mem_reverse.mp) member
    rw [params]
    exact Signature.irParams_of_isInteger (signature_isInteger int declared)
  results g member := by
    obtain ⟨f, declared, -, -, returns⟩ := assembled.written (fun f => List.mem_reverse.mp) member
    rw [returns]
    exact Signature.irReturns_of_isInteger (signature_isInteger int declared)
  declarations g member declaration := by
    rcases assembled.each g member with ⟨f, known, rfl⟩ | ⟨f, placed, start, s, result, rfl⟩
    · rfl
    · cases declaration
  known {name f} known := by
    have declared : name ∈ m.functions.map (·.name) := by
      rw [assembled.names]
      rw [functions_scope distinct] at known
      exact List.mem_map.mpr ⟨f, List.mem_of_find?_eq_some known,
        eq_of_beq (List.find?_some (p := fun f : Signature => f.name == name) known)⟩
    obtain ⟨g, member, rfl⟩ := List.mem_map.mp declared
    exact ⟨g, member, rfl, signature_written distinct assembled member known⟩
  bodies g member body := by
    have checked := Module.checkFunction_of_validate valid member
    rcases assembled.each g member with ⟨f, known, rfl⟩ | ⟨f, placed, start, s, result, rfl⟩
    · cases body
    have declared := signature_mem (List.mem_reverse.mp placed)
    have signature := signature_isInteger int declared
    have done := Lower.finished_body result
    obtain ⟨written, -⟩ := (Lower.written_body _ true start f).ok result
    obtain ⟨plain, -⟩ := (Lower.plain_body (isInteger_scope distinct int) start signature
      (body_isInteger int (List.mem_reverse.mp placed))).ok result
    refine done.flat plain (done.checkBody_iff.mp (Module.checkBody_of_checkFunction checked)) ?_ ?_ ?_
    · intro dest callee args g here known
      obtain ⟨block, inside, here⟩ := List.mem_flatMap.mp here
      obtain ⟨before, after, use⟩ := Module.checkUse_of_checkFunction checked inside here
      obtain ⟨g', found, same⟩ := Module.callee_of_checkUse use
      obtain rfl : g'.name = callee := eq_of_beq (List.find?_some (p := fun g : Ir.Function => g.name == callee) found)
      rw [← same]
      exact (signature_written distinct assembled (List.mem_of_find?_eq_some found) known).1
    · rw [written.params]
      exact Signature.irParams_of_isInteger signature
    · rw [written.returns]
      exact Signature.irReturns_of_isInteger signature

end Flat

end Document

namespace Machine

variable {scope : Scope} {m : Module}

/-- A module over numbers whose `main` returns a number comes to that number when it is run. -/
theorem runMain_eq (flat : m.Flat scope) {depth : Nat} (fits : m.FitsStack (depth + 1)) {main : Ir.Function}
    (found : m.function? "main" = some main) (params : main.params = []) (number : main.returns = .int 64) {n : Int64}
    (returns : m.Returns depth "main" [] (some n)) (foreign : Foreign) :
    ∃ steps, ∀ fuel ≥ steps, runMainWith foreign m fuel = .ok n := by
  obtain ⟨room, frames, small, space⟩ := fits
  obtain ⟨g, entry, others, found', blocks, runs⟩ := returns
  cases found.symm.trans found'
  have member := List.mem_of_find?_eq_some found
  have defined : main.isDeclaration = false := by
    cases declared : main.isDeclaration with
    | false => rfl
    | true => rw [flat.declarations main member declared] at blocks; cases blocks
  have isMain : mainOf m = .ok (some .i64) := by
    simp only [mainOf, found, Option.filter_some, defined, Bool.not_false, if_true, params, List.isEmpty_nil, number]
    rfl
  have selected : select m = .ok (programOf m) :=
    select_eq flat fun g member => Nat.lt_of_le_of_lt (Nat.add_le_add_right (frames g member) 7) small
  have halts : Halts foreign (programOf m) (enter (codeOf (environmentOf m) main) #[] (.ofData []) []) (some n.toUInt64) := by
    obtain ⟨first, rest, body⟩ := flat.bodies main member defined
    have grown : ((Memory.ofData []).growTo (frameBase (.ofData []) + 8 * main.slotIds.length)).size =
        frameBase (.ofData []) + 8 * main.slotIds.length :=
      Memory.size_growTo (Nat.le_trans (frameBase_bounds _).1 (Nat.le_add_right ..))
    have start : (Memory.ofData []).size = 16 ∧ frameBase (.ofData []) = 16 := ⟨rfl, rfl⟩
    have frame := frames main member
    have cost : (depth + 1) * (room + 16) = depth * (room + 16) + (room + 16) := Nat.succ_mul ..
    have entered : enter (codeOf (environmentOf m) main) #[] (.ofData []) [] = _ := enter_eq blocks (environmentOf m) [] _ _
    rw [entered]
    refine halts_of_runs flat frames runs body (block_subset (blocks ▸ List.mem_cons_self ..)) (matched_start (by decide)) ?_
      fun memory' _ => rfl
    omega
  obtain ⟨steps, ends⟩ := halts
  refine ⟨steps, fun fuel enough => ?_⟩
  have ran := run_of_le ends enough
  have code := code_findIdx flat found defined
  unfold definedIn at code
  have data : (programOf m).data = [] := rfl
  simp only [runMainWith, isMain, selected, Except.mapError, bind, Except.bind, code, data, ran]
  rfl

end Machine

/-- In documents over numbers, lowering preserves the meaning of `main`. -/
theorem lowering_preserves_meaning {d : Document} (distinct : d.DistinctFunctions) (int : d.isInteger = true)
    {name : String} {m : Module} (lowered : d.lower (d.check .strict).scope true name = .ok m) {bound depth : Nat} {n : Int64}
    (meaning : d.call bound (depth + 1) "main" [] = some (.int n)) (fits : m.FitsStack (depth + 1))
    (foreign : Machine.Foreign) : ∃ steps, ∀ fuel ≥ steps, Machine.runMainWith foreign m fuel = .ok n := by
  have assembled := Document.assembled distinct int lowered
  have flat := Document.flat_module distinct int assembled (Document.validate_of_lower lowered)
  obtain ⟨f, answer, known, isResult, returns⟩ := Document.returns_of_call distinct int assembled depth meaning
  obtain ⟨main, entry, others, found, blocks, runs⟩ := returns
  have here : main.name = "main" := eq_of_beq (List.find?_some (p := fun g : Ir.Function => g.name == "main") found)
  obtain ⟨params, result⟩ := Document.signature_written distinct assembled (List.mem_of_find?_eq_some found) (here ▸ known)
  rw [Document.length_of_call distinct meaning known] at params
  cases answer with
  | none => exact isResult.elim
  | some n' =>
    obtain ⟨rfl, number⟩ := isResult
    rw [number] at result
    exact Machine.runMain_eq flat fits found (List.eq_nil_of_length_eq_zero params) result
      ⟨main, entry, others, found, blocks, runs⟩ foreign

theorem lowering_preserves_meaning_shadowed :
    ∃ d m, parse "function f(n: i64): i64 { while (n > 2) { let n: i64 = 6; return n; } return f(n + 1); }
        function main(): i64 { return -f(1) / 4; }" = .ok d ∧ d.DistinctFunctions ∧ d.isInteger = true ∧
      d.lower (d.check .strict).scope true "m" = .ok m ∧ d.call 5 5 "main" [] = some (.int (-1)) ∧ m.FitsStack 5 ∧
      ∃ steps, ∀ fuel ≥ steps, Machine.runMain m fuel = .ok (-1) := by
  have checked : (match parse "function f(n: i64): i64 { while (n > 2) { let n: i64 = 6; return n; } return f(n + 1); }
        function main(): i64 { return -f(1) / 4; }" with
      | .ok d => decide d.DistinctFunctions && d.isInteger && decide (d.call 5 5 "main" [] = some (.int (-1))) &&
        (match d.lower (d.check .strict).scope true "m" with
          | .ok m => m.functions.all fun g => decide (8 * g.slotIds.length ≤ 64)
          | .error _ => false)
      | .error _ => false) = true := by cbv
  revert checked
  generalize parse _ = result
  intro checked
  cases result with
  | error e => cases checked
  | ok d =>
    simp only [Bool.and_eq_true, decide_eq_true_eq] at checked
    obtain ⟨⟨⟨distinct, int⟩, meaning⟩, written⟩ := checked
    cases lowered : d.lower (d.check .strict).scope true "m" with
    | error e =>
      rw [lowered] at written
      cases written
    | ok m =>
      simp only [lowered, List.all_eq_true, decide_eq_true_eq] at written
      have fits : m.FitsStack 5 := ⟨64, written, by decide, by decide⟩
      exact ⟨d, m, rfl, distinct, int, lowered, meaning, fits,
        lowering_preserves_meaning distinct int lowered meaning fits .absent⟩

end StructLang
