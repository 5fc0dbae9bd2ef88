import Mathlib
import StructLang.Proofs.Document.Calls
import StructLang.Proofs.Loading.Runs
import StructLang.Proofs.Lowering.Structure
import StructLang.Proofs.Lowering.Truth
import StructLang.Proofs.Machine.Numbering
import StructLang.Proofs.Parse.Acceptance

namespace StructLang

open Ir Relation

section Names

theorem regular_of_parse {text : String} {d : Document} (parsed : parse text = .ok d) : d.isRegular = true := by
  obtain ⟨tokens, c, -, ran⟩ := exists_run parsed
  obtain ⟨ts, -, -, -, derived⟩ := Parser.reads_declarations _ _ _ _ ran
  exact derived.isRegular (plain_of_parse parsed)

structure Document.Named (d : Document) : Prop where
  signatures : ∀ f ∈ Document.signatures d, f.isRegular = true
  fields : ∀ s ∈ Document.structs d, ∀ field ∈ s.fields, field.ty.isNamed = true
  bodies : ∀ f ∈ d.functions, f.body.isRegular = true

/-- A declaration of a text has types with names only. -/
theorem Decl.each_of_isRegular {decl : Decl} (regular : decl.isRegular = true) :
    decl.Each (fun f => f.isRegular = true) (fun s => ∀ field ∈ s.fields, field.ty.isNamed = true)
      fun f => f.body.isRegular = true := by
  cases decl with
  | function f =>
    simp only [Decl.isRegular, Bool.and_eq_true] at regular
    refine ⟨List.forall_mem_singleton.mpr regular.1, by rintro s ⟨⟩, ?_⟩
    rintro g ⟨⟩
    exact regular.2
  | external f => exact ⟨List.forall_mem_singleton.mpr regular, by rintro s ⟨⟩, by rintro f ⟨⟩⟩
  | struct s =>
    simp only [Decl.isRegular, Bool.and_eq_true, List.all_eq_true] at regular
    exact ⟨by rintro f ⟨⟩, List.forall_mem_singleton.mpr regular.1, by rintro f ⟨⟩⟩
  | importOf => exact ⟨by rintro f ⟨⟩, by rintro s ⟨⟩, by rintro f ⟨⟩⟩
  | imported => cases regular

theorem Parsed.named {d : Document} (parsed : Parsed d) : d.Named := by
  have each := parsed.each fun parsed decl member =>
    Decl.each_of_isRegular (List.all_eq_true.mp (regular_of_parse parsed) decl member)
  exact ⟨each.signatures, each.structs, each.functions⟩

end Names

namespace Document

variable {d : Document}

theorem Named.returns (named : d.Named) {f : Signature} (declared : f ∈ Document.signatures d) :
    f.returns.leadsToTruth = false := by
  have regular := named.signatures f declared
  simp only [Signature.isRegular, Bool.and_eq_true] at regular
  exact Ty.leadsToTruth_of_isNamed regular.1

/-- Wherever the checker is, nothing that it knows leads to a truth value. -/
theorem Named.truthless (named : d.Named) {before : List FunctionDecl} (subset : before ⊆ d.functions) :
    (d.checkedUpTo .strict before).scope.Truthless where
  functions known := named.returns (declared_of_known subset known).1
  fields {name s} known field member := by
    have known : d.context.structs name = some s :=
      (congrArg (NameMap.get? · name) (Checker.structs_after before _)).symm.trans known
    rw [structs_context] at known
    have declared := List.mem_reverse.mp (List.mem_of_find?_eq_some known)
    exact Ty.leadsToTruth_of_isNamed (named.fields s declared field member)

/-- The expressions of an accepted document are lowered to code that keeps truth values, if they keep them. -/
theorem Named.sure (named : d.Named) (accepted : (d.check .strict).diagnostics.hasErrors = false)
    (keeps : d.keepsTruth = true) {f : FunctionDecl} (member : f ∈ d.functions) :
    ∀ e ∈ f.body.exprs, Lower.Sure (d.check .strict).scope e := by
  obtain ⟨before, after, here⟩ := List.append_of_mem member
  have subset : before ⊆ d.functions := here ▸ List.subset_append_left ..
  have truthless := named.truthless subset
  obtain ⟨Γ', typed⟩ := functionTyped accepted here
  have plain : (((d.checkedUpTo .strict before).scope.context.declare f.signature).enter f.signature).Truthless := by
    refine .enter (fun {name g} known => ?_) truthless.fields (named.signatures _ (signature_mem member))
    simp only [Context.declare] at known
    split at known
    · cases known
      exact named.returns (signature_mem member)
    · exact truthless.functions known
  intro e inside
  obtain ⟨Γ, ty, plain, typed⟩ := (BlockTyped.exprs f.body (named.bodies f member) plain typed).2 e inside
  have kept : e.keepsTruth .value = true := List.all_eq_true.mp (List.all_eq_true.mp keeps f member) e inside
  exact Lower.steady_expr (named.truthless (List.Subset.refl _)) plain e .value (by rintro ⟨⟩) kept typed

end Document

namespace ModuleLower

variable {scope : Scope} {m m' : ModuleBuilder}

theorem function_keepsTruth {f : FunctionDecl} (steady : Lower.Steady (Lower.body scope true f) fun _ => True)
    (keeps : ∀ g ∈ m.module.functions, g.KeepsTruth) {written : Ir.Function}
    (ran : function scope true f m = .ok written m') : ∀ g ∈ (m'.addFunction written).module.functions, g.KeepsTruth := by
  obtain ⟨s, result, rfl, rfl⟩ := function_ok ran
  have start : Truthful (Lower.startOf m f) := ⟨by rintro block ⟨⟩, by rintro name slot ⟨⟩⟩
  have truthful := ((steady _ start).ok result).1
  obtain ⟨-, gains⟩ := (Lower.written_body scope true m f).ok result
  intro g placed
  rcases ModuleBuilder.mem_put placed with rfl | before
  · exact (Lower.finished_body result).keepsTruth truthful.blocks
  · exact keeps g (gains.functions ▸ before)

theorem functions_keepTruth {fs : List FunctionDecl} (steady : ∀ f ∈ fs, Lower.Steady (Lower.body scope true f) fun _ => True)
    (keeps : ∀ g ∈ m.module.functions, g.KeepsTruth) (ran : functions scope true fs m = .ok () m') :
    ∀ g ∈ m'.module.functions, g.KeepsTruth := by
  induction fs generalizing m with
  | nil =>
    cases ran
    exact keeps
  | cons f rest ih =>
    rw [functions_cons] at ran
    cases result : function scope true f m with
    | error e m₁ =>
      rw [result] at ran
      cases ran
    | ok written m₁ =>
      rw [result] at ran
      have first := function_keepsTruth (steady f (List.mem_cons_self ..)) keeps result
      exact ih (fun f later => steady f (List.mem_cons_of_mem _ later)) first ran

end ModuleLower

/-- The functions of a compiled module keep truth values if the document does. -/
theorem Document.Named.compiled {d : Document} (named : d.Named) (keeps : d.keepsTruth = true) {color : Bool} {source : Source}
    {m : Module} (compiled : Compiler.document ⟨.strict, color⟩ d source = .ok m) : ∀ f ∈ m.functions, f.KeepsTruth := by
  obtain ⟨accepted, lowered⟩ := Compiler.document_ok compiled
  obtain ⟨b, ran, rfl⟩ := Document.lower_ok lowered
  refine ModuleLower.functions_keepTruth (fun f member => ?_) (fun f member => ?_) ran
  · exact Lower.steady_body (named.signatures _ (signature_mem member)) (named.bodies f member)
      (named.sure accepted keeps member)
  · have none := d.blocks_declared (fileStem source.name) f member
    have body : f.body = [] := by rw [Function.body, none, List.flatMap_nil]
    constructor
    · rw [none]
      rintro block ⟨⟩
    · rw [body]
      exact List.nodup_nil
    · rw [none]
      rintro block ⟨⟩
    · rw [none]
      rintro block ⟨⟩

namespace Machine

def start (m : Module) (p : Program) : State :=
  enter (p.functions.getD ((definedIn m).findIdx (·.name == "main")) default) #[] (.ofData p.data) []

def Program.Runs (p : Program) (m : Module) (f : Ir.Function) (code : Function) : Prop :=
  ∃ k : Nat, (definedIn m)[k]? = some f ∧ p.functions[k]? = some code

/-- The code keeps the register in the value, which it writes where the function writes the register. -/
def Function.Assigns (f : Ir.Function) (code : Function) (r : Reg) (n : Nat) : Prop :=
  ∃ i instr, (i, instr) ∈ f.body.zip code.body ∧ i.dest? = some r ∧ instr.dest? = some n

def Frame.HoldsBit (frame : Frame) (f : Ir.Function) (r : Reg) : Prop :=
  (∃ n, Function.Assigns f frame.code r n) ∧
    ∀ n, Function.Assigns f frame.code r n → frame.values[n]? = some 0 ∨ frame.values[n]? = some 1

variable {m : Module} {p : Program}

/-- Running `main` is running the machine from this state. -/
theorem runMain_start {returns : Option Scalar} (runs : mainOf m = .ok returns) (selected : select m = .ok p)
    (foreign : Foreign) (fuel : Nat) : runMainWith foreign m fuel = match run foreign p fuel (start m p) with
      | .finished result => .ok (exitCode returns result)
      | .trapped reason => .error (.trap reason)
      | .outOfFuel => .error .outOfFuel := by
  simp only [runMainWith, runs, selected, Except.mapError, bind, Except.bind]
  rfl

theorem start_within {returns : Option Scalar} (runs : mainOf m = .ok returns) (selected : select m = .ok p) :
    (start m p).Within p := by
  have defined : ∃ f ∈ definedIn m, (f.name == "main") = true := by
    unfold mainOf at runs
    cases found : (m.function? "main").filter (!·.isDeclaration) with
    | none =>
      rw [found] at runs
      cases runs
    | some f =>
      obtain ⟨found, body⟩ := Option.filter_eq_some_iff.mp found
      exact ⟨f, List.mem_filter.mpr ⟨List.mem_of_find?_eq_some found, body⟩, by simpa using List.find?_some found⟩
  have inside : (definedIn m).findIdx (·.name == "main") < p.functions.size := by
    rw [select_size selected]
    exact List.findIdx_lt_length_of_exists defined
  have main : p.functions.getD ((definedIn m).findIdx (·.name == "main")) default ∈ p.functions := by
    rw [Array.getD_eq_getD_getElem?, Array.getElem?_eq_getElem inside]
    exact Array.getElem_mem inside
  exact ⟨.enter main _ _ _, by rintro c ⟨⟩⟩

theorem Frame.Within.runs {frame : Frame} (within : frame.Within p) (selected : select m = .ok p) :
    ∃ f, p.Runs m f frame.code := by
  obtain ⟨k, inside, same⟩ := Array.mem_iff_getElem.mp within.code
  have function := List.getElem?_eq_getElem (select_size selected ▸ inside)
  exact ⟨_, k, function, same ▸ Array.getElem?_eq_getElem inside⟩

theorem Frame.Within.holdsBit {frame : Frame} (within : frame.Within p) {count : Nat} {f : Ir.Function}
    (keeps : frame.code.Keeps count f) {r : Reg} (written : r ∈ defs f.body) (truth : r.ty = .int 1) : frame.HoldsBit f r := by
  constructor
  · obtain ⟨i, instr, n, pair, dest, value⟩ := keeps.dests.exists_dest written
    exact ⟨n, i, instr, pair, dest, value⟩
  · rintro n ⟨i, instr, pair, dest, value⟩
    obtain ⟨-, place⟩ := keeps.dests.place pair dest value
    have inside : n < frame.values.size := by
      rw [within.size, keeps.values]
      exact (List.getElem?_eq_some_iff.mp place).1
    have bit := within.bits keeps.bits n ⟨r, place, truth⟩
    rw [Array.getD_eq_getD_getElem?, Array.getElem?_eq_getElem inside, Option.getD_some] at bit
    rw [Array.getElem?_eq_getElem inside]
    exact bit.imp (congrArg some) (congrArg some)

/-- In every state that a run of `main` gets to, every register for a truth value holds 0 or 1, in all calls that are going on.
A conditional branch therefore goes to its first target exactly if the lowest bit of its condition is 1. -/
theorem truth_values_stay_bits {d : Document} (parsed : Parsed d) (keeps : d.keepsTruth = true) {color : Bool}
    {source : StructLang.Source} {m : Module} (compiled : Compiler.document ⟨.strict, color⟩ d source = .ok m)
    {returns : Option Scalar} (runs : mainOf m = .ok returns) {p : Program} (selected : select m = .ok p)
    {foreign : Foreign} {s : State} (reached : ReflTransGen (Next foreign p) (start m p) s) :
    (∀ frame ∈ s.frames, (∃ f, p.Runs m f frame.code) ∧
      ∀ f, p.Runs m f frame.code → ∀ r ∈ defs f.body, r.ty = .int 1 → frame.HoldsBit f r) ∧
    ∀ w onTrue onFalse, s.branch? = some (w, onTrue, onFalse) →
      step foreign p s = .next ⟨s.memory, s.frame.goTo (if w &&& 1 = 1 then onTrue else onFalse), s.callers⟩ := by
  have kept := parsed.named.compiled keeps compiled
  have within := (start_within runs selected).run (select_closed selected kept) reached
  refine ⟨fun frame member => ?_, fun w onTrue onFalse branches => ?_⟩
  · have inside := within.frames member
    refine ⟨inside.runs selected, ?_⟩
    rintro f ⟨k, function, place⟩ r written truth
    exact inside.holdsBit (select_keeps selected kept function place) written truth
  · obtain ⟨f, k, function, place⟩ := within.frame.runs selected
    exact within.branch (select_keeps selected kept function place).bits branches

def walk (foreign : Foreign) (p : Program) : Nat → State → Option State
  | 0, s => some s
  | n + 1, s =>
    match step foreign p s with
    | .next s' => walk foreign p n s'
    | _ => none

theorem reached_of_walk {foreign : Foreign} {n : Nat} {s s' : State} (walked : walk foreign p n s = some s') :
    ReflTransGen (Next foreign p) s s' := by
  induction n generalizing s with
  | zero =>
    cases walked
    exact .refl
  | succ n ih =>
    unfold walk at walked
    split at walked
    · rename_i next
      exact .head next (ih walked)
    · cases walked

def passes (foreign : Foreign) (text name : String) (steps : Nat) (test : Document → Module → Program → State → Bool) : Bool :=
  (parse text).toOption.any fun d => !(d.check .strict).diagnostics.hasErrors &&
    (d.lower (d.check .strict).scope true name).toOption.any fun m => (mainOf m).toOption.isSome &&
      (select m).toOption.any fun p => (walk foreign p steps (start m p)).any (test d m p)

structure Reaches (foreign : Foreign) (text : String) (d : Document) (m : Module) (p : Program) (s : State) : Prop where
  parsed : parse text = .ok d
  compiled : Compiler.document ⟨.strict, false⟩ d ⟨"main.ll", ""⟩ = .ok m
  runs : ∃ returns, mainOf m = .ok returns
  selected : select m = .ok p
  reached : ReflTransGen (Next foreign p) (start m p) s

theorem reaches_of_passes {foreign : Foreign} {text : String} {steps : Nat} {test : Document → Module → Program → State → Bool}
    (passed : passes foreign text (fileStem "main.ll") steps test = true) :
    ∃ d m p s, Reaches foreign text d m p s ∧ test d m p s = true := by
  simp only [passes, Option.any_eq_true, Bool.and_eq_true, Bool.not_eq_true', Option.isSome_iff_exists,
    toOption_eq_some_iff] at passed
  obtain ⟨d, parsed, accepted, m, lowered, runs, p, selected, s, walked, passed⟩ := passed
  refine ⟨d, m, p, s, ⟨parsed, ?_, runs, selected, reached_of_walk walked⟩, passed⟩
  simp only [Compiler.document, accepted, Bool.false_eq_true, ↓reduceIte]
  exact mapError_ok_iff.mpr lowered

def once : Foreign := fun _ _ memory => .ok (1, memory)

/-- A product of truth values in a function that is called by `main`, at the branch on it. The foreign function that is
called before has returned. -/
theorem truth_values_stay_bits_called :
    ∃ d m p s, Reaches once "extern seed(): i64
        function between(a: i64, b: i64): i64 { if ((0 < a) * (a < b)) { return b; } return a; }
        function main(): i64 { return between(seed(), 2) + 0; }" d m p s ∧ d.keepsTruth = true ∧ s.frames.length = 2 ∧
      s.frame.values = #[16, 24, 1, 1, 1, 2, 1, 1, 0, 0] ∧ s.branch? = some (1, 1, 2) ∧
      (∀ frame ∈ s.frames, (∃ f, p.Runs m f frame.code) ∧
        ∀ f, p.Runs m f frame.code → ∀ r ∈ defs f.body, r.ty = .int 1 → frame.HoldsBit f r) ∧
      step once p s = .next ⟨s.memory, s.frame.goTo 1, s.callers⟩ := by
  have passed name : passes once "extern seed(): i64
        function between(a: i64, b: i64): i64 { if ((0 < a) * (a < b)) { return b; } return a; }
        function main(): i64 { return between(seed(), 2) + 0; }" name 12 (fun d _ _ s => d.keepsTruth &&
      decide (s.frames.length = 2 ∧ s.frame.values = #[16, 24, 1, 1, 1, 2, 1, 1, 0, 0] ∧ s.branch? = some (1, 1, 2))) =
      true := by cbv
  obtain ⟨d, m, p, s, reaches, holds⟩ := reaches_of_passes (passed _)
  rw [Bool.and_eq_true, decide_eq_true_eq] at holds
  obtain ⟨keeps, depth, values, branches⟩ := holds
  obtain ⟨returns, runs⟩ := reaches.runs
  obtain ⟨bits, goes⟩ := truth_values_stay_bits (.text reaches.parsed (.refl d)) keeps reaches.compiled runs reaches.selected
    reaches.reached
  exact ⟨d, m, p, s, reaches, keeps, depth, values, branches, bits, goes 1 1 2 branches⟩

def State.strays (m : Module) (p : Program) (s : State) : Bool :=
  match (definedIn m)[0]? with
  | none => false
  | some f => decide (p.functions[0]? = some s.frame.code) && (f.body.zip s.frame.code.body).any fun pair =>
    match pair.1.dest?, pair.2.dest? with
    | some r, some n => decide (r.ty = .int 1 ∧ s.frame.values[n]? ≠ some 0 ∧ s.frame.values[n]? ≠ some 1)
    | _, _ => false

theorem of_strays {s : State} (strays : s.strays m p = true) :
    ∃ f, p.Runs m f s.frame.code ∧ ∃ r ∈ defs f.body, r.ty = .int 1 ∧ ¬s.frame.HoldsBit f r := by
  unfold State.strays at strays
  split at strays
  · cases strays
  rename_i f function
  rw [Bool.and_eq_true, decide_eq_true_eq, List.any_eq_true] at strays
  obtain ⟨place, ⟨i, instr⟩, pair, strays⟩ := strays
  split at strays
  · rename_i r n dest value
    obtain ⟨truth, zero, one⟩ := of_decide_eq_true strays
    have written : r ∈ defs f.body := List.mem_filterMap.mpr ⟨i, (List.of_mem_zip pair).1, dest⟩
    refine ⟨f, ⟨0, function, place⟩, r, written, truth, fun holds => ?_⟩
    exact (holds.2 n ⟨i, instr, pair, dest, value⟩).elim zero one
  · cases strays

/-- A run of the text gets to a branch where a register for a truth value holds neither 0 nor 1. For the value that it tests
it goes to the first target, and `main` returns 1. -/
def Exceeds (text : String) (w : Word) : Prop :=
  ∃ d m p s, Reaches .absent text d m p s ∧
    (∃ f, p.Runs m f s.frame.code ∧ ∃ r ∈ defs f.body, r.ty = .int 1 ∧ ¬s.frame.HoldsBit f r) ∧
    s.branch? = some (w, 1, 2) ∧ step .absent p s = .next ⟨s.memory, s.frame.goTo 1, s.callers⟩ ∧
    ∃ fuel, runMain m fuel = .ok 1

theorem exceeds_of_passes {text : String} (steps : Nat) {w : Word} (nonzero : w ≠ 0)
    (passed : ∀ name, passes .absent text name steps (fun _ m p s => s.strays m p && decide (s.branch? = some (w, 1, 2) ∧
      (mainOf m).toOption = some (some .i64) ∧ run .absent p 9 (start m p) = .finished (some 1))) = true) :
    Exceeds text w := by
  obtain ⟨d, m, p, s, reaches, found⟩ := reaches_of_passes (passed _)
  rw [Bool.and_eq_true, decide_eq_true_eq] at found
  obtain ⟨strays, branches, runs, ended⟩ := found
  have goes : step .absent p s = _ := step_of_branch? branches
  rw [if_pos nonzero] at goes
  have returned := runMain_start (toOption_eq_some_iff.mp runs) reaches.selected .absent 9
  rw [ended] at returned
  exact ⟨d, m, p, s, reaches, of_strays strays, branches, goes, 9, returned⟩

/-- Sums, differences and negations of truth values are computed in the whole byte. The branch on the sum goes to its first
target although the lowest bit is 0. -/
theorem truth_values_exceed_bits :
    Exceeds "function main(): i64 { if ((1 < 2) + (1 < 2)) { return 1; } return 0; }" 2 ∧ (2 : Word) &&& 1 = 0 ∧
      Exceeds "function main(): i64 { if ((2 < 1) - (1 < 2)) { return 1; } return 0; }" 255 ∧
      Exceeds "function main(): i64 { if (-(1 < 2)) { return 1; } return 0; }" 255 := by
  refine ⟨exceeds_of_passes 3 (by decide) ?_, by decide, exceeds_of_passes 3 (by decide) ?_,
    exceeds_of_passes 2 (by decide) ?_⟩
  · intro name
    cbv
  · intro name
    cbv
  · intro name
    cbv

end Machine

end StructLang
