import StructLang.Proofs.Lowering.Structure
import StructLang.Proofs.Meaning.Statements

namespace StructLang

open Ir

namespace Ir

/-- The slots of a frame are made one after the other. -/
theorem Runs.allocate {m : Module} {depth : Nat} {f : Function} {args : List Int64} {slots rest : List Instruction}
    {exit : Option Terminator} {result : Option Int64} (plain : ∀ i ∈ slots, ∃ id, i = .alloca ⟨id, .ptr⟩ (.int 64))
    (a : Activation)
    (next : ∀ a' : Activation, (∀ id, (∃ content, a.slots id = some content) ∨ id ∈ (defs slots).map (·.id) →
      ∃ content, a'.slots id = some content) → Runs m depth f args a' rest exit result) :
    Runs m depth f args a (slots ++ rest) exit result := by
  induction slots generalizing a with
  | nil => exact next a fun id held => held.elim (fun held => held) nofun
  | cons i slots ih =>
    obtain ⟨id, rfl⟩ := plain i (List.mem_cons_self ..)
    refine .step rfl (ih (fun i member => plain i (List.mem_cons_of_mem _ member)) _ fun a' held => next a' ?_)
    intro other before
    refine held other ?_
    by_cases here : other = id
    · exact .inl ⟨none, by simp [Activation.setSlot, here]⟩
    · rcases before with before | later
      · exact .inl (by simpa [Activation.setSlot, here] using before)
      · exact .inr (by simpa [defs, Instruction.dest?, here] using later)

end Ir

/-- The locals of a call: the parameters with the numbers that are passed, the last one innermost. -/
def Param.bindAll (ps : List Param) (ns : List Int64) : Locals := ((ps.map (·.name)).zip (ns.map some)).reverse

namespace Lower

variable {scope : Scope} {call : Answers} {site : Site} {s : FunctionState}

/-- A parameter is stored into its slot. -/
theorem resumes_storedParam {index : Nat} {n : Int64} {p : Param} (ty : p.ty = .int 64) (passed : site.args[index]? = some n)
    (ready : Ready s) (unfinished : s.function.isTerminated = false) {slots : Slots} (binds : Binds s slots)
    (grows : (storedParam s index p).function.Grows site.builder) {l : Locals} {result : Option Int64}
    (next : site.Resumes (storedParam s index p).function ((p.name, s.function.nextReg) :: slots) ((p.name, some n) :: l)
      result) :
    site.Resumes s.function slots l result := by
  have laid := ready.sound.laid
  have address : (s.function.alloca (.int 64)).1 = .reg ⟨s.function.nextReg, .ptr⟩ := by rw [laid.alloca_eq]
  have laid₁ := laid.alloca (.int 64)
  have stored := laid₁.grows_emit (i := .store (.arg index (.int 64)) (.reg ⟨s.function.nextReg, .ptr⟩)) rfl
  simp only [storedParam, ty, Ir.Ty.ofSource, address, FunctionBuilder.store] at grows next
  intro a matched
  obtain ⟨content, held⟩ := matched.framed _ (defs_subset (stored.trans grows).slots (laid.mem_slots_alloca _))
  have value : (Value.arg index (.int 64)).eval site.args a = some n := by simpa [Value.eval] using passed
  have unfinished₁ := (laid.isTerminated_alloca (.int 64)).trans unfinished
  exact .alloca (.int 64) laid unfinished (.store laid₁ unfinished₁ grows value held
    (next _ (matched.initialise (binds.fresh ready.sound) p.name n)))

theorem resumes_params : (ps : List Param) → (∀ p ∈ ps, p.ty = .int 64) → (ns : List Int64) → ps.length = ns.length →
    (index : Nat) → site.args.drop index = ns → {s : FunctionState} → Ready s →
    s.function.isTerminated = false → index + ps.length ≤ s.function.params.length → {slots : Slots} → Binds s slots →
    Wp (params index ps) s (fun _ s' => s'.function.isTerminated = false ∧ ∃ slots', Binds s' slots' ∧
      (s'.function.Grows site.builder → ∀ l result,
        site.Resumes s'.function slots' (Param.bindAll ps ns ++ l) result → site.Resumes s.function slots l result))
      fun _ _ => True
  | [], _, [], _, _, _, _, _, unfinished, _, slots, binds => ⟨unfinished, slots, binds, fun _ _ _ next => next⟩
  | p :: rest, tys, n :: ns, same, index, passed, s, ready, unfinished, bound, slots, binds => by
    rw [List.length_cons] at bound
    have laid := ready.sound.laid
    have ty := tys p (List.mem_cons_self ..)
    have first := passes_storedParam p ready (by omega : index < s.function.params.length)
    have here : site.args[index]? = some n := by
      have := congrArg (·[0]?) passed
      simpa [List.getElem?_drop] using this
    have later : site.args.drop (index + 1) = ns := by
      rw [← List.drop_drop, passed]
      rfl
    have declared : Binds (storedParam s index p) ((p.name, s.function.nextReg) :: slots) := by
      refine binds.declare ready.sound p.name ?_ ?_
      · simp only [storedParam, ty]
        exact (laid.alloca (.int 64)).grows_emit rfl
      · simp only [storedParam, ty, Ir.Ty.ofSource]
    have unfinished₁ : (storedParam s index p).function.isTerminated = false :=
      (laid.alloca (.ofSource p.ty)).isTerminated_emit _
    have room : index + 1 + rest.length ≤ (storedParam s index p).function.params.length := by
      rw [first.advances.grows.params]
      omega
    rw [wp_params_cons]
    refine ((passes_params rest (index + 1) first.ready room).and
      (resumes_params rest (fun p member => tys p (List.mem_cons_of_mem _ member)) ns (Nat.succ.inj same) (index + 1) later
        first.ready unfinished₁ room declared)).imp ?_ fun _ _ _ => trivial
    rintro _ s₁ ⟨passes, unfinished', slots', binds', resumes⟩
    refine ⟨unfinished', slots', binds', ?_⟩
    intro grows l result next
    refine resumes_storedParam ty here ready unfinished binds (passes.advances.grows.trans grows) (resumes grows _ result ?_)
    simpa [Param.bindAll] using next

theorem grows_closed (f : FunctionDecl) (laid : s.function.Laid) : s.function.Grows (closed f s).function := by
  unfold closed
  split
  · exact .refl _
  · exact laid.grows_terminate _

/-- A function that has been written runs its body on the numbers that are passed. -/
theorem resumes_body (functions : scope.IsInteger) (answers : site.Answers scope call) (bound : Nat) (m : ModuleBuilder)
    {f : FunctionDecl} (signature : f.signature.isInteger = true) (int : f.body.isInteger = true)
    (same : f.signature.params.length = site.args.length) :
    Wp (body scope true f) (startOf m f) (fun _ s' => s'.function.Grows site.builder → ∀ {flow l' answer},
      f.body.exec call bound (Param.bindAll f.signature.params site.args) = some (flow, l') →
      flow.Followed answer (f.signature.returns = .void ∧ answer = none) →
      site.Resumes (entered m f).function [] [] answer) fun _ _ => True := by
  have ready := ready_entered m f
  have tys := params_of_isInteger signature
  have room : 0 + f.signature.params.length ≤ (entered m f).function.params.length := by
    simp [params_entered, Signature.irParams]
  have binds : Binds (entered m f) [] := ⟨fun _ => rfl, fun _ member => absurd member List.not_mem_nil, List.nodup_nil⟩
  rw [wp_body]
  refine (((stays_params f.signature.params tys 0 ready (integer_entered scope m f) room).passing
    (passes_params f.signature.params 0 ready room)).with
    (resumes_params f.signature.params tys site.args same 0 List.drop_zero ready rfl room binds)).mono ?_
  rintro _ s₁ ⟨⟨passes₁, integer₁⟩, unfinished₁, slots, binds₁, resumes⟩
  refine (((stays_block functions f.body int passes₁.ready integer₁).passingBlock passes₁.ready).with
    (enclosed_block functions answers bound f.body int passes₁.ready integer₁)).mono ?_
  rintro _ s₂ ⟨⟨passes₂, -⟩, enclosed⟩
  intro grows flow l' answer ran ends
  have laid₂ := passes₂.ready.sound.laid
  have grows₂ := (grows_closed f laid₂).trans grows
  refine resumes (passes₂.advances.grows.trans grows₂) [] answer ?_
  rw [List.append_nil]
  refine enclosed.performs binds₁ unfinished₁ grows₂ _ flow l' answer ran ?_
  cases flow with
  | returned value => exact ends
  | next =>
    obtain ⟨void, rfl⟩ := ends
    intro unfinished₂ a matched
    simp only [closed, unfinished₂, void, Bool.false_eq_true, if_false, if_true] at grows
    exact .terminate laid₂ grows .ret

end Lower

/-- What a function answers, and how it comes back with it. -/
theorem Flow.followed_of_answer {returns : Ty} {flow : Flow} {v : Meaning} (answered : flow.answer returns = some v) :
    ∃ answer, v.IsResult returns answer ∧ flow.Followed answer (returns = .void ∧ answer = none) := by
  cases flow with
  | next =>
    obtain ⟨void, same⟩ := Option.ite_none_right_eq_some.mp answered
    cases same
    exact ⟨none, void, void, rfl⟩
  | returned value =>
    cases value with
    | none =>
      obtain ⟨void, same⟩ := Option.ite_none_right_eq_some.mp answered
      cases same
      exact ⟨none, void, rfl⟩
    | some n =>
      obtain ⟨int, same⟩ := Option.ite_none_right_eq_some.mp answered
      cases same
      exact ⟨some n, ⟨rfl, int⟩, rfl⟩

def FunctionDecl.Compiled (scope : Scope) (f : FunctionDecl) (g : Ir.Function) : Prop :=
  ∃ m s, Lower.body scope true f (Lower.startOf m f) = .ok () s ∧ g = s.function.build

/-- If its callees answer as they should, so does a lowered function. -/
theorem FunctionDecl.Compiled.returns {scope : Scope} {f : FunctionDecl} {g : Ir.Function} (compiled : f.Compiled scope g)
    (functions : scope.IsInteger) (signature : f.signature.isInteger = true) (int : f.body.isInteger = true)
    {module : Module} {name : String} (found : module.function? name = some g) {call : Answers} {depth : Nat}
    (answers : ∀ {name ns v}, call name ns = some v → ∃ depth' callee answer, depth = depth' + 1 ∧
      scope.functions.get? name = some callee ∧ v.IsResult callee.returns answer ∧ module.Returns depth' name ns answer)
    {bound : Nat} {args : List Int64} (same : f.signature.params.length = args.length) {flow : Flow} {l : Locals}
    (ran : f.body.exec call bound (Param.bindAll f.signature.params args) = some (flow, l)) {answer : Option Int64}
    (ends : flow.Followed answer (f.signature.returns = .void ∧ answer = none)) : module.Returns depth name args answer := by
  obtain ⟨m, s, written, rfl⟩ := compiled
  have done := Lower.finished_body written
  obtain ⟨plain, -⟩ := (Lower.plain_body functions m signature int).ok written
  let site : Site := ⟨module, depth, s.function, args, done⟩
  have answers : site.Answers scope call := answers
  have resumes := (Lower.resumes_body functions answers bound m signature int same).ok written (.refl _) ran ends
  obtain ⟨label, others, blocks⟩ := done.entry
  refine ⟨_, _, others, found, blocks, ?_⟩
  simp only [done.sound.laid.front]
  refine Runs.allocate (fun i => plain.slots) _ fun a framed => ?_
  exact resumes a ⟨fun r slot => framed r.id (.inr (List.mem_map_of_mem slot)), trivial⟩

end StructLang
