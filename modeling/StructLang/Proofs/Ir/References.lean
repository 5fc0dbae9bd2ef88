import StructLang.Proofs.Ir.WellFormed

namespace StructLang.Ir

theorem mapError_ok_iff {α ε ε' : Type} {x : Except ε α} {wrap : ε → ε'} {a : α} :
    x.mapError wrap = .ok a ↔ x = .ok a := by
  cases x with
  | ok v =>
    exact ⟨fun same => congrArg Except.ok (Except.ok.inj same), fun same => congrArg Except.ok (Except.ok.inj same)⟩
  | error e => exact ⟨nofun, nofun⟩

/-- A fold that succeeds has made a step at every element. -/
theorem step_of_foldlM_ok {α σ ε : Type} {step : σ → α → Except ε σ} {as : List α} : ∀ {start final : σ},
    as.foldlM step start = .ok final → ∀ a ∈ as, ∃ before after, step before a = .ok after := by
  induction as with
  | nil => exact fun _ _ member => absurd member List.not_mem_nil
  | cons a rest ih =>
    intro start final folded
    rw [List.foldlM_cons, bind_ok_iff] at folded
    obtain ⟨middle, first, others⟩ := folded
    exact List.forall_mem_cons.mpr ⟨⟨start, middle, first⟩, ih others⟩

namespace Module

variable {m : Module} {f : Function}

theorem checkFunction_of_validateFrom {fs : List Function} : ∀ {seen : List String},
    m.validateFrom seen fs = .ok () → ∀ f ∈ fs, m.checkFunction f = .ok () := by
  induction fs with
  | nil => exact fun _ _ member => absurd member List.not_mem_nil
  | cons f rest ih =>
    intro seen valid
    simp only [validateFrom] at valid
    split at valid
    · cases valid
    · rw [andThen_ok_iff, mapError_ok_iff] at valid
      exact List.forall_mem_cons.mpr ⟨valid.1, ih valid.2⟩

theorem checkFunction_of_validate (valid : m.validate = .ok ()) (member : f ∈ m.functions) :
    m.checkFunction f = .ok () :=
  checkFunction_of_validateFrom valid f member

theorem checkBody_of_checkFunction (checked : m.checkFunction f = .ok ()) : f.checkBody = .ok () := by
  rw [checkFunction, andThen_ok_iff] at checked
  exact checked.1

/-- Every instruction of a checked function has passed the check of what it refers to. -/
theorem checkUse_of_checkFunction (checked : m.checkFunction f = .ok ()) {b : Block} (placed : b ∈ f.blocks)
    {i : Instruction} (member : i ∈ b.instructions) : ∃ before after, m.checkUse before i = .ok after := by
  rw [checkFunction, andThen_ok_iff, bind_ok_iff] at checked
  obtain ⟨-, types, folded, -⟩ := checked
  obtain ⟨before, after, step⟩ :=
    step_of_foldlM_ok folded i (List.mem_flatMap.mpr ⟨b, placed, member⟩)
  simp only [checkReferences, bind_ok_iff] at step
  obtain ⟨used, use, -⟩ := step
  exact ⟨before, used, use⟩

theorem callee_of_checkUse {before after : FieldTypes} {dest : Option Reg} {callee : String} {args : List Value}
    (use : m.checkUse before (.call dest callee args) = .ok after) :
    ∃ g, m.function? callee = some g ∧ g.params.length = args.length := by
  simp only [checkUse] at use
  split at use
  · cases use
  · rename_i g found
    split at use
    · rename_i same
      exact ⟨g, found, same⟩
    · cases use

end Module

end StructLang.Ir
