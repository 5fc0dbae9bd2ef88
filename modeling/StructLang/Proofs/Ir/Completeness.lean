import StructLang.Proofs.Ir.Links
import StructLang.Proofs.Ir.Paths

namespace StructLang.Ir

namespace Module

structure Resolves (m : Module) (i : Instruction) : Prop where
  globals : ∀ v, i.Reads v → m.Knows v
  field : ∀ {dest struct base index}, i = .fieldAddr dest struct base index →
    ∃ layout, m.struct? struct = some layout ∧ index < layout.fields.length

structure Complete (m : Module) : Prop where
  instructions : ∀ f ∈ m.functions, ∀ i ∈ f.body, m.Resolves i
  exits : ∀ f ∈ m.functions, ∀ b ∈ f.blocks, ∀ t, b.terminator = some t → ∀ v ∈ t.operands, m.Knows v

variable {m : Module} {f : Function}

theorem knows_of_checkGlobal {v : Value} (checked : m.checkGlobal v = .ok ()) : m.Knows v := by
  rintro name rfl
  simp only [checkGlobal] at checked
  split at checked
  · assumption
  · cases checked

theorem field_of_checkUse {before after : FieldTypes} {dest : Reg} {struct : String} {base : Value} {index : Nat}
    (use : m.checkUse before (.fieldAddr dest struct base index) = .ok after) :
    ∃ layout, m.struct? struct = some layout ∧ index < layout.fields.length := by
  simp only [checkUse] at use
  split at use
  · cases use
  · rename_i ty found
    obtain ⟨layout, named, typed⟩ := Option.bind_eq_some_iff.mp found
    obtain ⟨field, placed, -⟩ := Option.map_eq_some_iff.mp typed
    exact ⟨layout, named, (List.getElem?_eq_some_iff.mp placed).1⟩

theorem resolves_of_checkReferences {before after : FieldTypes} {i : Instruction}
    (checked : m.checkReferences before i = .ok after) : m.Resolves i := by
  simp only [checkReferences, bind_ok_iff] at checked
  obtain ⟨used, use, ⟨⟩, looked, -⟩ := checked
  refine ⟨fun v read => ?_, ?_⟩
  · exact knows_of_checkGlobal ((forM_ok_iff _ _).mp looked v (Instruction.mem_operands_iff.mpr read))
  · rintro dest struct base index rfl
    exact field_of_checkUse use

/-- The check looks up what each instruction of a function names. -/
theorem resolves_of_checkFunction (checked : m.checkFunction f = .ok ()) : ∀ i ∈ f.body, m.Resolves i := by
  rw [checkFunction, andThen_ok_iff, bind_ok_iff] at checked
  obtain ⟨-, types, folded, -⟩ := checked
  intro i member
  obtain ⟨before, after, step⟩ := step_of_foldlM_ok folded i member
  exact resolves_of_checkReferences step

/-- A condition is a truth value, and a global is none. -/
theorem knows_condition_of_checkBody (checked : f.checkBody = .ok ()) {b : Block} (placed : b ∈ f.blocks) {cond : Value}
    {onTrue onFalse : Nat} (exit : b.terminator = some (.condBr cond onTrue onFalse)) : m.Knows cond := by
  rintro name rfl
  cases definition : f.isDeclaration with
  | true =>
    have none : f.blocks = [] := by
      simp only [Function.checkBody, definition, if_true] at checked
      split at checked
      · rename_i empty
        exact List.isEmpty_iff.mp empty
      · cases checked
    rw [none] at placed
    cases placed
  | false =>
    obtain ⟨entry, rest, blocks, formed⟩ := Function.wellFormed_of_checkBody checked definition
    obtain ⟨t, found, shape⟩ := (formed.blocks b placed).exit
    cases found.symm.trans exit
    cases shape.typed

/-- In a module that passes the check, all that instructions and conditions of branches name is there. So the module is
complete exactly if it has the globals that are returned, which are not looked up. -/
theorem valid_references_complete_iff (valid : m.validate = .ok ()) :
    (∀ f ∈ m.functions, ∀ i ∈ f.body, m.Resolves i) ∧
    (∀ f ∈ m.functions, ∀ b ∈ f.blocks, ∀ cond onTrue onFalse,
      b.terminator = some (.condBr cond onTrue onFalse) → m.Knows cond) ∧
    (m.Complete ↔ ∀ f ∈ m.functions, ∀ b ∈ f.blocks, ∀ v, b.terminator = some (.ret (some v)) → m.Knows v) := by
  have checked (f : Function) (member : f ∈ m.functions) := checkFunction_of_validate valid member
  have instructions (f : Function) (member : f ∈ m.functions) := resolves_of_checkFunction (checked f member)
  have conditions (f : Function) (member : f ∈ m.functions) (b : Block) (placed : b ∈ f.blocks) (cond : Value)
      (onTrue onFalse : Nat) (exit : b.terminator = some (.condBr cond onTrue onFalse)) : m.Knows cond :=
    knows_condition_of_checkBody (checkBody_of_checkFunction (checked f member)) placed exit
  refine ⟨instructions, conditions, fun complete f member b placed v exit => ?_, fun returned => ⟨instructions, ?_⟩⟩
  · exact complete.exits f member b placed _ exit v (List.mem_singleton_self v)
  · intro f member b placed t exit v read
    cases t with
    | ret value =>
      cases value with
      | none => cases read
      | some value =>
        cases List.mem_singleton.mp read
        exact returned f member b placed v exit
    | condBr cond onTrue onFalse =>
      cases List.mem_singleton.mp read
      exact conditions f member b placed v onTrue onFalse exit
    | br target => cases read
    | unreachable => cases read

namespace Greeting

def block : Block :=
  ⟨0, "entry", [.fieldAddr ⟨0, .ptr⟩ "Line" (.arg 0 .ptr) 1, .store (.global ".str.0") (.reg ⟨0, .ptr⟩)],
    some (.ret (some (.global ".str.0")))⟩

def function : Function := ⟨"greet", [⟨"line", .ptr⟩], .ptr, [block], false⟩

def module : Module := ⟨"greeting", [⟨"Line", [("number", .int 64), ("text", .ptr)]⟩], [⟨".str.0", "hello"⟩], [function]⟩

def silent : Module :=
  ⟨"silent", [], [], [{ function with blocks := [{ block with instructions := [] }] }]⟩

end Greeting

theorem valid_references_complete_iff_greeting : Greeting.module.validate = .ok () ∧ Greeting.module.Complete := by
  have valid : Greeting.module.validate = .ok () := rfl
  refine ⟨valid, (valid_references_complete_iff valid).2.2.mpr fun f member b placed v exit => ?_⟩
  cases List.mem_singleton.mp member
  cases List.mem_singleton.mp placed
  cases exit
  rintro name ⟨⟩
  rfl

/-- A module that passes the check and returns the address of a text that it does not have. -/
theorem valid_references_dangle : Greeting.silent.validate = .ok () ∧ ¬Greeting.silent.Complete := by
  refine ⟨rfl, fun complete => ?_⟩
  have known := complete.exits _ (List.mem_singleton_self _) _ (List.mem_singleton_self _) _ rfl _ (List.mem_singleton_self _)
  cases known ".str.0" rfl

end Module

end StructLang.Ir
