import StructLang.Proofs.Ir.References

namespace StructLang.Ir

theorem foldlM_ok {α σ ε : Type} {step : σ → α → Except ε σ} (invariant : σ → Prop) {as : List α} :
    (∀ a ∈ as, ∀ before, invariant before → ∃ after, step before a = .ok after ∧ invariant after) →
      ∀ {start : σ}, invariant start → ∃ final, as.foldlM step start = .ok final := by
  induction as with
  | nil => exact fun _ start _ => ⟨start, rfl⟩
  | cons a rest ih =>
    intro advance start holds
    obtain ⟨middle, first, holds'⟩ := advance a List.mem_cons_self start holds
    obtain ⟨final, others⟩ := ih (fun a member => advance a (List.mem_cons_of_mem _ member)) holds'
    exact ⟨final, by rw [List.foldlM_cons, bind_ok_iff]; exact ⟨middle, first, others⟩⟩

namespace Module

def fieldType? (m : Module) (struct : String) (index : Nat) : Option Ty := (m.struct? struct).bind (·.type? index)

def Knows (m : Module) (v : Value) : Prop := ∀ name, v = .global name → m.globals.any (·.name == name) = true

structure Links (m : Module) (code : Instruction → Prop) : Prop where
  fields : ∀ {dest struct base index}, code (.fieldAddr dest struct base index) →
    ∃ ty, m.fieldType? struct index = some ty
  stores : ∀ {value r dest struct base index}, code (.store value (.reg r)) →
    code (.fieldAddr dest struct base index) → dest.id = r.id → m.fieldType? struct index = some value.ty
  constants : ∀ {i}, code i → ∀ v ∈ i.operands, m.Knows v

def Calls (m : Module) (code : Instruction → Prop) : Prop :=
  ∀ {dest callee args}, code (.call dest callee args) →
    ∃ g, m.function? callee = some g ∧ g.params.length = args.length

variable {m m' : Module} {code code' : Instruction → Prop}

theorem Links.mono (links : m.Links code) (subset : ∀ i, code' i → code i)
    (structs : m'.structs = m.structs) (globals : m.globals ⊆ m'.globals) : m'.Links code' := by
  have same : ∀ struct index, m'.fieldType? struct index = m.fieldType? struct index := by
    intro struct index
    rw [fieldType?, struct?, structs]
    rfl
  constructor
  · intro dest struct base index there
    rw [same]
    exact links.fields (subset _ there)
  · intro value r dest struct base index there field here
    rw [same]
    exact links.stores (subset _ there) (subset _ field) here
  · intro i there v read name global
    obtain ⟨g, member, named⟩ := List.any_eq_true.mp (links.constants (subset _ there) v read name global)
    exact List.any_eq_true.mpr ⟨g, globals member, named⟩

def Noted (m : Module) (code : Instruction → Prop) (types : FieldTypes) : Prop :=
  ∀ id ty, types.lookup id = some ty → ∃ dest struct base index, code (.fieldAddr dest struct base index) ∧
    dest.id = id ∧ m.fieldType? struct index = some ty

theorem Links.checkUse (links : m.Links code) (calls : m.Calls code) {i : Instruction} (there : code i)
    {types : FieldTypes} (noted : m.Noted code types) : ∃ after, m.checkUse types i = .ok after ∧ m.Noted code after := by
  cases i with
  | call dest callee args =>
    obtain ⟨g, found, same⟩ := calls there
    exact ⟨types, by simp [Module.checkUse, found, same], noted⟩
  | fieldAddr dest struct base index =>
    obtain ⟨ty, found⟩ := links.fields there
    have found' : (m.struct? struct).bind (·.type? index) = some ty := found
    refine ⟨(dest.id, ty) :: types, by simp only [Module.checkUse, found'], ?_⟩
    intro id other looked
    rw [List.lookup_cons] at looked
    split at looked
    · rename_i here
      cases looked
      exact ⟨dest, struct, base, index, there, (beq_iff_eq.mp here).symm, found⟩
    · exact noted id other looked
  | store value addr =>
    cases addr with
    | reg r =>
      simp only [Module.checkUse]
      cases looked : types.lookup r.id with
      | none => exact ⟨types, rfl, noted⟩
      | some ty =>
        obtain ⟨dest, struct, base, index, field, here, found⟩ := noted r.id ty looked
        have typed : value.ty = ty := Option.some.inj ((links.stores there field here).symm.trans found)
        exact ⟨types, by simp only [typed, ↓reduceIte], noted⟩
    | _ => exact ⟨types, rfl, noted⟩
  | _ => exact ⟨types, rfl, noted⟩

theorem checkGlobal_ok {v : Value} (known : m.Knows v) : m.checkGlobal v = .ok () := by
  cases v with
  | global name => simp only [checkGlobal, known name rfl, ↓reduceIte]
  | _ => rfl

theorem Links.checkReferences {code : List Instruction} (links : m.Links (· ∈ code)) (calls : m.Calls (· ∈ code)) :
    ∃ types, code.foldlM m.checkReferences [] = .ok types := by
  refine foldlM_ok (m.Noted (· ∈ code)) (fun i there types noted => ?_) nofun
  obtain ⟨after, used, noted'⟩ := links.checkUse calls there noted
  refine ⟨after, ?_, noted'⟩
  simp only [Module.checkReferences, bind_ok_iff]
  exact ⟨after, used, (), (forM_ok_iff _ _).mpr fun v read => checkGlobal_ok (links.constants there v read), rfl⟩

theorem checkFunction_of_links {f : Function} (checked : f.checkBody = .ok ())
    (links : m.Links (· ∈ f.blocks.flatMap (·.instructions)))
    (calls : m.Calls (· ∈ f.blocks.flatMap (·.instructions))) : m.checkFunction f = .ok () := by
  obtain ⟨types, folded⟩ := links.checkReferences calls
  rw [checkFunction, andThen_ok_iff, bind_ok_iff]
  exact ⟨checked, types, folded, rfl⟩

theorem validateFrom_of_functions {fs : List Function} (checked : ∀ f ∈ fs, m.checkFunction f = .ok ()) :
    ∀ {seen : List String}, (fs.map (·.name)).Nodup → (∀ f ∈ fs, f.name ∉ seen) → m.validateFrom seen fs = .ok () := by
  induction fs with
  | nil => exact fun _ _ => rfl
  | cons f rest ih =>
    intro seen distinct new
    rw [List.map_cons, List.nodup_cons] at distinct
    have unseen : seen.contains f.name = false := by simpa using new f List.mem_cons_self
    simp only [validateFrom, unseen, Bool.false_eq_true, ↓reduceIte]
    rw [andThen_ok_iff, mapError_ok_iff]
    refine ⟨checked f List.mem_cons_self, ih (fun g member => checked g (List.mem_cons_of_mem _ member)) distinct.2 ?_⟩
    intro g member again
    rcases List.mem_cons.mp again with same | before
    · exact distinct.1 (List.mem_map.mpr ⟨g, member, same⟩)
    · exact new g (List.mem_cons_of_mem _ member) before

theorem validate_of_functions (distinct : (m.functions.map (·.name)).Nodup)
    (checked : ∀ f ∈ m.functions, m.checkFunction f = .ok ()) : m.validate = .ok () :=
  validateFrom_of_functions checked distinct fun _ _ => List.not_mem_nil

end Module

end StructLang.Ir
