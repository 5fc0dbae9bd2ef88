import StructLang.Proofs.Extent.Shapes

namespace StructLang.Ir

open Relation

namespace Module

def Holds (m : Module) (outer inner : String) : Prop :=
  ∃ layout, m.struct? outer = some layout ∧ ∃ field, (field, .struct inner) ∈ layout.fields

structure Finite (m : Module) (name : String) : Prop where
  known : ∀ inner, ReflTransGen m.Holds name inner → ∃ layout, m.struct? inner = some layout
  acyclic : ∀ inner, ReflTransGen m.Holds name inner → ¬TransGen m.Holds inner inner

def Explains (m : Module) (name : String) : LayoutError → Prop
  | .unknownStruct inner => ReflTransGen m.Holds name inner ∧ m.struct? inner = none
  | .containsItself inner => ReflTransGen m.Holds name inner ∧ TransGen m.Holds inner inner

/-- Measuring the first type inside of its structs takes measuring the second one inside of its own. -/
inductive Enters (m : Module) : List String × Ty → List String × Ty → Prop
  | field {visiting name layout field ty} (new : name ∉ visiting) (known : m.struct? name = some layout)
      (member : (field, ty) ∈ layout.fields) : Enters m (visiting, .struct name) (name :: visiting, ty)

variable {m : Module} {visiting : List String} {name inner : String} {e : LayoutError}

theorem length_le_unentered {call : List String × Ty} {calls : List (List String × Ty)}
    (chain : (call :: calls).IsChain m.Enters) : calls.length ≤ m.unentered call.1 := by
  induction calls generalizing call with
  | nil => exact Nat.zero_le _
  | cons next calls ih =>
    obtain ⟨entered, others⟩ := List.isChain_cons_cons.mp chain
    have further := ih others
    cases entered with
    | field new known _ => exact Nat.lt_of_le_of_lt further (unentered_lt known new)

/-- No more structs are entered one inside of the other than there are. -/
theorem length_le_of_enters {calls : List (List String × Ty)} (chain : calls.IsChain m.Enters) :
    calls.length ≤ m.structs.length + 1 := by
  cases calls with
  | nil => exact Nat.zero_le _
  | cons call calls =>
    have fewer : m.unentered call.1 ≤ m.structs.length := List.length_filter_le _ _
    exact Nat.succ_le_succ ((length_le_unentered chain).trans fewer)

/-- The structs that a struct holds can be opened inside of it, if the struct itself can be. -/
theorem shape_of_holds {shape : Shape} (opened : m.shape visiting (.struct name) = .ok shape)
    (holds : m.Holds name inner) : ∃ s, m.shape (name :: visiting) (.struct inner) = .ok s := by
  obtain ⟨-, layout, fields, known, -, all⟩ := shape_struct_ok opened
  obtain ⟨layout', known', field, member⟩ := holds
  cases known.symm.trans known'
  obtain ⟨s, -, opened'⟩ := exists_of_forall₂ all member
  exact ⟨s, opened'⟩

/-- Whatever is inside of a struct that can be opened is new and known, and not inside of itself. -/
theorem finite_of_shape {shape : Shape} (opened : m.shape visiting (.struct name) = .ok shape)
    (reached : ReflTransGen m.Holds name inner) :
    inner ∉ visiting ∧ (∃ layout, m.struct? inner = some layout) ∧ ¬TransGen m.Holds inner inner := by
  induction left : m.unentered visiting using Nat.strongRecOn generalizing visiting name inner shape with
  | ind n ih =>
    obtain ⟨new, layout, -, known, -⟩ := shape_struct_ok opened
    have below {next inner : String} (holds : m.Holds name next) (further : ReflTransGen m.Holds next inner) :
        inner ∉ name :: visiting ∧ (∃ layout, m.struct? inner = some layout) ∧ ¬TransGen m.Holds inner inner := by
      obtain ⟨s, opened'⟩ := shape_of_holds opened holds
      exact ih _ (left ▸ unentered_lt known new) opened' further rfl
    obtain rfl | ⟨next, holds, further⟩ := reached.cases_head
    · refine ⟨new, ⟨layout, known⟩, fun cycle => ?_⟩
      -- The way back would lead through a field to a struct that is being visited.
      obtain ⟨next, holds, back⟩ := TransGen.head'_iff.mp cycle
      exact (below holds back).1 List.mem_cons_self
    · obtain ⟨fresh, rest⟩ := below holds further
      exact ⟨fun member => fresh (List.mem_cons_of_mem _ member), rest⟩

theorem Explains.of_holds {outer : String} (holds : m.Holds outer name) (explains : m.Explains name e) :
    m.Explains outer e := by
  cases e with
  | unknownStruct inner => exact ⟨.head holds explains.1, explains.2⟩
  | containsItself inner => exact ⟨.head holds explains.1, explains.2⟩

/-- An error names a struct that is to blame, if the structs being visited lead to the one that is opened. -/
theorem explains_of_shape (failed : m.shape visiting (.struct name) = .error e)
    (outer : ∀ v ∈ visiting, TransGen m.Holds v name) : m.Explains name e := by
  induction left : m.unentered visiting using Nat.strongRecOn generalizing visiting name with
  | ind n ih =>
    by_cases entered : name ∈ visiting
    · rw [shape_entered entered] at failed
      cases failed
      exact ⟨.refl, outer name entered⟩
    · cases known : m.struct? name with
      | none =>
        rw [shape_unknown entered known] at failed
        cases failed
        exact ⟨.refl, known⟩
      | some layout =>
        rw [shape_struct entered known] at failed
        cases fields : layout.fields.mapM fun field => m.shape (name :: visiting) field.2 with
        | ok shapes =>
          rw [fields] at failed
          cases failed
        | error e' =>
          rw [fields] at failed
          cases failed
          obtain ⟨⟨field, ty⟩, member, inside⟩ := mapM_error fields
          cases ty with
          | struct next =>
            have holds : m.Holds name next := ⟨layout, known, field, member⟩
            have outer' v (visited : v ∈ name :: visiting) : TransGen m.Holds v next := by
              rcases List.mem_cons.mp visited with rfl | before
              · exact .single holds
              · exact (outer v before).tail holds
            exact (ih _ (left ▸ unentered_lt known entered) inside outer' rfl).of_holds holds
          | void | int | float | ptr =>
            rw [shape] at inside
            cases inside

theorem Explains.not_finite (explains : m.Explains name e) : ¬m.Finite name := by
  intro finite
  cases e with
  | unknownStruct inner =>
    obtain ⟨reached, unknown⟩ := explains
    obtain ⟨layout, known⟩ := finite.known inner reached
    cases known.symm.trans unknown
  | containsItself inner => exact finite.acyclic inner explains.1 explains.2

theorem finite_of_fieldShapes {fields : List Shape} (opened : m.fieldShapes name = .ok fields) : m.Finite name := by
  have whole := shape_of_fieldShapes opened
  exact ⟨fun inner reached => (finite_of_shape whole reached).2.1,
    fun inner reached => (finite_of_shape whole reached).2.2⟩

theorem explains_of_fieldShapes (failed : m.fieldShapes name = .error e) : m.Explains name e := by
  have whole : m.shape [] (.struct name) = .error e := by rw [shape_eq_fieldShapes, failed]; rfl
  exact explains_of_shape whole fun v member => absurd member List.not_mem_nil

/-- The computation of an extent comes to an end: no more structs are entered one inside of the other than there are in
the module. Types other than structs always have an extent. A struct has a size, an alignment and offsets if it is
finite; if not, all three are the same error, which names a struct inside of it that is unknown or inside of itself. -/
theorem layout_exists_iff_finite (m : Module) :
    (∀ calls : List (List String × Ty), calls.IsChain m.Enters → calls.length ≤ m.structs.length + 1) ∧
    (∀ ty, (∀ name, ty ≠ .struct name) → ∃ size align, m.sizeOf ty = .ok size ∧ m.alignOf ty = .ok align) ∧
    ∀ name,
      (m.Finite name → ∃ size align offsets, m.sizeOf (.struct name) = .ok size ∧
        m.alignOf (.struct name) = .ok align ∧ m.fieldOffsets name = .ok offsets) ∧
      (¬m.Finite name → ∃ e, m.Explains name e ∧ m.sizeOf (.struct name) = .error e ∧
        m.alignOf (.struct name) = .error e ∧ m.fieldOffsets name = .error e) := by
  refine ⟨fun calls => length_le_of_enters, fun ty plain => ?_, fun name => ?_⟩
  · simp only [sizeOf_eq, alignOf_eq, measure]
    cases ty with
    | struct name => exact absurd rfl (plain name)
    | void | int | float | ptr =>
      rw [shape]
      exact ⟨_, _, rfl, rfl⟩
  · simp only [sizeOf_eq, alignOf_eq, measure, fieldOffsets_eq, shape_eq_fieldShapes]
    cases opened : m.fieldShapes name with
    | ok fields =>
      exact ⟨fun _ => ⟨_, _, _, rfl, rfl, rfl⟩, fun infinite => absurd (finite_of_fieldShapes opened) infinite⟩
    | error e =>
      have explains := explains_of_fieldShapes opened
      exact ⟨fun finite => absurd finite explains.not_finite, fun _ => ⟨e, explains, rfl, rfl, rfl⟩⟩

/-- A struct that is used twice is not taken for a cycle, nor is a pointer; two structs that hold each other are, and a
struct that leads to them is not finite either. A second layout of a name is never looked at. -/
theorem layout_exists_iff_finite_shared :
    ∃ m : Module, m.Finite "Pair" ∧ ¬m.Finite "Tail" ∧
      (∃ size align offsets, m.sizeOf (.struct "Pair") = .ok size ∧ m.alignOf (.struct "Pair") = .ok align ∧
        m.fieldOffsets "Pair" = .ok offsets) ∧
      ∃ e, m.Explains "Tail" e ∧ m.sizeOf (.struct "Tail") = .error e ∧ m.alignOf (.struct "Tail") = .error e ∧
        m.fieldOffsets "Tail" = .error e := by
  let m : Module :=
    { Module.empty "m" with
      structs :=
        [⟨"Pair", [("left", .struct "Item"), ("right", .struct "Item"), ("owner", .ptr)]⟩, ⟨"Item", [("value", .int 64)]⟩,
          ⟨"Item", [("pair", .struct "Pair")]⟩, ⟨"Tail", [("ring", .struct "Ring")]⟩, ⟨"Ring", [("link", .struct "Link")]⟩,
          ⟨"Link", [("ring", .struct "Ring")]⟩] }
  obtain ⟨-, -, decides⟩ := layout_exists_iff_finite m
  have finite : m.Finite "Pair" := by
    by_contra infinite
    obtain ⟨e, -, -, -, failed⟩ := (decides "Pair").2 infinite
    have offsets : m.fieldOffsets "Pair" = .ok [0, 8, 16] := by unfold m; cbv
    cases offsets.symm.trans failed
  have infinite : ¬m.Finite "Tail" := by
    intro finite
    obtain ⟨size, align, offsets, -, -, succeeded⟩ := (decides "Tail").1 finite
    have failed : m.fieldOffsets "Tail" = .error (.containsItself "Ring") := by unfold m; cbv
    cases failed.symm.trans succeeded
  exact ⟨m, finite, infinite, (decides "Pair").1 finite, (decides "Tail").2 infinite⟩

end Module

end StructLang.Ir
