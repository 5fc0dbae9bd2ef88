import StructLang.Lowering.Document
import StructLang.Proofs.Builder.Entries
import StructLang.Proofs.Scope

namespace StructLang

open Ir

namespace ModuleLower

mutual

theorem addStructsOf_eq (m : ModuleBuilder) : (d : Decl) →
    addStructsOf m d = d.structs.foldl (fun m d => m.addStruct d.layout) m
  | .function _ | .external _ _ | .importOf _ _ | .struct _ => by simp [addStructsOf, Decl.structs]
  | .imported _ _ document => by
    simp only [addStructsOf, Decl.structs]
    exact addStructs_eq m document
termination_by structural d => d

theorem addStructs_eq (m : ModuleBuilder) : (document : List Decl) →
    addStructs m document = (Document.structs document).foldl (fun m d => m.addStruct d.layout) m
  | [] => by simp [addStructs, Document.structs]
  | d :: rest => by
    simp only [addStructs, Document.structs, List.foldl_append]
    rw [addStructsOf_eq m d, addStructs_eq _ rest]
termination_by structural document => document

end

mutual

theorem declareOf_eq (m : ModuleBuilder) : (d : Decl) → declareOf m d = d.signatures.foldl declare m
  | .function _ | .external _ _ | .importOf _ _ | .struct _ => by simp [declareOf, Decl.signatures]
  | .imported _ _ document => by
    simp only [declareOf, Decl.signatures]
    exact declareAll_eq m document
termination_by structural d => d

theorem declareAll_eq (m : ModuleBuilder) : (document : List Decl) →
    declareAll m document = (Document.signatures document).foldl declare m
  | [] => by simp [declareAll, Document.signatures]
  | d :: rest => by
    simp only [declareAll, Document.signatures, List.foldl_append]
    rw [declareOf_eq m d, declareAll_eq _ rest]
termination_by structural document => document

end

end ModuleLower

theorem Document.function_mem {d : Document} {f : FunctionDecl} (member : f ∈ d.functions) : .function f ∈ d := by
  obtain ⟨decl, declared, same⟩ := List.mem_filterMap.mp member
  cases decl <;> cases same
  exact declared

theorem Document.signature_mem {d : Document} {f : FunctionDecl} (member : f ∈ d.functions) :
    f.signature ∈ Document.signatures d := by
  induction d with
  | nil => cases member
  | cons decl rest ih =>
    simp only [Document.signatures, List.mem_append]
    cases decl with
    | function g =>
      simp only [Document.functions, List.filterMap_cons, List.mem_cons] at member
      rcases member with rfl | member
      · exact .inl (by simp [Decl.signatures])
      · exact .inr (ih member)
    | external | struct | importOf | imported => exact .inr (ih member)

theorem Scope.functions_register (d : Document) (name : String) :
    (Scope.register .empty d).functions.get? name = (Document.signatures d).reverse.find? (·.name == name) := by
  have found := latest_iff.mp ((Scope.empty.context_declares d).functions name)
  exact found.symm.trans Option.or_none

theorem Scope.structs_register (d : Document) (name : String) :
    (Scope.register .empty d).structs.get? name = (Document.structs d).reverse.find? (·.name == name) := by
  have found := latest_iff.mp ((Scope.empty.context_declares d).structs name)
  exact found.symm.trans Option.or_none

/-- Among entries of distinct names the first of a name is also the last. -/
theorem find?_reverse_of_nodup {α : Type} (key : α → String) {entries : List α} (distinct : (entries.map key).Nodup)
    (name : String) : entries.reverse.find? (key · == name) = entries.find? (key · == name) := by
  induction entries with
  | nil => rfl
  | cons e rest ih =>
    simp only [List.map_cons, List.nodup_cons] at distinct
    rw [List.reverse_cons, List.find?_append, ih distinct.2, List.find?_cons]
    by_cases here : key e = name
    · have none : rest.find? (key · == name) = none := by
        rw [List.find?_eq_none]
        intro other member same
        exact distinct.1 (List.mem_map.mpr ⟨other, member, (beq_iff_eq.mp same).trans here.symm⟩)
      simp [here, none]
    · simp [beq_eq_false_iff_ne.mpr here]

namespace Ir.ModuleBuilder

theorem struct?_foldl_addStruct (ds : List StructDecl) (m : ModuleBuilder) (name : String) :
    (ds.foldl (fun m d => m.addStruct d.layout) m).module.struct? name =
      ((ds.reverse.find? (·.name == name)).map (·.layout)).or (m.module.struct? name) := by
  induction ds generalizing m with
  | nil => simp
  | cons d rest ih =>
    rw [List.foldl_cons, ih, struct?_addStruct, List.reverse_cons, List.find?_append]
    cases rest.reverse.find? (·.name == name) with
    | some found => simp
    | none =>
      by_cases here : name = d.name
      · simp [here, StructDecl.layout]
      · simp [here, Ne.symm here, StructDecl.layout]

theorem structs_foldl_declare (fs : List Signature) (m : ModuleBuilder) :
    (fs.foldl ModuleLower.declare m).module.structs = m.module.structs := by
  induction fs generalizing m with
  | nil => rfl
  | cons f rest ih =>
    rw [List.foldl_cons, ih]
    simp only [ModuleLower.declare, declare]
    split <;> rfl

theorem blocks_foldl_declare (fs : List Signature) {m : ModuleBuilder} (empty : ∀ f ∈ m.module.functions, f.blocks = []) :
    ∀ f ∈ (fs.foldl ModuleLower.declare m).module.functions, f.blocks = [] := by
  induction fs generalizing m with
  | nil => exact empty
  | cons f rest ih =>
    rw [List.foldl_cons]
    refine ih ?_
    simp only [ModuleLower.declare, declare]
    split
    · exact empty
    · intro g member
      rcases List.mem_append.mp member with member | member
      · exact empty g member
      · cases List.mem_singleton.mp member
        rfl

theorem mem_foldl_declare {fs : List Signature} {m : ModuleBuilder} {g : Function}
    (member : g ∈ (fs.foldl ModuleLower.declare m).module.functions) :
    g ∈ m.module.functions ∨ ∃ f ∈ fs, g = .declaration f.name f.irParams (.ofSource f.returns) := by
  induction fs generalizing m with
  | nil => exact .inl member
  | cons f rest ih =>
    rw [List.foldl_cons] at member
    rcases ih member with before | ⟨f', later, rfl⟩
    · simp only [ModuleLower.declare, declare] at before
      split at before
      · exact .inl before
      · refine (List.mem_append.mp before).imp id fun new => ?_
        exact ⟨f, List.mem_cons_self .., List.mem_singleton.mp new⟩
    · exact .inr ⟨f', List.mem_cons_of_mem _ later, rfl⟩

theorem functions_foldl_addStruct (ds : List StructDecl) (m : ModuleBuilder) :
    (ds.foldl (fun m d => m.addStruct d.layout) m).module.functions = m.module.functions := by
  induction ds generalizing m with
  | nil => rfl
  | cons d rest ih => rw [List.foldl_cons, ih]; rfl

theorem function?_foldl_declare (fs : List Signature) (m : ModuleBuilder) (name : String) :
    (fs.foldl ModuleLower.declare m).module.function? name =
      (m.module.function? name).or ((fs.find? (·.name == name)).map fun f =>
        .declaration f.name f.irParams (.ofSource f.returns)) := by
  induction fs generalizing m with
  | nil => simp
  | cons f rest ih =>
    rw [List.foldl_cons, ih, ModuleLower.declare, function?_declare, List.find?_cons]
    by_cases here : f.name = name
    · simp [here]
    · simp [Ne.symm here, beq_eq_false_iff_ne.mpr here]

end Ir.ModuleBuilder

end StructLang
