import StructLang.Proofs.Document.Declarations

namespace StructLang

mutual

inductive Decl.Alike : Decl → Decl → Prop
  | function {f g : FunctionDecl} (same : f.signature = g.signature) : Decl.Alike (.function f) (.function g)
  | external {f span} : Decl.Alike (.external f span) (.external f span)
  | struct {d} : Decl.Alike (.struct d) (.struct d)
  | importOf {path span} : Decl.Alike (.importOf path span) (.importOf path span)
  | imported {path span d d'} (inside : Document.Alike d d') : Decl.Alike (.imported path span d) (.imported path span d')

inductive Document.Alike : List Decl → List Decl → Prop
  | nil : Document.Alike [] []
  | cons {decl decl' rest rest'} (first : Decl.Alike decl decl') (others : Document.Alike rest rest') :
      Document.Alike (decl :: rest) (decl' :: rest')

end

inductive Document.SameOutsideImports : Document → Document → Prop
  | nil : SameOutsideImports [] []
  | keep {decl rest rest'} (others : SameOutsideImports rest rest') : SameOutsideImports (decl :: rest) (decl :: rest')
  | imported {path span d d' rest rest'} (inside : Document.Alike d d') (others : SameOutsideImports rest rest') :
      SameOutsideImports (.imported path span d :: rest) (.imported path span d' :: rest')

mutual

theorem Decl.Alike.declares {decl decl' : Decl} : Decl.Alike decl decl' →
    decl.signatures = decl'.signatures ∧ decl.structs = decl'.structs
  | .function same => ⟨congrArg (fun signature => [signature]) same, rfl⟩
  | .external => ⟨rfl, rfl⟩
  | .struct => ⟨rfl, rfl⟩
  | .importOf => ⟨rfl, rfl⟩
  | .imported inside => inside.declares

theorem Document.Alike.declares {d d' : Document} : Document.Alike d d' →
    Document.signatures d = Document.signatures d' ∧ Document.structs d = Document.structs d'
  | .nil => ⟨rfl, rfl⟩
  | .cons first others => by
    obtain ⟨signatures, structs⟩ := first.declares
    obtain ⟨signatures', structs'⟩ := others.declares
    simp only [Document.signatures, Document.structs, signatures, structs, signatures', structs', and_self]

end

namespace Document.SameOutsideImports

variable {d d' : Document}

theorem signatures (same : d.SameOutsideImports d') : Document.signatures d = Document.signatures d' := by
  induction same with
  | nil => rfl
  | keep _ ih => rw [Document.signatures, ih, Document.signatures]
  | imported inside _ ih =>
    simp only [Document.signatures, Decl.signatures, inside.declares.1]
    rw [ih]

theorem structs (same : d.SameOutsideImports d') : Document.structs d = Document.structs d' := by
  induction same with
  | nil => rfl
  | keep _ ih => rw [Document.structs, ih, Document.structs]
  | imported inside _ ih =>
    simp only [Document.structs, Decl.structs, inside.declares.2]
    rw [ih]

/-- The functions with bodies to check and to lower are those of the document itself. -/
theorem functions (same : d.SameOutsideImports d') : d.functions = d'.functions := by
  induction same with
  | nil => rfl
  | @keep decl _ _ _ ih =>
    unfold Document.functions at ih ⊢
    cases decl <;> simp only [List.filterMap_cons, ih]
  | imported _ _ ih => exact ih

end Document.SameOutsideImports

/-- Only signatures and structs cross an import: whatever the bodies of imported functions are, every checker ends
in the same state with the same diagnostics, and lowering with its tables gives the same module or the same error. -/
theorem imported_bodies_are_unseen {d d' : Document} (same : d.SameOutsideImports d') :
    (∀ c : Checker, c.document d = c.document d') ∧ (∀ o, d.check o = d'.check o) ∧
    ∀ o blockScoping name,
      d.lower (d.check o).scope blockScoping name = d'.lower (d'.check o).scope blockScoping name := by
  have checked (c : Checker) : c.document d = c.document d' := by
    simp only [Checker.document, Scope.register_eq, same.signatures, same.structs, same.functions]
  have written scope blockScoping name : ModuleLower.document scope blockScoping d (.start name) =
      ModuleLower.document scope blockScoping d' (.start name) := by
    simp only [ModuleLower.document, ModuleLower.addStructs_eq, ModuleLower.declareAll_eq, same.signatures, same.structs,
      same.functions]
  have checked' o : d.check o = d'.check o := checked _
  refine ⟨checked, checked', fun o blockScoping name => ?_⟩
  simp only [Document.lower, checked' o, written]

/-- The body of a function two imports away is replaced by one that would not be accepted. -/
theorem imported_bodies_are_unseen_nested :
    ∃ d d' : Document, d ≠ d' ∧ d.SameOutsideImports d' ∧ (d.check .strict).diagnostics.hasErrors = false ∧
      d.check .strict = d'.check .strict ∧ (d.lower (d.check .strict).scope true "m").isOk = true ∧
      d.lower (d.check .strict).scope true "m" = d'.lower (d'.check .strict).scope true "m" := by
  let f : Signature := ⟨"f", default, .int 64, [], default⟩
  let main : FunctionDecl :=
    ⟨⟨"main", default, .int 64, [], default⟩, ⟨[.ret default (some (.call default "f" default []))], default⟩, default⟩
  let document (body : List Stmt) (span : Span) : Document :=
    [.function main, .imported "a.ll" default [.imported "b.ll" default [.function ⟨f, ⟨body, span⟩, span⟩]]]
  have same : (document [] ⟨0, 17⟩).SameOutsideImports
      (document [.letIn default "s" .void (some (.string default "text"))] ⟨0, 40⟩) :=
    .keep (.imported (.cons (.imported (.cons (.function rfl) .nil)) .nil) .nil)
  obtain ⟨-, checked, lowered⟩ := imported_bodies_are_unseen same
  refine ⟨_, _, ?_, same, ?_, checked .strict, ?_, lowered .strict true "m"⟩
  · rintro ⟨⟩
  · decide
  · decide

end StructLang
