import StructLang.Proofs.Document.Declarations
import StructLang.Proofs.Parse.Declarations

namespace StructLang

theorem plain_of_parse {text : String} {d : Document} (parsed : parse text = .ok d) : ∀ decl ∈ d, decl.Plain := by
  obtain ⟨_, _, _, ran⟩ := exists_run parsed
  exact Parser.ensures_declarations _ _ _ _ ran

mutual

/-- A document that was read from a text, with or without the documents of its imports. -/
inductive Parsed : Document → Prop
  | text {text read d} (parsed : parse text = .ok read) (attached : Attached read d) : Parsed d

/-- The second document has parsed documents at some of the imports of the first. -/
inductive Attached : Document → Document → Prop
  | nil : Attached [] []
  | keep {decl rest rest'} (others : Attached rest rest') : Attached (decl :: rest) (decl :: rest')
  | attach {path span document rest rest'} (imported : Parsed document) (others : Attached rest rest') :
      Attached (.importOf path span :: rest) (.imported path span document :: rest')

end

theorem Attached.refl : (d : Document) → Attached d d
  | [] => .nil
  | _ :: rest => .keep (refl rest)

section Each

variable {S : Signature → Prop} {T : StructDecl → Prop} {F : FunctionDecl → Prop}

structure Decl.Each (S : Signature → Prop) (T : StructDecl → Prop) (F : FunctionDecl → Prop) (decl : Decl) : Prop where
  signatures : ∀ f ∈ decl.signatures, S f
  structs : ∀ s ∈ decl.structs, T s
  function : ∀ f, decl = .function f → F f

structure Document.Each (S : Signature → Prop) (T : StructDecl → Prop) (F : FunctionDecl → Prop) (d : Document) : Prop where
  signatures : ∀ f ∈ Document.signatures d, S f
  structs : ∀ s ∈ Document.structs d, T s
  functions : ∀ f ∈ d.functions, F f

theorem Document.each_of_decls {d : Document} (each : ∀ decl ∈ d, decl.Each S T F) : d.Each S T F := by
  induction d with
  | nil => exact ⟨by rintro f ⟨⟩, by rintro s ⟨⟩, by rintro f ⟨⟩⟩
  | cons decl rest ih =>
    obtain ⟨first, others⟩ := List.forall_mem_cons.mp each
    refine ⟨List.forall_mem_append.mpr ⟨first.signatures, (ih others).signatures⟩,
      List.forall_mem_append.mpr ⟨first.structs, (ih others).structs⟩, ?_⟩
    exact fun f member => (each _ (function_mem member)).function f rfl

mutual

/-- What all declarations of texts have, those of parsed documents have. -/
theorem Parsed.each (texts : ∀ {text read}, parse text = .ok read → ∀ decl ∈ read, decl.Each S T F) {d : Document} :
    Parsed d → d.Each S T F
  | .text parsed attached => Document.each_of_decls (attached.each texts (texts parsed))

theorem Attached.each (texts : ∀ {text read}, parse text = .ok read → ∀ decl ∈ read, decl.Each S T F)
    {read d : Document} : Attached read d → (∀ decl ∈ read, decl.Each S T F) → ∀ decl ∈ d, decl.Each S T F
  | .nil, _ => by rintro decl ⟨⟩
  | .keep others, each => by
    obtain ⟨first, rest⟩ := List.forall_mem_cons.mp each
    exact List.forall_mem_cons.mpr ⟨first, others.each texts rest⟩
  | .attach imported others, each =>
    have inside := imported.each texts
    List.forall_mem_cons.mpr ⟨⟨inside.signatures, inside.structs, by rintro f ⟨⟩⟩,
      others.each texts (List.forall_mem_cons.mp each).2⟩

end

end Each

def Document.DistinctFields (d : Document) : Prop := ∀ s ∈ Document.structs d, (s.fields.map (·.name)).Nodup

theorem Parsed.distinctFields {d : Document} (parsed : Parsed d) : d.DistinctFields := by
  refine (parsed.each (S := fun _ => True) (F := fun _ => True) fun parsed decl member => ?_).structs
  have plain := plain_of_parse parsed decl member
  refine ⟨fun _ _ => trivial, ?_, fun _ _ => trivial⟩
  cases decl with
  | struct s => exact List.forall_mem_singleton.mpr plain
  | imported => exact plain.elim
  | _ => rintro s ⟨⟩

end StructLang
