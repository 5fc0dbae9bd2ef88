import StructLang.Proofs.Loading.Cycles

namespace StructLang

open Relation

mutual

def Decl.flatten : Decl → List Decl
  | .imported _ _ document => Document.flatten document
  | d => [d]
termination_by structural d => d

/-- The declarations of a document, those of its imports in their place. An import without a document
stays. -/
def Document.flatten : List Decl → List Decl
  | [] => []
  | d :: rest => d.flatten ++ Document.flatten rest
termination_by structural document => document

end

def Document.own (d : Document) : List Decl := d.filter (·.importPath?.isNone)

def FileTree.declarations (t : FileTree) (p : Path) : List Decl := (t.document? p).elim [] Document.own

theorem Decl.flatten_of_none {d : Decl} (other : d.importPath? = none) : d.flatten = [d] := by
  cases d <;> first | rfl | cases other

theorem Decl.flatten_attach {d : Decl} {path : String} (named : d.importPath? = some path) (document : Document) :
    (d.attach document).flatten = Document.flatten document := by
  cases d <;> first | rfl | cases named

structure Additions (active loaded loaded' new : List Path) : Prop where
  all : loaded' = new ++ loaded
  once : new.Nodup
  apart {p} (member : p ∈ new) : p ∉ loaded ∧ p ∉ active

namespace Additions

variable {active loaded between loaded' new more : List Path} {target : Path}

theorem none : Additions active loaded loaded [] := ⟨rfl, List.nodup_nil, fun member => absurd member List.not_mem_nil⟩

theorem trans (first : Additions active loaded between new) (second : Additions active between loaded' more) :
    Additions active loaded loaded' (more ++ new) := by
  refine ⟨?_, List.nodup_append.mpr ⟨second.once, first.once, ?_⟩, ?_⟩
  · rw [second.all, first.all, List.append_assoc]
  · rintro p later q before rfl
    rw [first.all] at second
    exact (second.apart later).1 (List.mem_append_left _ before)
  · intro p member
    rcases List.mem_append.mp member with later | before
    · rw [first.all] at second
      exact ⟨fun done => (second.apart later).1 (List.mem_append_right _ done), (second.apart later).2⟩
    · exact first.apart before

/-- A file is added once its imports are. -/
theorem insert (inside : Additions (active ++ [target]) loaded loaded' new) (idle : target ∉ active)
    (unknown : target ∉ loaded) : Additions active loaded (loaded'.insert target) (target :: new) := by
  have busy : target ∉ new := fun member => (inside.apart member).2 (List.mem_append_right _ (List.mem_singleton_self _))
  have fresh : target ∉ loaded' := by
    rw [inside.all, List.mem_append]
    rintro (member | done)
    · exact busy member
    · exact unknown done
  refine ⟨?_, List.nodup_cons.mpr ⟨busy, inside.once⟩, ?_⟩
  · rw [List.insert_of_not_mem fresh, inside.all, List.cons_append]
  · intro p member
    rcases List.mem_cons.mp member with rfl | later
    · exact ⟨unknown, idle⟩
    · exact ⟨(inside.apart later).1, fun before => (inside.apart later).2 (List.mem_append_left _ before)⟩

end Additions

mutual

/-- An import adds files that its file leads to, and gives their declarations. -/
theorem Loads.additions {t : FileTree} {active loaded loaded' : List Path} {target : Path} {d : Document} :
    Loads t active target loaded d loaded' → ∃ new, Additions active loaded loaded' new ∧
      (∀ p ∈ new, ReflTransGen t.Imports target p) ∧ (Document.flatten d).Perm (new.flatMap t.declarations)
  | .again .. => ⟨[], .none, fun _ member => absurd member List.not_mem_nil, .refl _⟩
  | .opened idle new found inside => by
    obtain ⟨files, added, reached, same⟩ := inside.additions
    refine ⟨target :: files, added.insert idle new, ?_, ?_⟩
    · intro p member
      rcases List.mem_cons.mp member with rfl | later
      · exact .refl
      · obtain ⟨q, imported, leads⟩ := reached p later
        exact .head ((FileTree.imports_iff found).mpr imported) leads
    · rw [List.flatMap_cons, FileTree.declarations, found]
      exact same

theorem Expands.additions {t : FileTree} {active loaded loaded' : List Path} {base : Path} {read d : Document} :
    Expands t active base read loaded d loaded' → ∃ new, Additions active loaded loaded' new ∧
      (∀ p ∈ new, ∃ q ∈ FileTree.importsFrom base read, ReflTransGen t.Imports q p) ∧
      (Document.flatten d).Perm (Document.own read ++ new.flatMap t.declarations)
  | .nil => ⟨[], .none, fun _ member => absurd member List.not_mem_nil, .refl _⟩
  | .keep other others => by
    obtain ⟨files, added, reached, same⟩ := others.additions
    refine ⟨files, added, ?_, ?_⟩
    · rw [FileTree.importsFrom_cons_of_none other]
      exact reached
    · rw [Document.flatten, Decl.flatten_of_none other, Document.own, List.filter_cons_of_pos (by rw [other]; rfl)]
      exact same.cons _
  | .attach named first others => by
    obtain ⟨files, added, reached, same⟩ := first.additions
    obtain ⟨more, added', reached', same'⟩ := others.additions
    refine ⟨more ++ files, added.trans added', ?_, ?_⟩
    · intro p member
      rw [FileTree.importsFrom_cons_of_some named]
      rcases List.mem_append.mp member with later | before
      · obtain ⟨q, imported, leads⟩ := reached' p later
        exact ⟨q, List.mem_cons_of_mem _ imported, leads⟩
      · exact ⟨_, List.mem_cons_self .., reached p before⟩
    · rw [Document.flatten, Decl.flatten_attach named, Document.own, List.filter_cons_of_neg (by rw [named]; simp),
        List.flatMap_append, ← List.append_assoc]
      exact (List.perm_append_comm.trans (same'.append same))

end

/-- Where imports lead to no cycle, loading a file with nothing loaded before gives the declarations of every
file that the imports lead to, each file once. -/
theorem loading_keeps_declarations {t : FileTree} {path : String} {root : Path} (found : t.walk path = .ok root)
    (complete : t.Complete root) (acyclic : ¬t.Cyclic root) :
    ∃ d l, ∃ files : List Path, Load.file t path .fresh = .ok d l ∧ files.Nodup ∧
      (∀ p, p ∈ files ↔ ReflTransGen t.Imports root p) ∧
      (Document.flatten d).Perm (files.flatMap t.declarations) := by
  obtain ⟨read, document⟩ := complete root .refl
  rcases Load.file_fresh_cases found complete document with ⟨d, l, ran, expands⟩ | ⟨_, _, _, back⟩
  · obtain ⟨new, added, reached, same⟩ := expands.additions
    have settled := expands.settled_root document
    have first : root ∉ new := fun member => (added.apart member).1 (List.mem_singleton_self _)
    refine ⟨d, l, root :: new, ran, List.nodup_cons.mpr ⟨first, added.once⟩, ?_, ?_⟩
    · intro p
      constructor
      · intro member
        rcases List.mem_cons.mp member with rfl | later
        · exact .refl
        · obtain ⟨q, imported, leads⟩ := reached p later
          exact .head ((FileTree.imports_iff document).mpr imported) leads
      · intro leads
        have done := (settled.reaches leads List.mem_insert_self List.not_mem_nil).1
        rw [List.mem_insert_iff, added.all, List.mem_append, List.mem_singleton] at done
        rw [List.mem_cons]
        tauto
    · rw [List.flatMap_cons, FileTree.declarations, document]
      exact same
  · exact absurd back.cyclic acyclic

def diamondTree : FileTree where
  files := [(⟨["main.ll"]⟩, .text "import \"lib/a.ll\" import \"lib/b.ll\" function main() { }"),
    (⟨["lib", "a.ll"]⟩, .text "import \"deep/c.ll\" function a() { }"),
    (⟨["lib", "b.ll"]⟩, .text "extern b() import \"./deep/c.ll\""), (⟨["lib", "deep", "c.ll"]⟩, .text "struct C { x: i64 }")]
  directories := []
  current := .root

theorem loading_keeps_declarations_diamond : diamondTree.walk "main.ll" = .ok ⟨["main.ll"]⟩ ∧
    diamondTree.Complete ⟨["main.ll"]⟩ ∧ ¬diamondTree.Cyclic ⟨["main.ll"]⟩ ∧
    ∃ d l, ∃ files : List Path, Load.file diamondTree "main.ll" .fresh = .ok d l ∧ files.Nodup ∧
      (∀ p, p ∈ files ↔ ReflTransGen diamondTree.Imports ⟨["main.ll"]⟩ p) ∧
      (Document.flatten d).Perm (files.flatMap diamondTree.declarations) := by
  have found : diamondTree.walk "main.ll" = .ok ⟨["main.ll"]⟩ := by cbv
  have main : diamondTree.imports? ⟨["main.ll"]⟩ = some [⟨["lib", "a.ll"]⟩, ⟨["lib", "b.ll"]⟩] := by cbv
  have a : diamondTree.imports? ⟨["lib", "a.ll"]⟩ = some [⟨["lib", "deep", "c.ll"]⟩] := by cbv
  have b : diamondTree.imports? ⟨["lib", "b.ll"]⟩ = some [⟨["lib", "deep", "c.ll"]⟩] := by cbv
  have c : diamondTree.imports? ⟨["lib", "deep", "c.ll"]⟩ = some [] := by cbv
  let files : List Path := [⟨["main.ll"]⟩, ⟨["lib", "a.ll"]⟩, ⟨["lib", "b.ll"]⟩, ⟨["lib", "deep", "c.ll"]⟩]
  have member : ⟨["main.ll"]⟩ ∈ files := by simp [files]
  have closed : ∀ q ∈ files, ∃ imports, diamondTree.imports? q = some imports ∧ imports ⊆ files := by
    simp [files, main, a, b, c]
  have acyclic : ¬diamondTree.Cyclic ⟨["main.ll"]⟩ := by
    apply FileTree.Cyclic.not_of_rank member closed fun p => p.names.length
    simp [files, main, a, b, c]
  have complete := FileTree.Complete.of_closed member closed
  exact ⟨found, complete, acyclic, loading_keeps_declarations found complete acyclic⟩

end StructLang
