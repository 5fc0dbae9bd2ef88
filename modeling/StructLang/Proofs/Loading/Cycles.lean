import Mathlib
import StructLang.Compiler
import StructLang.Proofs.Loading.Runs

namespace StructLang

open Relation

mutual

/-- No file that is loaded is forgotten, whatever comes of an import. -/
theorem Loads.suffix {t : FileTree} {active loaded loaded' : List Path} {target : Path} {d : Document} :
    Loads t active target loaded d loaded' → loaded <:+ loaded'
  | .again .. => List.suffix_refl _
  | .opened _ _ _ inside => inside.suffix.trans (List.suffix_insert ..)

theorem Expands.suffix {t : FileTree} {active loaded loaded' : List Path} {base : Path} {read d : Document} :
    Expands t active base read loaded d loaded' → loaded <:+ loaded'
  | .nil => List.suffix_refl _
  | .keep _ others => others.suffix
  | .attach _ first others => first.suffix.trans others.suffix

end

mutual

theorem Fails.suffix {t : FileTree} {active loaded loaded' : List Path} {target : Path} {e : LoadError} :
    Fails t active target loaded e loaded' → loaded <:+ loaded'
  | .missing .. | .circular .. | .unreadable .. | .faulty .. => List.suffix_refl _
  | .inside _ _ _ inside => inside.suffix

theorem Stops.suffix {t : FileTree} {active loaded loaded' : List Path} {base : Path} {read : Document} {e : LoadError} :
    Stops t active base read loaded e loaded' → loaded <:+ loaded'
  | .keep _ others => others.suffix
  | .here _ first => first.suffix
  | .later _ first others => first.suffix.trans others.suffix

end

namespace FileTree

def importsFrom (base : Path) (d : Document) : List Path := (d.filterMap Decl.importPath?).map base.resolve

def imports? (t : FileTree) (p : Path) : Option (List Path) := (t.document? p).map (importsFrom (t.baseAt p))

def Imports (t : FileTree) (p q : Path) : Prop := ∃ files, t.imports? p = some files ∧ q ∈ files

def Complete (t : FileTree) (root : Path) : Prop :=
  ∀ p, ReflTransGen t.Imports root p → ∃ d, t.document? p = some d

def Cyclic (t : FileTree) (root : Path) : Prop :=
  ∃ p, ReflTransGen t.Imports root p ∧ TransGen t.Imports p p

variable {t : FileTree} {base p q : Path} {d : Decl} {rest read : Document}

theorem imports_iff (found : t.document? p = some read) : t.Imports p q ↔ q ∈ importsFrom (t.baseAt p) read := by
  simp [Imports, imports?, found]

section

variable {files : List Path} (member : p ∈ files)
  (closed : ∀ q ∈ files, ∃ imports, t.imports? q = some imports ∧ imports ⊆ files)

include member closed

theorem mem_of_reached (reached : ReflTransGen t.Imports p q) : q ∈ files := by
  induction reached with
  | refl => exact member
  | tail _ imports ih =>
    obtain ⟨imported, found, member⟩ := imports
    obtain ⟨_, found', inside⟩ := closed _ ih
    cases found.symm.trans found'
    exact inside member

/-- Files that import only one another can all be read. -/
theorem Complete.of_closed : t.Complete p := by
  intro q reached
  obtain ⟨_, found, -⟩ := closed q (mem_of_reached member closed reached)
  obtain ⟨d, document, -⟩ := Option.map_eq_some_iff.mp found
  exact ⟨d, document⟩

/-- Files that import only files further on are in no cycle. -/
theorem Cyclic.not_of_rank (rank : Path → Nat)
    (rises : ∀ q ∈ files, ∀ imports, t.imports? q = some imports → ∀ r ∈ imports, rank q < rank r) : ¬t.Cyclic p := by
  rintro ⟨q, reached, cycle⟩
  have further {r : Path} (leads : TransGen t.Imports q r) : rank q < rank r ∧ r ∈ files := by
    have inside := mem_of_reached member closed (reached.trans leads.to_reflTransGen)
    induction leads with
    | single imports =>
      obtain ⟨imported, found, here⟩ := imports
      exact ⟨rises q (mem_of_reached member closed reached) imported found _ here, inside⟩
    | tail leads imports ih =>
      obtain ⟨imported, found, here⟩ := imports
      have before := ih (mem_of_reached member closed (reached.trans leads.to_reflTransGen))
      exact ⟨Nat.lt_trans before.1 (rises _ before.2 imported found _ here), inside⟩
  exact Nat.lt_irrefl _ (further cycle).1

end

theorem importsFrom_cons_of_none (other : d.importPath? = none) :
    importsFrom base (d :: rest) = importsFrom base rest := by
  rw [importsFrom, List.filterMap_cons_none other, importsFrom]

theorem importsFrom_cons_of_some {path : String} (named : d.importPath? = some path) :
    importsFrom base (d :: rest) = base.resolve path :: importsFrom base rest := by
  rw [importsFrom, List.filterMap_cons_some named, List.map_cons, importsFrom]

/-- The imports of a file lead on from the files that led to it. -/
theorem Complete.onward (complete : t.Complete p) (active : List Path) (chain : (active ++ [p]).IsChain t.Imports)
    (found : t.document? p = some read) :
    ∀ q ∈ importsFrom (t.baseAt p) read, t.Complete q ∧ (active ++ [p] ++ [q]).IsChain t.Imports := by
  intro q member
  have imports : t.Imports p q := (imports_iff found).mpr member
  refine ⟨fun r reached => complete r (.head imports reached), ?_⟩
  refine List.isChain_append.mpr ⟨chain, List.isChain_singleton q, ?_⟩
  simpa using imports

end FileTree

/-- The files that are loaded and no longer active import only such files, and are in no cycle. -/
structure Settled (t : FileTree) (active loaded : List Path) : Prop where
  closed {p q} (done : p ∈ loaded) (idle : p ∉ active) (imports : t.Imports p q) : q ∈ loaded ∧ q ∉ active
  acyclic {p} (done : p ∈ loaded) (idle : p ∉ active) : ¬TransGen t.Imports p p

namespace Settled

variable {t : FileTree} {active loaded : List Path} {target : Path}

theorem enter (settled : Settled t active loaded) (new : target ∉ loaded) : Settled t (active ++ [target]) loaded := by
  constructor
  · intro p q done idle imports
    obtain ⟨loadedToo, idleToo⟩ := settled.closed done (fun member => idle (List.mem_append_left _ member)) imports
    refine ⟨loadedToo, ?_⟩
    intro member
    rcases List.mem_append.mp member with before | here
    · exact idleToo before
    · exact new (List.mem_singleton.mp here ▸ loadedToo)
  · intro p done idle
    exact settled.acyclic done fun member => idle (List.mem_append_left _ member)

/-- All that a settled file leads to is settled. -/
theorem reaches (settled : Settled t active loaded) {p q : Path} (reached : ReflTransGen t.Imports p q)
    (done : p ∈ loaded) (idle : p ∉ active) : q ∈ loaded ∧ q ∉ active := by
  induction reached with
  | refl => exact ⟨done, idle⟩
  | tail _ imports ih => exact settled.closed ih.1 ih.2 imports

/-- A file is settled once its imports are. It is in no cycle: what it leads to is not active, and it is. -/
theorem leave (settled : Settled t (active ++ [target]) loaded)
    (imported : ∀ q, t.Imports target q → q ∈ loaded ∧ q ∉ active ++ [target]) :
    Settled t active (loaded.insert target) := by
  have outside {q : Path} (idle : q ∉ active ++ [target]) : q ∉ active := fun member => idle (List.mem_append_left _ member)
  have other {p : Path} (idle : p ∉ active) (different : p ≠ target) : p ∉ active ++ [target] := by
    intro member
    rcases List.mem_append.mp member with before | here
    · exact idle before
    · exact different (List.mem_singleton.mp here)
  have before {p : Path} (done : p ∈ loaded.insert target) (different : p ≠ target) : p ∈ loaded :=
    (List.mem_insert_iff.mp done).resolve_left different
  constructor
  · intro p q done idle imports
    by_cases same : p = target
    · obtain ⟨loadedToo, idleToo⟩ := imported q (same ▸ imports)
      exact ⟨List.mem_insert_of_mem loadedToo, outside idleToo⟩
    · obtain ⟨loadedToo, idleToo⟩ := settled.closed (before done same) (other idle same) imports
      exact ⟨List.mem_insert_of_mem loadedToo, outside idleToo⟩
  · intro p done idle cycle
    by_cases same : p = target
    · subst same
      obtain ⟨q, imports, back⟩ := TransGen.head'_iff.mp cycle
      obtain ⟨loadedToo, idleToo⟩ := imported q imports
      exact (settled.reaches back loadedToo idleToo).2 (List.mem_append_right _ (List.mem_singleton_self _))
    · exact settled.acyclic (before done same) (other idle same) cycle

end Settled

mutual

/-- A file that has been loaded is settled. -/
theorem Loads.settled {t : FileTree} {active loaded loaded' : List Path} {target : Path} {d : Document} :
    Loads t active target loaded d loaded' → Settled t active loaded →
      Settled t active loaded' ∧ target ∈ loaded' ∧ target ∉ active
  | .again _ idle done, settled => ⟨settled, done, idle⟩
  | .opened idle new found inside, settled => by
    obtain ⟨inner, imported⟩ := inside.settled (settled.enter new)
    refine ⟨inner.leave ?_, List.mem_insert_self, idle⟩
    intro q imports
    exact imported q ((FileTree.imports_iff found).mp imports)

theorem Expands.settled {t : FileTree} {active loaded loaded' : List Path} {base : Path} {read d : Document} :
    Expands t active base read loaded d loaded' → Settled t active loaded →
      Settled t active loaded' ∧ ∀ q ∈ FileTree.importsFrom base read, q ∈ loaded' ∧ q ∉ active
  | .nil, settled => ⟨settled, fun _ member => absurd member List.not_mem_nil⟩
  | .keep other others, settled => by
    rw [FileTree.importsFrom_cons_of_none other]
    exact others.settled settled
  | .attach named first others, settled => by
    obtain ⟨between, done, idle⟩ := first.settled settled
    obtain ⟨after, imported⟩ := others.settled between
    refine ⟨after, ?_⟩
    intro q member
    rw [FileTree.importsFrom_cons_of_some named] at member
    rcases List.mem_cons.mp member with rfl | later
    · exact ⟨others.suffix.subset done, idle⟩
    · exact imported q later

end

/-- An error that names a chain of imports, the files `active` first, which comes back to one of its files. -/
def ComesBack (t : FileTree) (active : List Path) (e : LoadError) : Prop :=
  ∃ front f, e = .importing (.circular (front ++ [f])) ∧ active <+: front ∧ f ∈ front ∧
    (front ++ [f]).IsChain t.Imports

mutual

/-- Where everything can be read, an import that leads on from the active files fails only by coming back. -/
theorem Fails.comesBack {t : FileTree} {active loaded loaded' : List Path} {target : Path} {e : LoadError} :
    Fails t active target loaded e loaded' → t.Complete target → (active ++ [target]).IsChain t.Imports →
      ComesBack t active e
  | .missing absent, complete, _ => by
    obtain ⟨d, found⟩ := complete _ .refl
    cases absent.symm.trans (FileTree.has_of_document found)
  | .circular _ busy, _, chain => ⟨active, target, rfl, List.prefix_refl _, busy, chain⟩
  | .unreadable _ _ _ failed, complete, _ => by
    obtain ⟨d, found⟩ := complete _ .refl
    obtain ⟨content, read, -⟩ := FileTree.document?_eq_some_iff.mp found
    cases failed.symm.trans read
  | .faulty _ _ read failed, complete, _ => by
    obtain ⟨d, found⟩ := complete _ .refl
    obtain ⟨content, read', parsed⟩ := FileTree.document?_eq_some_iff.mp found
    cases read.symm.trans read'
    cases failed.symm.trans parsed
  | .inside _ _ found inside, complete, chain => by
    obtain ⟨front, f, same, longer, back, path⟩ := inside.comesBack (complete.onward active chain found)
    exact ⟨front, f, same, (List.prefix_append _ _).trans longer, back, path⟩

theorem Stops.comesBack {t : FileTree} {active loaded loaded' : List Path} {base : Path} {read : Document} {e : LoadError} :
    Stops t active base read loaded e loaded' →
      (∀ q ∈ FileTree.importsFrom base read, t.Complete q ∧ (active ++ [q]).IsChain t.Imports) → ComesBack t active e
  | .keep other others, onward => by
    rw [FileTree.importsFrom_cons_of_none other] at onward
    exact others.comesBack onward
  | .here named first, onward => by
    rw [FileTree.importsFrom_cons_of_some named] at onward
    obtain ⟨complete, chain⟩ := onward _ (List.mem_cons_self ..)
    exact first.comesBack complete chain
  | .later named first others, onward => by
    rw [FileTree.importsFrom_cons_of_some named] at onward
    exact others.comesBack fun q member => onward q (List.mem_cons_of_mem _ member)

end

theorem FileTree.leads_of_isChain {t : FileTree} {p q : Path} {between : List Path}
    (chain : (p :: (between ++ [q])).IsChain t.Imports) : TransGen t.Imports p q := by
  induction between generalizing p with
  | nil => exact .single (List.isChain_pair.mp chain)
  | cons r rest ih =>
    obtain ⟨first, others⟩ := List.isChain_cons_cons.mp chain
    exact .head first (ih others)

theorem ComesBack.cyclic {t : FileTree} {root : Path} {e : LoadError} (back : ComesBack t [root] e) : t.Cyclic root := by
  obtain ⟨front, f, -, ⟨rest, rfl⟩, member, chain⟩ := back
  obtain ⟨before, after, split⟩ := List.append_of_mem member
  rw [split] at chain
  have whole : before ++ f :: after ++ [f] = before ++ (f :: (after ++ [f])) := List.append_assoc ..
  rw [whole] at chain
  have cycle : TransGen t.Imports f f := FileTree.leads_of_isChain chain.right_of_append
  refine ⟨f, ?_, cycle⟩
  cases before with
  | nil =>
    cases split
    exact .refl
  | cons first others =>
    cases split
    have front : (root :: (others ++ [f])).IsChain t.Imports := chain.prefix ⟨after ++ [f], by simp⟩
    exact (FileTree.leads_of_isChain front).to_reflTransGen

/-- Once the first file is loaded, nothing is active and every file that was reached is settled. -/
theorem Expands.settled_root {t : FileTree} {root : Path} {read d : Document} {loaded : List Path}
    (found : t.document? root = some read) (expands : Expands t [root] (t.baseAt root) read [root] d loaded) :
    Settled t [] (loaded.insert root) := by
  have start : Settled t [root] [root] := ⟨fun done idle => absurd done idle, fun done idle => absurd done idle⟩
  obtain ⟨settled, imported⟩ := expands.settled start
  apply Settled.leave settled
  intro q imports
  exact imported q ((FileTree.imports_iff found).mp imports)

/-- Where every file can be read, the first one is loaded or its imports come back to one of their files. -/
theorem Load.file_fresh_cases {t : FileTree} {path : String} {root : Path} {read : Document}
    (found : t.walk path = .ok root) (complete : t.Complete root) (document : t.document? root = some read) :
    (∃ d l, file t path .fresh = .ok d l ∧ Expands t [root] (t.baseAt root) read [root] d l.loaded) ∨
    ∃ e l, file t path .fresh = .error e l ∧ ComesBack t [root] e := by
  have ends := ends_file_fresh found document
  cases ran : file t path .fresh with
  | ok d l =>
    rw [ran] at ends
    exact .inl ⟨d, l, rfl, ends⟩
  | error e l =>
    rw [ran] at ends
    have onward := complete.onward [] (List.isChain_singleton root) document
    exact .inr ⟨e, l, rfl, Stops.comesBack ends onward⟩

/-- Loading a file with nothing loaded before succeeds exactly if its imports lead to no cycle, and where it
fails it shows a chain of imports from the file on that comes back to one of its files. -/
theorem loading_succeeds_iff_acyclic {t : FileTree} {path : String} {root : Path} (found : t.walk path = .ok root)
    (complete : t.Complete root) :
    ((∃ d l, Load.file t path .fresh = .ok d l) ↔ ¬t.Cyclic root) ∧
    ∀ e l, Load.file t path .fresh = .error e l → ∃ chain, e = .importing (.circular chain) ∧
      CompileError.message (.load e) =
        "import error: circular import detected: " ++ " -> ".intercalate (chain.map Path.render) ∧
      chain.head? = some root ∧ chain.IsChain t.Imports ∧ ∃ front f, chain = front ++ [f] ∧ f ∈ front := by
  obtain ⟨read, document⟩ := complete root .refl
  rcases Load.file_fresh_cases found complete document with ⟨d, l, ran, expands⟩ | ⟨e, l, ran, back⟩
  · refine ⟨⟨fun _ => ?_, fun _ => ⟨d, l, ran⟩⟩, fun e l' failed => by cases ran.symm.trans failed⟩
    have settled := expands.settled_root document
    rintro ⟨p, reached, cycle⟩
    obtain ⟨done, idle⟩ := settled.reaches reached List.mem_insert_self List.not_mem_nil
    exact settled.acyclic done idle cycle
  · refine ⟨⟨?_, fun acyclic => absurd back.cyclic acyclic⟩, ?_⟩
    · rintro ⟨d, l', loaded⟩
      cases ran.symm.trans loaded
    · intro e' l' failed
      cases ran.symm.trans failed
      obtain ⟨front, f, same, ⟨rest, rfl⟩, member, chain⟩ := back
      refine ⟨_, same, ?_, rfl, chain, _, f, rfl, member⟩
      subst same
      change "import error: " ++ ("circular import detected: " ++ _) = _
      rw [← String.append_assoc]
      rfl

/-- The first file imports two others, and these lead into a cycle that it is not part of. -/
def ringTree : FileTree where
  files := [(⟨["main.ll"]⟩, .text "import \"a.ll\" import \"lib/b.ll\""), (⟨["a.ll"]⟩, .text "import \"./lib//c.ll\""),
    (⟨["lib", "b.ll"]⟩, .text "import \"c.ll\""), (⟨["lib", "c.ll"]⟩, .text "import \"/lib/b.ll\"")]
  directories := []
  current := .root

theorem loading_succeeds_iff_acyclic_ring : ringTree.walk "main.ll" = .ok ⟨["main.ll"]⟩ ∧
    ringTree.Complete ⟨["main.ll"]⟩ ∧ ringTree.Cyclic ⟨["main.ll"]⟩ ∧
    ¬∃ d l, Load.file ringTree "main.ll" .fresh = .ok d l := by
  have found : ringTree.walk "main.ll" = .ok ⟨["main.ll"]⟩ := by cbv
  have main : ringTree.imports? ⟨["main.ll"]⟩ = some [⟨["a.ll"]⟩, ⟨["lib", "b.ll"]⟩] := by cbv
  have a : ringTree.imports? ⟨["a.ll"]⟩ = some [⟨["lib", "c.ll"]⟩] := by cbv
  have b : ringTree.imports? ⟨["lib", "b.ll"]⟩ = some [⟨["lib", "c.ll"]⟩] := by cbv
  have c : ringTree.imports? ⟨["lib", "c.ll"]⟩ = some [⟨["lib", "b.ll"]⟩] := by cbv
  have complete : ringTree.Complete ⟨["main.ll"]⟩ :=
    @FileTree.Complete.of_closed _ _ [⟨["main.ll"]⟩, ⟨["a.ll"]⟩, ⟨["lib", "b.ll"]⟩, ⟨["lib", "c.ll"]⟩] (by simp)
      (by simp [main, a, b, c])
  have cyclic : ringTree.Cyclic ⟨["main.ll"]⟩ :=
    ⟨⟨["lib", "b.ll"]⟩, .single ⟨_, main, by simp⟩, .tail (.single ⟨_, b, by simp⟩) ⟨_, c, by simp⟩⟩
  exact ⟨found, complete, cyclic, fun loaded => (loading_succeeds_iff_acyclic found complete).1.mp loaded cyclic⟩

end StructLang
