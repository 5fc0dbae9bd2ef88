import StructLang.Proofs.Document.Lowered

namespace StructLang

namespace Checker

def reportsOn (c : Checker) (f : FunctionDecl) : List Diagnostic :=
  (c.function f).2.diagnostics.messages.drop c.diagnostics.size

def functionReports (c : Checker) : List FunctionDecl → List (FunctionDecl × List Diagnostic)
  | [] => []
  | f :: rest => (f, c.reportsOn f) :: functionReports (c.function f).2 rest

def documentReports (c : Checker) (d : Document) : List (FunctionDecl × List Diagnostic) :=
  functionReports { c with scope := c.scope.register d } d.functions

/-- Nothing but the checks of functions adds diagnostics. -/
theorem messages_functions (fs : List FunctionDecl) (c : Checker) :
    (fs.foldl (fun c f => (c.function f).2) c).diagnostics.messages =
      c.diagnostics.messages ++ (c.functionReports fs).flatMap (·.2) := by
  induction fs generalizing c with
  | nil => simp [functionReports]
  | cons f rest ih =>
    obtain ⟨new, added, -⟩ := (c.extends_function f).reports
    have here : c.reportsOn f = new := by simp [reportsOn, added, Diagnostics.append, Diagnostics.size]
    rw [List.foldl_cons, ih, functionReports, List.flatMap_cons, here, added]
    simp [Diagnostics.append]

theorem messages_document (c : Checker) (d : Document) :
    (c.document d).diagnostics.messages = c.diagnostics.messages ++ (c.documentReports d).flatMap (·.2) :=
  messages_functions d.functions _

theorem reportsOn_congr {c c' : Checker} (options : c.options = c'.options)
    (functions : c.scope.functions.get? = c'.scope.functions.get?) (structs : c.scope.structs.get? = c'.scope.structs.get?)
    (f : FunctionDecl) : c.reportsOn f = c'.reportsOn f := by
  obtain ⟨new, added, added'⟩ := (inStep_function options functions structs f).reports
  simp [reportsOn, added, added', Diagnostics.append, Diagnostics.size]

/-- What was checked before a function does not matter to it: all are checked as by a checker with the same tables. -/
theorem functionReports_eq (fs : List FunctionDecl) {c c' : Checker} (options : c.options = c'.options)
    (functions : c.scope.functions.get? = c'.scope.functions.get?) (structs : c.scope.structs.get? = c'.scope.structs.get?)
    (known : ∀ f ∈ fs, c'.scope.functions.get? f.signature.name = some f.signature) :
    c.functionReports fs = fs.map fun f => (f, c'.reportsOn f) := by
  induction fs generalizing c with
  | nil => rfl
  | cons f rest ih =>
    have here : c.scope.functions.get? f.signature.name = some f.signature := by
      rw [functions]
      exact known f List.mem_cons_self
    obtain ⟨options', functions', structs'⟩ := tables_function here
    rw [functionReports, List.map_cons, reportsOn_congr options functions structs,
      ih (options'.trans options) (functions'.trans functions) (structs'.trans structs)
        fun g member => known g (List.mem_cons_of_mem _ member)]

end Checker

def Document.DistinctStructs (d : Document) : Prop := ((Document.structs d).map (·.name)).Nodup

instance (d : Document) : Decidable d.DistinctStructs := inferInstanceAs (Decidable (List.Nodup _))

theorem Document.signatures_eq_flatMap (d : Document) : Document.signatures d = d.flatMap Decl.signatures := by
  induction d with
  | nil => rfl
  | cons decl rest ih => rw [Document.signatures, ih, List.flatMap_cons]

theorem Document.structs_eq_flatMap (d : Document) : Document.structs d = d.flatMap Decl.structs := by
  induction d with
  | nil => rfl
  | cons decl rest ih => rw [Document.structs, ih, List.flatMap_cons]

/-- Among entries of distinct names, the order does not matter to what is found under a name. -/
theorem find?_perm {α : Type} (key : α → String) {entries entries' : List α} (perm : entries.Perm entries')
    (distinct : (entries.map key).Nodup) (name : String) :
    entries.find? (key · == name) = entries'.find? (key · == name) := by
  cases found : entries.find? (key · == name) with
  | none =>
    refine (List.find?_eq_none.mpr fun a member => ?_).symm
    exact List.find?_eq_none.mp found a (perm.mem_iff.mpr member)
  | some a =>
    have named : key a = name := by simpa using List.find?_some found
    have member : a ∈ entries' := perm.mem_iff.mp (List.mem_of_find?_eq_some found)
    rw [← named]
    exact (find?_of_mem_nodup key ((perm.map key).nodup_iff.mp distinct) member).symm

/-- A table that is filled with entries of distinct names in any order finds the same. -/
theorem NameMap.get?_foldl_insert_perm {α : Type} (key : α → String) {entries entries' : List α}
    (perm : entries.Perm entries') (distinct : (entries.map key).Nodup) (table : NameMap α) :
    (entries.foldl (fun table a => table.insert (key a) a) table).get? =
      (entries'.foldl (fun table a => table.insert (key a) a) table).get? := by
  have distinct' := (perm.map key).nodup_iff.mp distinct
  funext name
  have found := get?_foldl_insert key id entries table name
  have found' := get?_foldl_insert key id entries' table name
  rw [find?_reverse_of_nodup key distinct, find?_perm key perm distinct] at found
  rw [find?_reverse_of_nodup key distinct'] at found'
  exact found.trans found'.symm

namespace Document

variable {d d' : Document} (functions : d.DistinctFunctions) (structs : d.DistinctStructs) (perm : d.Perm d')
include perm

theorem signatures_perm : (Document.signatures d).Perm (Document.signatures d') := by
  rw [signatures_eq_flatMap, signatures_eq_flatMap]
  exact perm.flatMap_right _

theorem structs_perm : (Document.structs d).Perm (Document.structs d') := by
  rw [structs_eq_flatMap, structs_eq_flatMap]
  exact perm.flatMap_right _

theorem functions_perm : d.functions.Perm d'.functions := perm.filterMap _

include functions structs in
theorem register_perm (s : Scope) :
    (s.register d).functions.get? = (s.register d').functions.get? ∧
      (s.register d).structs.get? = (s.register d').structs.get? := by
  rw [Scope.register_eq, Scope.register_eq]
  exact ⟨NameMap.get?_foldl_insert_perm Signature.name (signatures_perm perm) functions _,
    NameMap.get?_foldl_insert_perm StructDecl.name (structs_perm perm) structs _⟩

end Document

/-- The order of declarations is not seen by the checker if no function and no struct is declared twice: a rearranged
document gets the same diagnostics up to their order, each function gets the same list of them, and the tables know the
same functions and structs. -/
theorem declaration_order_is_unseen {d d' : Document} (functions : d.DistinctFunctions) (structs : d.DistinctStructs)
    (perm : d.Perm d') (c : Checker) :
    (c.document d).diagnostics.messages.Perm (c.document d').diagnostics.messages ∧
      (c.documentReports d).Perm (c.documentReports d') ∧
      (c.document d).scope.functions.get? = (c.document d').scope.functions.get? ∧
      (c.document d).scope.structs.get? = (c.document d').scope.structs.get? := by
  have functions' : d'.DistinctFunctions := ((Document.signatures_perm perm).map _).nodup_iff.mp functions
  obtain ⟨sameFunctions, sameStructs⟩ := Document.register_perm functions structs perm c.scope
  let start (d : Document) : Checker := { c with scope := c.scope.register d }
  have known f (member : f ∈ d.functions) := c.scope.register_known functions member
  have known' f (member : f ∈ d'.functions) := c.scope.register_known functions' member
  have own : c.documentReports d = d.functions.map fun f => (f, (start d).reportsOn f) :=
    Checker.functionReports_eq d.functions rfl rfl rfl known
  -- The rearranged functions are known to the checker that has registered the first document, too.
  have own' : c.documentReports d' = d'.functions.map fun f => (f, (start d).reportsOn f) :=
    Checker.functionReports_eq d'.functions rfl sameFunctions.symm sameStructs.symm fun f member =>
      known f ((Document.functions_perm perm).mem_iff.mpr member)
  have reports : (c.documentReports d).Perm (c.documentReports d') := by
    rw [own, own']
    exact (Document.functions_perm perm).map _
  obtain ⟨-, table, layouts⟩ := Checker.tables_functions (c := start d) d.functions known
  obtain ⟨-, table', layouts'⟩ := Checker.tables_functions (c := start d') d'.functions known'
  refine ⟨?_, reports, table.trans (sameFunctions.trans table'.symm), layouts.trans (sameStructs.trans layouts'.symm)⟩
  rw [c.messages_document, c.messages_document]
  exact (reports.flatMap_right _).append_left _

/-- Two functions that call each other, one of them with an argument too many, and a struct after the function that uses
it. -/
theorem declaration_order_is_unseen_mutual :
    ∃ d : Document, d.DistinctFunctions ∧ d.DistinctStructs ∧ d.length = 3 ∧
      (d.check .strict).diagnostics.messages.length = 1 ∧
      (d.check .strict).diagnostics.messages.Perm (Document.check d.reverse .strict).diagnostics.messages ∧
      (d.check .strict).scope.functions.get? = (Document.check d.reverse .strict).scope.functions.get? := by
  let function (name : String) (body : List Stmt) : Decl :=
    .function ⟨⟨name, default, .int 64, [], default⟩, ⟨body, default⟩, default⟩
  let d : Document :=
    [function "even" [.letIn default "p" (.struct "P") none, .ret default (some (.call default "odd" default []))],
      .struct ⟨"P", [⟨"x", .int 64, default⟩], default⟩,
      function "odd" [.ret default (some (.call default "even" default [.int default 1]))]]
  have functions : d.DistinctFunctions := by decide
  have structs : d.DistinctStructs := by decide
  obtain ⟨messages, -, tables, -⟩ :=
    declaration_order_is_unseen functions structs d.reverse_perm.symm (.start .strict .empty)
  exact ⟨d, functions, structs, rfl, by decide, messages, tables⟩

end StructLang
