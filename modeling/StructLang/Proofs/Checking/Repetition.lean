import StructLang.Proofs.Checking.Lookups
import StructLang.Proofs.Document.Declarations

namespace StructLang

namespace NameMap

variable {α β : Type} (key : β → String) (value : β → α) (entries : List β)

theorem get?_foldl_insert_elsewhere (table : NameMap α) {name : String} (outside : name ∉ entries.map key) :
    (entries.foldl (fun table e => table.insert (key e) (value e)) table).get? name = table.get? name := by
  have none : entries.reverse.find? (key · == name) = none := by
    rw [List.find?_eq_none]
    intro entry member here
    exact outside (List.mem_map.mpr ⟨entry, List.mem_reverse.mp member, beq_iff_eq.mp here⟩)
  rw [get?_foldl_insert key value, none]
  rfl

/-- Writing entries hides what a table had under their names. -/
theorem get?_foldl_insert_congr {table table' : NameMap α}
    (elsewhere : ∀ name, name ∉ entries.map key → table.get? name = table'.get? name) :
    (entries.foldl (fun table e => table.insert (key e) (value e)) table).get? =
      (entries.foldl (fun table e => table.insert (key e) (value e)) table').get? := by
  funext name
  by_cases inside : name ∈ entries.map key
  · obtain ⟨entry, member, here⟩ := List.mem_map.mp inside
    have found : (entries.reverse.find? (key · == name)).isSome = true :=
      List.find?_isSome.mpr ⟨entry, List.mem_reverse.mpr member, beq_iff_eq.mpr here⟩
    obtain ⟨last, found⟩ := Option.isSome_iff_exists.mp found
    rw [get?_foldl_insert key value, get?_foldl_insert key value, found]
    rfl
  · rw [get?_foldl_insert_elsewhere key value entries table inside,
      get?_foldl_insert_elsewhere key value entries table' inside, elsewhere name inside]

end NameMap

theorem Scope.same_register {s : Scope} {d : Document} (functions : s.functions.get? = (s.register d).functions.get?)
    (structs : s.structs.get? = (s.register d).structs.get?) : Same s (s.register d) := by
  rw [register_eq] at functions structs ⊢
  refine ⟨?_, rfl⟩
  rw [context, functions, structs]
  rfl

namespace Checker

/-- Checking bodies adds their own signatures to the functions and nothing else. -/
theorem functions_elsewhere (fs : List FunctionDecl) (c : Checker) {name : String}
    (outside : ∀ f ∈ fs, name ≠ f.signature.name) :
    (fs.foldl (fun c f => (c.function f).2) c).scope.functions.get? name = c.scope.functions.get? name := by
  induction fs generalizing c with
  | nil => rfl
  | cons f rest ih =>
    rw [List.foldl_cons, ih _ fun g member => outside g (List.mem_cons_of_mem _ member), (c.advance_entered f).functions]
    change (c.scope.functions.insert f.signature.name f.signature).get? name = _
    rw [NameMap.get?_insert, if_neg (outside f List.mem_cons_self)]

theorem structs_functions (fs : List FunctionDecl) (c : Checker) :
    (fs.foldl (fun c f => (c.function f).2) c).scope.structs = c.scope.structs := by
  induction fs generalizing c with
  | nil => rfl
  | cons f rest ih => rw [List.foldl_cons, ih, (c.advance_entered f).structs]; rfl

section Registered

variable (c : Checker) (d : Document)

/-- A second registration finds the functions of the first one, also where bodies replaced some of them. -/
theorem functions_registered_again :
    ((c.document d).scope.register d).functions.get? = (c.scope.register d).functions.get? := by
  rw [Scope.register_eq, Scope.register_eq]
  refine NameMap.get?_foldl_insert_congr Signature.name id (Document.signatures d) fun name outside => ?_
  have unchecked (f : FunctionDecl) (member : f ∈ d.functions) : name ≠ f.signature.name := by
    rintro rfl
    exact outside (List.mem_map.mpr ⟨f.signature, Document.signature_mem member, rfl⟩)
  rw [document, functions_elsewhere d.functions _ unchecked, Scope.register_eq]
  exact NameMap.get?_foldl_insert_elsewhere Signature.name id (Document.signatures d) c.scope.functions outside

theorem structs_registered_again :
    ((c.document d).scope.register d).structs.get? = (c.scope.register d).structs.get? := by
  rw [Scope.register_eq, Scope.register_eq]
  refine NameMap.get?_foldl_insert_congr StructDecl.name id (Document.structs d) fun name outside => ?_
  rw [document, structs_functions, Scope.register_eq]
  exact NameMap.get?_foldl_insert_elsewhere StructDecl.name id (Document.structs d) c.scope.structs outside

end Registered

namespace InStep

variable {first second : Diagnostics} {c c' : Checker}

theorem function (step : InStep first second c c') (f : FunctionDecl) :
    InStep first second (c.function f).2 (c'.function f).2 := by
  have functions : c.scope.functions.get? = c'.scope.functions.get? := congrArg Context.functions step.scope.context
  have structs : c.scope.structs.get? = c'.scope.structs.get? := congrArg Context.structs step.scope.context
  have after := inStep_function step.options functions structs f
  obtain ⟨old, reported, reported'⟩ := step.reports
  obtain ⟨new, added, added'⟩ := after.reports
  refine ⟨after.options, after.scope, old ++ new, ?_, ?_⟩
  · simp [added, reported, Diagnostics.append]
  · simp [added', reported', Diagnostics.append]

theorem functions (step : InStep first second c c') (fs : List FunctionDecl) :
    InStep first second (fs.foldl (fun c f => (c.function f).2) c) (fs.foldl (fun c f => (c.function f).2) c') := by
  induction fs generalizing c c' with
  | nil => exact step
  | cons f rest ih => exact ih (step.function f)

end InStep

/-- The two checks of a document go in step, whatever the scope that the first one starts from. -/
theorem inStep_document (c : Checker) (d : Document) :
    InStep c.diagnostics (c.document d).diagnostics (c.document d) ((c.document d).document d) := by
  have options : c.options = (c.document d).options :=
    (extends_functions d.functions { c with scope := c.scope.register d }).options.symm
  have functions := (functions_registered_again c d).symm
  have structs := (structs_registered_again c d).symm
  cases bodies : d.functions with
  | nil =>
    -- no body is entered, so the names and the open blocks are those that the first check started with
    have registers (c : Checker) : c.document d = { c with scope := c.scope.register d } := by
      rw [document, bodies, List.foldl_nil]
    simp only [registers] at functions structs ⊢
    exact ⟨rfl, Scope.same_register functions structs, [], by simp [Diagnostics.append], by simp [Diagnostics.append]⟩
  | cons f rest =>
    have first := @inStep_function { c with scope := c.scope.register d }
      { c.document d with scope := (c.document d).scope.register d } options functions structs f
    have whole := first.functions rest
    rwa [← List.foldl_cons, ← List.foldl_cons, ← bodies] at whole

/-- Checking a document twice in a row reports the same both times, and the second check leaves the scope of the
first: in any scope, with names bound, blocks open and other documents checked before, and whatever names the document
declares more than once. -/
theorem document_twice (c : Checker) (d : Document) :
    ∃ new, (c.document d).diagnostics = c.diagnostics.append new ∧
      ((c.document d).document d).diagnostics = (c.document d).diagnostics.append new ∧
      ((c.document d).document d).options = (c.document d).options ∧
      ((c.document d).document d).scope.Same (c.document d).scope := by
  have step := inStep_document c d
  obtain ⟨new, first, second⟩ := step.reports
  exact ⟨new, first, second, step.options.symm, step.scope.context.symm, step.scope.frames.symm⟩

end Checker

end StructLang
