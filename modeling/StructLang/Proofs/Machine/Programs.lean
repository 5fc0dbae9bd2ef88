import StructLang.Machine.Run
import StructLang.Proofs.Machine.Checks

namespace StructLang

open Ir

structure Ir.Module.Flat (scope : Scope) (m : Module) : Prop where
  globals : m.globals = []
  names : (m.functions.map (·.name)).Nodup
  params : ∀ g ∈ m.functions, ∀ p ∈ g.params, p.ty = .int 64
  results : ∀ g ∈ m.functions, g.returns = .int 64 ∨ g.returns = .void
  bodies : ∀ g ∈ m.functions, g.isDeclaration = false → ∃ entry others, g.Flat scope entry others
  declarations : ∀ g ∈ m.functions, g.isDeclaration = true → g.blocks = []
  known : ∀ {name f}, scope.functions.get? name = some f →
    ∃ g ∈ m.functions, g.name = name ∧ g.params.length = f.params.length ∧ g.returns = .ofSource f.returns

namespace Machine

def definedIn (m : Module) : List Ir.Function := m.functions.filter (!·.isDeclaration)

def signaturesOf (fs : List Ir.Function) : List (String × Signature) :=
  fs.map fun g => (g.name, wordSignature g.params.length g.returns)

def environmentOf (m : Module) : Environment := ⟨m, (signaturesOf m.functions).reverse, []⟩

def programOf (m : Module) : Program := ⟨((definedIn m).map (codeOf (environmentOf m))).toArray, []⟩

theorem lookup_of_mem {α : Type} {entries : List (String × α)} (distinct : (entries.map (·.1)).Nodup) {name : String}
    {a : α} (member : (name, a) ∈ entries) : entries.lookup name = some a := by
  induction entries with
  | nil => cases member
  | cons e rest ih =>
    rw [List.map_cons, List.nodup_cons] at distinct
    rw [List.lookup_cons]
    rcases List.mem_cons.mp member with rfl | later
    · rw [beq_self_eq_true]
    · have other : name ≠ e.1 := fun same => distinct.1 (same ▸ List.mem_map_of_mem later)
      rw [beq_eq_false_iff_ne.mpr other]
      exact ih distinct.2 later

theorem lookup_eq_none {α : Type} {entries : List (String × α)} {name : String} (absent : name ∉ entries.map (·.1)) :
    entries.lookup name = none := by
  rw [List.lookup_eq_none_iff]
  intro e member
  exact bne_iff_ne.mpr fun same => absent (same ▸ List.mem_map_of_mem member)

theorem declareFunctions_eq {fs : List Ir.Function} (params : ∀ g ∈ fs, ∀ p ∈ g.params, p.ty = .int 64)
    (results : ∀ g ∈ fs, g.returns = .int 64 ∨ g.returns = .void) : ∀ {known : List (String × Signature)},
    (known.map (·.1) ++ fs.map (·.name)).Nodup → declareFunctions known fs = .ok ((signaturesOf fs).reverse ++ known) := by
  induction fs with
  | nil => exact fun _ => rfl
  | cons g fs ih =>
    intro known distinct
    have fresh : g.name ∉ known.map (·.1) := fun member =>
      (List.nodup_append.mp distinct).2.2 _ member _ (List.mem_cons_self ..) rfl
    have signature := signatureOf_eq (params g (List.mem_cons_self ..)) (results g (List.mem_cons_self ..))
    have distinct' : (((g.name, wordSignature g.params.length g.returns) :: known).map (·.1) ++ fs.map (·.name)).Nodup :=
      (List.perm_middle.nodup_iff).mp distinct
    simp only [declareFunctions, signature, bind, Except.bind, lookup_eq_none fresh]
    rw [ih (fun g member => params g (List.mem_cons_of_mem _ member))
      (fun g member => results g (List.mem_cons_of_mem _ member)) distinct']
    simp [signaturesOf]

theorem selectFunctions_eq {env : Environment} {fs : List Ir.Function}
    (selected : ∀ g ∈ fs, selectFunction env g = .ok (codeOf env g)) : ∀ {seen : List String},
    (seen ++ fs.map (·.name)).Nodup → selectFunctions env seen fs = .ok (fs.map (codeOf env)) := by
  induction fs with
  | nil => exact fun _ => rfl
  | cons g fs ih =>
    intro seen distinct
    have fresh : seen.contains g.name = false := by
      rw [List.contains_eq_mem, decide_eq_false_iff_not]
      exact fun member => (List.nodup_append.mp distinct).2.2 _ member _ (List.mem_cons_self ..) rfl
    have distinct' : (g.name :: seen ++ fs.map (·.name)).Nodup := (List.perm_middle.nodup_iff).mp distinct
    simp only [selectFunctions, selected g (List.mem_cons_self ..), bind, Except.bind, fresh, Bool.false_eq_true, if_false]
    rw [ih (fun g member => selected g (List.mem_cons_of_mem _ member)) distinct']
    rfl

section Module

variable {scope : Scope} {m : Module} (flat : m.Flat scope)
include flat

theorem knows_environmentOf : (environmentOf m).Knows scope := by
  intro name f found
  obtain ⟨g, member, rfl, params, returns⟩ := flat.known found
  have names : ((signaturesOf m.functions).reverse.map (·.1)).Nodup := by
    rw [List.map_reverse, (List.reverse_perm _).nodup_iff, signaturesOf, List.map_map]
    exact flat.names
  refine lookup_of_mem names (List.mem_reverse.mpr ?_)
  rw [← params, ← returns]
  exact List.mem_map_of_mem member

/-- Selection of a module over numbers succeeds, unless a frame is too large. -/
theorem select_eq (small : ∀ g ∈ m.functions, 8 * g.slotIds.length + 7 < 0x100000000) : select m = .ok (programOf m) := by
  have declared : declareFunctions [] m.functions = .ok (signaturesOf m.functions).reverse := by
    have fresh : (([] : List (String × Signature)).map (·.1) ++ m.functions.map (·.name)).Nodup := flat.names
    simpa using declareFunctions_eq flat.params flat.results fresh
  have selected : selectFunctions (environmentOf m) [] (definedIn m) = .ok ((definedIn m).map (codeOf (environmentOf m))) := by
    refine selectFunctions_eq (fun g member => ?_) ((List.filter_sublist.map _).nodup flat.names)
    obtain ⟨member, body⟩ := List.mem_filter.mp member
    obtain ⟨entry, others, flat'⟩ := flat.bodies g member (by simpa using body)
    exact selectFunction_eq flat' (knows_environmentOf flat) (small g member)
  unfold environmentOf definedIn at selected
  simp only [select, declared, flat.globals, placeGlobals, bind, Except.bind, selected]
  rfl

/-- The place that a function has in the program. -/
theorem defined_split {name : String} {g : Ir.Function} (found : m.function? name = some g) (body : g.isDeclaration = false) :
    ∃ front back, definedIn m = front ++ g :: back ∧ g.name = name ∧ ∀ g' ∈ front, (g'.name == name) = false := by
  obtain rfl : g.name = name := eq_of_beq (List.find?_some (p := fun g : Ir.Function => g.name == name) found)
  have member : g ∈ definedIn m := List.mem_filter.mpr ⟨List.mem_of_find?_eq_some found, by simp [body]⟩
  obtain ⟨front, back, split⟩ := List.append_of_mem member
  have distinct : ((definedIn m).map (·.name)).Nodup := (List.filter_sublist.map _).nodup flat.names
  rw [split, List.map_append, List.nodup_append] at distinct
  refine ⟨front, back, split, rfl, fun g' early => beq_eq_false_iff_ne.mpr ?_⟩
  exact distinct.2.2 _ (List.mem_map_of_mem early) _ (List.mem_cons_self ..)

theorem code_findIdx {name : String} {g : Ir.Function} (found : m.function? name = some g) (body : g.isDeclaration = false) :
    (programOf m).functions.getD ((definedIn m).findIdx (·.name == name)) default = codeOf (environmentOf m) g := by
  obtain ⟨front, back, split, here, earlier⟩ := defined_split flat found body
  have place : (definedIn m).findIdx (·.name == name) = front.length := by
    rw [split]
    exact Select.findIdx_of_split earlier (beq_iff_eq.mpr here)
  rw [place, programOf, split]
  simp

theorem calleeOf_eq {name : String} {g : Ir.Function} (found : m.function? name = some g) (body : g.isDeclaration = false) :
    Select.calleeOf (environmentOf m) name = .defined ((definedIn m).findIdx (·.name == name)) := by
  obtain ⟨front, back, split, here, -⟩ := defined_split flat found body
  have place : (definedIn m).findIdx? (·.name == name) = some ((definedIn m).findIdx (·.name == name)) := by
    rw [List.findIdx?_eq_some_iff_findIdx_eq]
    refine ⟨List.findIdx_lt_length_of_exists ⟨g, ?_, by simp [here]⟩, rfl⟩
    simp [split]
  simp only [definedIn] at place
  simp only [Select.calleeOf, environmentOf, definedIn, place]

end Module

end Machine

end StructLang
