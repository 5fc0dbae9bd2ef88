import Mathlib
import StructLang.Proofs.Builder.Entries

namespace StructLang.Ir.ModuleBuilder

inductive Call
  | addStruct (l : Layout)
  | declare (name : String) (params : List Param) (returns : Ty)
  | addFunction (f : Function)
  | intern (text : String)

namespace Call

def layout? : Call → Option Layout
  | .addStruct l => some l
  | _ => none

def declaration? : Call → Option Function
  | .declare name params returns => some (.declaration name params returns)
  | _ => none

def definition? : Call → Option Function
  | .addFunction f => some f
  | _ => none

def lastLayout? (calls : List Call) (name : String) : Option Layout :=
  (calls.filterMap layout?).reverse.find? (·.name == name)

def lastDefinition? (calls : List Call) (name : String) : Option Function :=
  (calls.filterMap definition?).reverse.find? (·.name == name)

def firstDeclaration? (calls : List Call) (name : String) : Option Function :=
  (calls.filterMap declaration?).find? (·.name == name)

section Last

variable {α : Type} (select : Call → Option α) (p : α → Bool) (calls : List Call) (c : Call)

theorem find?_singleton : ([c].filterMap select).find? p = (select c).filter p := by
  cases selected : select c with
  | none => simp [selected]
  | some a => cases found : p a <;> simp [selected, found, Option.filter_some]

theorem find?_snoc : ((calls ++ [c]).filterMap select).find? p =
    ((calls.filterMap select).find? p).or ((select c).filter p) := by
  rw [List.filterMap_append, List.find?_append, find?_singleton]

theorem find?_reverse_snoc : ((calls ++ [c]).filterMap select).reverse.find? p =
    ((select c).filter p).or ((calls.filterMap select).reverse.find? p) := by
  have alone : ([c].filterMap select).reverse = [c].filterMap select := by
    cases selected : select c <;> simp [selected]
  rw [List.filterMap_append, List.reverse_append, List.find?_append, alone, find?_singleton]

end Last

/-- What calls leave under the name of a function: the last definition, or without one the first declaration. -/
def function? (calls : List Call) (name : String) : Option Function :=
  (lastDefinition? calls name).or (firstDeclaration? calls name)

variable (calls : List Call) {c : Call} (name : String)

theorem lastLayout?_addStruct (l : Layout) :
    lastLayout? (calls ++ [Call.addStruct l]) name = if name = l.name then some l else lastLayout? calls name := by
  rw [lastLayout?, find?_reverse_snoc, layout?, Option.filter_some]
  by_cases here : name = l.name
  · simp [here]
  · simp [here, Ne.symm here, lastLayout?]

theorem lastLayout?_other (other : c.layout? = none) : lastLayout? (calls ++ [c]) name = lastLayout? calls name := by
  rw [lastLayout?, find?_reverse_snoc, other, Option.filter_none, Option.none_or, lastLayout?]

theorem function?_addFunction (f : Function) :
    function? (calls ++ [Call.addFunction f]) name = if name = f.name then some f else function? calls name := by
  have undeclared : (Call.addFunction f).declaration? = none := rfl
  rw [function?, lastDefinition?, find?_reverse_snoc, definition?, Option.filter_some, firstDeclaration?, find?_snoc,
    undeclared, Option.filter_none, Option.or_none]
  by_cases here : name = f.name
  · simp [here]
  · simp [here, Ne.symm here, function?, lastDefinition?, firstDeclaration?]

theorem function?_declare (declared : String) (params : List Param) (returns : Ty) :
    function? (calls ++ [Call.declare declared params returns]) name =
      (function? calls name).or (if name = declared then some (.declaration declared params returns) else none) := by
  have undefined : (Call.declare declared params returns).definition? = none := rfl
  rw [function?, lastDefinition?, find?_reverse_snoc, undefined, Option.filter_none, Option.none_or, firstDeclaration?,
    find?_snoc, declaration?, Option.filter_some, ← Option.or_assoc]
  by_cases here : name = declared
  · simp [here, function?, lastDefinition?, firstDeclaration?, Function.declaration]
  · simp [here, Ne.symm here, function?, lastDefinition?, firstDeclaration?, Function.declaration]

theorem function?_other (undefined : c.definition? = none) (undeclared : c.declaration? = none) :
    function? (calls ++ [c]) name = function? calls name := by
  rw [function?, lastDefinition?, find?_reverse_snoc, undefined, Option.filter_none, Option.none_or, firstDeclaration?,
    find?_snoc, undeclared, Option.filter_none, Option.or_none, function?, lastDefinition?, firstDeclaration?]

end Call

def call (b : ModuleBuilder) : Call → ModuleBuilder
  | .addStruct l => b.addStruct l
  | .declare name params returns => b.declare name params returns
  | .addFunction f => b.addFunction f
  | .intern text => (b.intern text).2

def built (name : String) (calls : List Call) : ModuleBuilder := calls.foldl call (start name)

theorem built_append (name : String) (calls later : List Call) :
    built name (calls ++ later) = later.foldl call (built name calls) := List.foldl_append

section Strings

def constantName (place : Nat) : String := ".str." ++ toString place

theorem constantName_injective : Function.Injective constantName := by
  intro place other same
  have digits : Nat.toDigits 10 place = Nat.toDigits 10 other := by
    have texts := congrArg String.toList same
    simpa [constantName, Nat.toString_eq_ofList_toDigits] using texts
  rw [← Nat.ofDigitChars_ten_toDigits (n := place), digits, Nat.ofDigitChars_ten_toDigits]

/-- Constants are named after their places, and the table of texts says which text has which constant. -/
structure Registered (b : ModuleBuilder) : Prop where
  named : b.module.globals.map (·.name) = (List.range b.module.globals.length).map constantName
  listed : ∀ {text name}, b.strings.get? text = some name ↔ ⟨name, text⟩ ∈ b.module.globals

namespace Registered

variable {b : ModuleBuilder}

theorem distinct (registered : b.Registered) : (b.module.globals.map (·.name)).Nodup := by
  rw [registered.named]
  exact List.nodup_range.map constantName_injective

theorem text_eq (registered : b.Registered) {g g' : Global} (member : g ∈ b.module.globals)
    (member' : g' ∈ b.module.globals) (same : g.name = g'.name) : g.text = g'.text :=
  congrArg Global.text (List.inj_on_of_nodup_map registered.distinct member member' same)

theorem name_eq (registered : b.Registered) {g g' : Global} (member : g ∈ b.module.globals)
    (member' : g' ∈ b.module.globals) (same : g.text = g'.text) : g.name = g'.name := by
  have found : b.strings.get? g.text = some g.name := registered.listed.mpr member
  have found' : b.strings.get? g'.text = some g'.name := registered.listed.mpr member'
  rw [same, found'] at found
  exact (Option.some.inj found).symm

theorem intern (registered : b.Registered) (text : String) : (b.intern text).2.Registered := by
  unfold ModuleBuilder.intern
  split
  · exact registered
  · rename_i unknown
    constructor
    · simp only [List.map_append, registered.named, List.length_append, List.map_singleton, List.length_singleton,
        List.range_succ]
      rfl
    · intro other name
      rw [NameMap.get?_insert, List.mem_append, List.mem_singleton, Global.mk.injEq]
      by_cases here : other = text
      · have missing : ⟨name, text⟩ ∉ b.module.globals := fun member => by
          rw [← registered.listed, unknown] at member
          cases member
        simp [here, missing, eq_comm]
      · simp [here, registered.listed]

theorem call (registered : b.Registered) : (c : Call) → (b.call c).Registered
  | .addStruct _ => ⟨registered.named, registered.listed⟩
  | .declare name params returns => by
    simp only [ModuleBuilder.call, declare]
    split
    · exact registered
    · exact ⟨registered.named, registered.listed⟩
  | .addFunction _ => ⟨registered.named, registered.listed⟩
  | .intern text => registered.intern text

end Registered

theorem registered_built (name : String) (calls : List Call) : (built name calls).Registered := by
  induction calls using List.reverseRecOn with
  | nil => exact ⟨rfl, by simp [built, start, Module.empty]⟩
  | append_singleton calls c ih =>
    rw [built_append]
    exact ih.call c

/-- Interning returns a constant that the module then has. -/
theorem exists_intern (b : ModuleBuilder) (registered : b.Registered) (text : String) :
    ∃ name, (b.intern text).1 = .global name ∧ ⟨name, text⟩ ∈ (b.intern text).2.module.globals := by
  unfold intern
  split
  · rename_i name found
    exact ⟨name, rfl, registered.listed.mp found⟩
  · exact ⟨_, rfl, List.mem_append_right _ (List.mem_singleton_self _)⟩

end Strings

structure Extends (b b' : ModuleBuilder) : Prop where
  structs : b.module.structs.map (·.name) <+: b'.module.structs.map (·.name)
  functions : b.module.functions.map (·.name) <+: b'.module.functions.map (·.name)
  globals : b.module.globals <+: b'.module.globals

namespace Extends

theorem refl (b : ModuleBuilder) : Extends b b := ⟨List.prefix_rfl, List.prefix_rfl, List.prefix_rfl⟩

theorem trans {b b' b'' : ModuleBuilder} (first : Extends b b') (second : Extends b' b'') : Extends b b'' :=
  ⟨first.structs.trans second.structs, first.functions.trans second.functions, first.globals.trans second.globals⟩

end Extends

/-- A declaration adds a function at the end or nothing at all. -/
theorem functions_declare (b : ModuleBuilder) (name : String) (params : List Param) (returns : Ty) :
    b.module.functions <+: (b.declare name params returns).module.functions := by
  unfold declare
  split
  · exact List.prefix_rfl
  · exact List.prefix_append ..

theorem names_declare {b : ModuleBuilder} (distinct : (b.module.functions.map (·.name)).Nodup) (name : String)
    (params : List Param) (returns : Ty) : ((b.declare name params returns).module.functions.map (·.name)).Nodup := by
  unfold declare
  split
  · exact distinct
  · rename_i unknown
    have new : name ∉ b.module.functions.map (·.name) := by
      simpa [Module.function?] using unknown
    simpa [List.nodup_append, Function.declaration, distinct] using new

theorem extends_call (b : ModuleBuilder) : (c : Call) → Extends b (b.call c)
  | .addStruct l => ⟨prefix_put Layout.name l _, List.prefix_rfl, List.prefix_rfl⟩
  | .declare name params returns => by
    refine ⟨?_, (functions_declare b name params returns).map _, ?_⟩ <;>
    · simp only [call, declare]
      split <;> exact List.prefix_rfl
  | .addFunction f => ⟨List.prefix_rfl, prefix_put Function.name f _, List.prefix_rfl⟩
  | .intern text => by
    simp only [call, intern]
    split
    · exact .refl b
    · exact ⟨List.prefix_rfl, List.prefix_rfl, List.prefix_append ..⟩

theorem extends_calls (b : ModuleBuilder) (calls : List Call) : Extends b (calls.foldl call b) := by
  induction calls generalizing b with
  | nil => exact .refl b
  | cons c rest ih => exact (extends_call b c).trans (ih (b.call c))

theorem extends_built (name : String) (front back : List Call) : Extends (built name front) (built name (front ++ back)) := by
  rw [built_append]
  exact extends_calls ..

structure Holds (calls : List Call) (m : Module) : Prop where
  structNames : (m.structs.map (·.name)).Nodup
  functionNames : (m.functions.map (·.name)).Nodup
  struct? : ∀ name, m.struct? name = Call.lastLayout? calls name
  function? : ∀ name, m.function? name = Call.function? calls name

namespace Holds

variable {calls : List Call} {b b' : ModuleBuilder} {c : Call}

/-- A call that adds nothing of a kind changes nothing of that kind. -/
theorem struct?_other (holds : Holds calls b.module) (other : c.layout? = none)
    (same : b'.module.structs = b.module.structs) (name : String) :
    b'.module.struct? name = Call.lastLayout? (calls ++ [c]) name := by
  rw [Call.lastLayout?_other calls name other, ← holds.struct?, Module.struct?, same, Module.struct?]

theorem function?_other (holds : Holds calls b.module) (undefined : c.definition? = none)
    (undeclared : c.declaration? = none) (same : b'.module.functions = b.module.functions) (name : String) :
    b'.module.function? name = Call.function? (calls ++ [c]) name := by
  rw [Call.function?_other calls name undefined undeclared, ← holds.function?, Module.function?, same, Module.function?]

theorem call (holds : Holds calls b.module) : (c : Call) → Holds (calls ++ [c]) (b.call c).module
  | .addStruct l => by
    refine ⟨names_put Layout.name l holds.structNames, holds.functionNames, fun name => ?_, holds.function?_other rfl rfl rfl⟩
    rw [Call.lastLayout?_addStruct, ← holds.struct?]
    exact struct?_addStruct b l name
  | .declare declared params returns => by
    have structs : (b.declare declared params returns).module.structs = b.module.structs := by
      unfold declare
      split <;> rfl
    refine ⟨structs ▸ holds.structNames, names_declare holds.functionNames .., holds.struct?_other rfl structs, fun name => ?_⟩
    rw [Call.function?_declare, ← holds.function?]
    exact function?_declare b declared params returns name
  | .addFunction f => by
    refine ⟨holds.structNames, names_put Function.name f holds.functionNames, holds.struct?_other rfl rfl, fun name => ?_⟩
    rw [Call.function?_addFunction, ← holds.function?]
    exact function?_addFunction b f name
  | .intern text => by
    have same : (b.intern text).2.module.structs = b.module.structs ∧
        (b.intern text).2.module.functions = b.module.functions := by
      unfold intern
      split <;> exact ⟨rfl, rfl⟩
    exact ⟨same.1 ▸ holds.structNames, same.2 ▸ holds.functionNames, holds.struct?_other rfl same.1,
      holds.function?_other rfl rfl same.2⟩

end Holds

theorem holds_built (name : String) (calls : List Call) : Holds calls (built name calls).module := by
  induction calls using List.reverseRecOn with
  | nil => exact ⟨List.nodup_nil, List.nodup_nil, fun _ => rfl, fun _ => rfl⟩
  | append_singleton calls c ih =>
    rw [built_append]
    exact ih.call c

def returned (name : String) (front : List Call) (text : String) : Value := ((built name front).intern text).1

theorem exists_returned (name : String) (front : List Call) (text : String) (back : List Call) :
    ∃ g ∈ (built name (front ++ .intern text :: back)).module.globals,
      returned name front text = .global g.name ∧ g.text = text := by
  obtain ⟨constant, same, added⟩ := exists_intern _ (registered_built name front) text
  have kept := (extends_built name (front ++ [Call.intern text]) back).globals
  rw [List.append_assoc, List.singleton_append, built_append name front [.intern text]] at kept
  exact ⟨⟨constant, text⟩, kept.subset added, same, rfl⟩

/-- After any calls names stand once; a struct has its last layout, a function its last definition or else its first
declaration, and to declare replaces nothing; interning returns the same constant exactly for the same text, and that
constant holds the text; and whatever is called later, nothing moves. -/
theorem module_histories_are_kept (name : String) (calls : List Call) :
    ((built name calls).module.structs.map (·.name)).Nodup ∧
    ((built name calls).module.functions.map (·.name)).Nodup ∧
    ((built name calls).module.globals.map (·.name)).Nodup ∧
    (∀ struct, (built name calls).module.struct? struct = Call.lastLayout? calls struct) ∧
    (∀ function, (built name calls).module.function? function =
      (Call.lastDefinition? calls function).or (Call.firstDeclaration? calls function)) ∧
    (∀ declared params returns, (built name calls).module.functions <+:
      (built name (calls ++ [.declare declared params returns])).module.functions) ∧
    (∀ front text back, calls = front ++ .intern text :: back →
      (∃ g ∈ (built name calls).module.globals, returned name front text = .global g.name ∧ g.text = text) ∧
      ∀ front' text' back', calls = front' ++ .intern text' :: back' →
        (returned name front text = returned name front' text' ↔ text = text')) ∧
    ∀ later, Extends (built name calls) (built name (calls ++ later)) := by
  have holds := holds_built name calls
  have registered := registered_built name calls
  refine ⟨holds.structNames, holds.functionNames, registered.distinct, holds.struct?, holds.function?, ?_, ?_,
    extends_built name calls⟩
  · intro declared params returns
    rw [built_append]
    exact functions_declare ..
  · intro front text back here
    obtain ⟨g, member, value, held⟩ : ∃ g ∈ (built name calls).module.globals, _ := here ▸ exists_returned name front text back
    refine ⟨⟨g, member, value, held⟩, fun front' text' back' there => ?_⟩
    obtain ⟨g', member', value', held'⟩ : ∃ g ∈ (built name calls).module.globals, _ :=
      there ▸ exists_returned name front' text' back'
    rw [value, value', Value.global.injEq, ← held, ← held']
    exact ⟨registered.text_eq member member', registered.name_eq member member'⟩

def mixed : List Call :=
  [.intern "b", .declare "f" [⟨"x", .int 64⟩] .void, .addStruct ⟨"P", []⟩, .intern "a",
    .addFunction ⟨"f", [], .ptr, [], false⟩, .declare "f" [] .void, .addStruct ⟨"Q", []⟩,
    .addStruct ⟨"P", [("v", .int 8)]⟩, .intern "b"]

theorem module_histories_are_kept_mixed :
    (built "m" mixed).module.struct? "P" = some ⟨"P", [("v", .int 8)]⟩ ∧
    (built "m" mixed).module.function? "f" = some ⟨"f", [], .ptr, [], false⟩ ∧
    mixed = [] ++ .intern "b" :: mixed.drop 1 ∧ mixed = mixed.take 3 ++ .intern "a" :: mixed.drop 4 ∧
    mixed = mixed.take 8 ++ .intern "b" :: [] ∧
    returned "m" [] "b" = returned "m" (mixed.take 8) "b" ∧ returned "m" [] "b" ≠ returned "m" (mixed.take 3) "a" ∧
    ["P"] <+: (built "m" mixed).module.structs.map (·.name) := by
  obtain ⟨-, -, -, structs, functions, -, texts, -⟩ := module_histories_are_kept "m" mixed
  obtain ⟨-, compared⟩ := texts [] "b" (mixed.drop 1) rfl
  obtain ⟨-, -, -, -, -, -, -, extended⟩ := module_histories_are_kept "m" (mixed.take 3)
  refine ⟨structs "P", functions "f", rfl, rfl, rfl, (compared (mixed.take 8) "b" [] rfl).mpr rfl, ?_,
    (extended (mixed.drop 3)).structs⟩
  exact fun same => absurd ((compared (mixed.take 3) "a" (mixed.drop 4) rfl).mp same) (by decide)

end StructLang.Ir.ModuleBuilder
