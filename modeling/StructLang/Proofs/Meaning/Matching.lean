import StructLang.Proofs.Meaning.Execution
import StructLang.Proofs.Meaning.Plain

namespace StructLang

open Ir

abbrev Slots := List (String × Nat)

/-- Lowering knows the innermost slot of each name, and no two declarations have the same one. -/
structure Binds (s : FunctionState) (slots : Slots) : Prop where
  names : ∀ name, s.locals.get? name = (slots.lookup name).map fun id => ⟨.reg ⟨id, .ptr⟩, .int 64⟩
  placed : ∀ x ∈ slots, (⟨x.2, .ptr⟩ : Reg) ∈ defs s.function.slots
  distinct : (slots.map (·.2)).Nodup

def Stored (a : Activation) : Locals → Slots → Prop
  | [], [] => True
  | (x, value) :: l, (y, id) :: slots =>
    x = y ∧ (∃ content, a.slots id = some content ∧ ∀ n, value = some n → content = some n) ∧ Stored a l slots
  | _, _ => False

namespace Stored

variable {a a' : Activation} {l l' : Locals} {slots : Slots} {name : String} {n : Int64}

theorem length_eq (stored : Stored a l slots) : l.length = slots.length := by
  induction l generalizing slots with
  | nil =>
    cases slots with
    | nil => rfl
    | cons => exact stored.elim
  | cons first l ih =>
    cases slots with
    | nil => exact stored.elim
    | cons => exact congrArg Nat.succ (ih stored.2.2)

/-- Only what is in the slots of the locals counts. -/
theorem congr (stored : Stored a l slots) (same : ∀ x ∈ slots, a'.slots x.2 = a.slots x.2) : Stored a' l slots := by
  induction l generalizing slots with
  | nil =>
    cases slots with
    | nil => trivial
    | cons => exact stored.elim
  | cons first l ih =>
    cases slots with
    | nil => exact stored.elim
    | cons x slots =>
      obtain ⟨named, content, rest⟩ := stored
      refine ⟨named, ?_, ih rest fun x member => same x (List.mem_cons_of_mem _ member)⟩
      rwa [same x (List.mem_cons_self ..)]

theorem read (stored : Stored a l slots) (found : l.read name = some n) :
    ∃ id, slots.lookup name = some id ∧ a.slots id = some (some n) := by
  induction l generalizing slots with
  | nil => cases found
  | cons first l ih =>
    cases slots with
    | nil => exact stored.elim
    | cons x slots =>
      obtain ⟨y, id⟩ := x
      obtain ⟨rfl, ⟨content, held, same⟩, rest⟩ := stored
      rw [Locals.read] at found
      rw [List.lookup_cons]
      split at found
      · rename_i here
        subst here
        rw [beq_self_eq_true]
        exact ⟨id, rfl, by rw [held, same n found]⟩
      · rename_i other
        rw [beq_eq_false_iff_ne.mpr (Ne.symm other)]
        exact ih rest found

/-- An assignment is a store to the innermost slot of the name. -/
theorem assign (stored : Stored a l slots) (distinct : (slots.map (·.2)).Nodup) (assigned : l.assign name n = some l') :
    ∃ id, slots.lookup name = some id ∧ (name, id) ∈ slots ∧ Stored (a.setSlot ⟨id, .ptr⟩ (some n)) l' slots := by
  induction l generalizing slots l' with
  | nil => cases assigned
  | cons first l ih =>
    cases slots with
    | nil => exact stored.elim
    | cons x slots =>
      obtain ⟨y, id⟩ := x
      obtain ⟨x, value⟩ := first
      obtain ⟨rfl, content, rest⟩ := stored
      simp only [List.map_cons, List.nodup_cons] at distinct
      rw [Locals.assign] at assigned
      rw [List.lookup_cons]
      split at assigned
      · rename_i here
        subst here
        cases assigned
        rw [beq_self_eq_true]
        refine ⟨id, rfl, List.mem_cons_self .., rfl, ⟨some n, by simp [Activation.setSlot], fun _ same => same⟩, ?_⟩
        refine rest.congr fun x member => ?_
        have other : x.2 ≠ id := fun same => distinct.1 (same ▸ List.mem_map_of_mem member)
        simp [Activation.setSlot, other]
      · rename_i other
        rw [beq_eq_false_iff_ne.mpr (Ne.symm other)]
        obtain ⟨l₁, inner, rfl⟩ := Option.map_eq_some_iff.mp assigned
        obtain ⟨id', found, member, stored⟩ := ih rest distinct.2 inner
        refine ⟨id', found, List.mem_cons_of_mem _ member, rfl, ?_, stored⟩
        have other : id ≠ id' := fun same => distinct.1 (same ▸ List.mem_map_of_mem (f := (·.2)) member)
        simpa [Activation.setSlot, other] using content

theorem drop (stored : Stored a l slots) (k : Nat) : Stored a (l.drop k) (slots.drop k) := by
  induction k generalizing l slots with
  | zero => exact stored
  | succ k ih =>
    cases l with
    | nil =>
      cases slots with
      | nil => trivial
      | cons => exact stored.elim
    | cons =>
      cases slots with
      | nil => exact stored.elim
      | cons => exact ih stored.2.2

/-- At the end of a block the slots of the outer locals are left. -/
theorem leave {outer inner : Locals} {outerSlots innerSlots : Slots} (entered : outer.length = outerSlots.length)
    (suffix : outerSlots <:+ innerSlots) (stored : Stored a inner innerSlots) :
    Stored a (outer.leave inner) outerSlots := by
  have left := stored.drop (inner.length - outer.length)
  rw [stored.length_eq, entered] at left
  rw [Locals.leave, stored.length_eq, entered]
  rwa [← List.suffix_iff_eq_drop.mp suffix] at left

end Stored

structure Ir.Site.Matches (site : Site) (slots : Slots) (l : Locals) (a : Activation) : Prop where
  framed : ∀ r ∈ defs site.builder.slots, ∃ content, a.slots r.id = some content
  stored : Stored a l slots

def Keeps (n : Nat) (a a' : Activation) : Prop := ∀ id < n, a'.regs id = a.regs id

theorem Keeps.refl (n : Nat) (a : Activation) : Keeps n a a := fun _ _ => rfl

theorem Keeps.trans {n n' : Nat} {a a' a'' : Activation} (first : Keeps n a a') (more : n ≤ n')
    (second : Keeps n' a' a'') : Keeps n a a'' :=
  fun id below => (second id (Nat.lt_of_lt_of_le below more)).trans (first id below)

theorem keeps_setReg {n : Nat} {r : Reg} (new : n ≤ r.id) (a : Activation) (m : Int64) : Keeps n a (a.setReg r m) := by
  intro id below
  simp [Activation.setReg, Nat.ne_of_lt (Nat.lt_of_lt_of_le below new)]

/-- A value that was available before is still the same. -/
theorem Keeps.eval {b : FunctionBuilder} {a a' : Activation} (keeps : Keeps b.nextReg a a') (sound : b.Sound) {v : Ir.Value}
    (available : b.Available v) (args : List Int64) : v.eval args a' = v.eval args a := by
  cases v with
  | reg r => exact keeps r.id (FunctionBuilder.Available.below sound available)
  | _ => rfl

namespace Ir.Site.Matches

variable {site : Site} {slots : Slots} {l : Locals} {a a' : Activation}

/-- Registers do not count. -/
theorem congr (matched : site.Matches slots l a) (same : a'.slots = a.slots) : site.Matches slots l a' :=
  ⟨fun r slot => by rw [same]; exact matched.framed r slot, matched.stored.congr fun _ _ => by rw [same]⟩

theorem setSlot {l' : Locals} (matched : site.Matches slots l a) {r : Reg} {content : Option Int64}
    (stored : Stored (a.setSlot r content) l' slots) : site.Matches slots l' (a.setSlot r content) := by
  refine ⟨fun r' slot => ?_, stored⟩
  by_cases here : r'.id = r.id
  · exact ⟨content, by simp [Activation.setSlot, here]⟩
  · simpa [Activation.setSlot, here] using matched.framed r' slot

theorem declare (matched : site.Matches slots l a) {id : Nat} {content value : Option Int64} (name : String)
    (held : a.slots id = some content) (same : ∀ n, value = some n → content = some n) :
    site.Matches ((name, id) :: slots) ((name, value) :: l) a :=
  ⟨matched.framed, rfl, ⟨content, held, same⟩, matched.stored⟩

/-- A new local is given its value by a store to its slot. -/
theorem initialise (matched : site.Matches slots l a) {id : Nat} (fresh : id ∉ slots.map (·.2)) (name : String) (n : Int64) :
    site.Matches ((name, id) :: slots) ((name, some n) :: l) (a.setSlot ⟨id, .ptr⟩ (some n)) := by
  have others : Stored (a.setSlot ⟨id, .ptr⟩ (some n)) l slots := matched.stored.congr fun x member => by
    have other : x.2 ≠ id := fun same => fresh (same ▸ List.mem_map_of_mem member)
    simp [Activation.setSlot, other]
  exact (matched.setSlot others).declare name (by simp only [Activation.setSlot, if_true]) fun _ same => same

theorem leave {outer : Locals} {outerSlots : Slots} {a₀ : Activation} (entered : site.Matches outerSlots outer a₀)
    (suffix : outerSlots <:+ slots) (matched : site.Matches slots l a) : site.Matches outerSlots (outer.leave l) a :=
  ⟨matched.framed, matched.stored.leave entered.stored.length_eq suffix⟩

end Ir.Site.Matches

theorem Ir.FunctionBuilder.Laid.mem_slots_alloca {b : FunctionBuilder} (laid : b.Laid) (ty : Ir.Ty) :
    (⟨b.nextReg, .ptr⟩ : Reg) ∈ defs (b.alloca ty).2.slots := by
  rw [laid.slots_alloca, defs_append, List.mem_append, mem_defs_singleton]
  exact .inr rfl

namespace Binds

variable {s s' : FunctionState} {slots : Slots}

theorem grow (binds : Binds s slots) (grows : s.function.Grows s'.function) (locals : s'.locals = s.locals) :
    Binds s' slots :=
  ⟨fun name => by rw [locals]; exact binds.names name, fun x member => defs_subset grows.slots (binds.placed x member),
    binds.distinct⟩

theorem fresh (binds : Binds s slots) (sound : s.function.Sound) : s.function.nextReg ∉ slots.map (·.2) := by
  intro member
  obtain ⟨x, member, same⟩ := List.mem_map.mp member
  exact Nat.ne_of_lt (sound.slotBelow (binds.placed x member)) same

/-- A declaration is given a slot of its own. -/
theorem declare (binds : Binds s slots) (sound : s.function.Sound) (name : String)
    (grows : (s.function.alloca (.int 64)).2.Grows s'.function)
    (locals : s'.locals = s.locals.insert name ⟨(s.function.alloca (.int 64)).1, .int 64⟩) :
    Binds s' ((name, s.function.nextReg) :: slots) := by
  have laid := sound.laid
  refine ⟨?_, ?_, List.nodup_cons.mpr ⟨binds.fresh sound, binds.distinct⟩⟩
  · intro other
    rw [locals, NameMap.get?_insert, laid.alloca_eq, List.lookup_cons]
    by_cases same : other = name
    · simp [same]
    · rw [beq_eq_false_iff_ne.mpr same, if_neg same]
      exact binds.names other
  · intro x member
    rcases List.mem_cons.mp member with rfl | earlier
    · exact defs_subset grows.slots (laid.mem_slots_alloca _)
    · exact defs_subset ((laid.advances_alloca _).grows.trans grows).slots (binds.placed x earlier)

end Binds

end StructLang
