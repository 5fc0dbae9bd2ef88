namespace StructLang

structure NameMap (α : Type) where
  entries : List (String × α)
  deriving Repr

namespace NameMap

variable {α : Type}

def empty : NameMap α := ⟨[]⟩

instance : Inhabited (NameMap α) := ⟨empty⟩

def get? (m : NameMap α) (name : String) : Option α := m.entries.lookup name

def contains (m : NameMap α) (name : String) : Bool := (m.get? name).isSome

def erase (m : NameMap α) (name : String) : NameMap α := ⟨m.entries.filter (·.1 != name)⟩

def insert (m : NameMap α) (name : String) (a : α) : NameMap α := ⟨(name, a) :: (m.erase name).entries⟩

def set (m : NameMap α) (name : String) : Option α → NameMap α
  | some a => m.insert name a
  | none => m.erase name

@[simp] theorem get?_empty (name : String) : (empty : NameMap α).get? name = none := rfl

theorem lookup_cons (key other : String) (value : α) (entries : List (String × α)) :
    List.lookup other ((key, value) :: entries) =
      if other = key then some value else List.lookup other entries := by
  change (match other == key with
    | true => some value
    | false => List.lookup other entries) = _
  by_cases here : other = key
  · simp [here]
  · simp [here, beq_eq_false_iff_ne.mpr here]

theorem get?_erase (m : NameMap α) (name other : String) :
    (m.erase name).get? other = if other = name then none else m.get? other := by
  obtain ⟨entries⟩ := m
  simp only [get?, erase]
  induction entries with
  | nil => simp
  | cons entry entries ih =>
    obtain ⟨key, value⟩ := entry
    by_cases same : key = name
    · subst key
      simp only [List.filter_cons, bne_self_eq_false, Bool.false_eq_true, ↓reduceIte, ih, lookup_cons]
      split <;> rfl
    · simp only [List.filter_cons, bne_iff_ne, ne_eq, same, not_false_eq_true, ↓reduceIte, lookup_cons, ih]
      by_cases here : other = key
      · simp [here, same]
      · simp [here]

theorem get?_insert (m : NameMap α) (name other : String) (a : α) :
    (m.insert name a).get? other = if other = name then some a else m.get? other := by
  have erased := get?_erase m name other
  simp only [get?, insert, lookup_cons] at erased ⊢
  by_cases here : other = name <;> simp_all

theorem get?_set (m : NameMap α) (name other : String) (a : Option α) :
    (m.set name a).get? other = if other = name then a else m.get? other := by
  cases a with
  | none => exact get?_erase m name other
  | some a => exact get?_insert m name other a

end NameMap

end StructLang
