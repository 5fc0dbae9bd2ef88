import StructLang.Ir.ModuleBuilder

namespace StructLang.Ir.ModuleBuilder

theorem mem_put {α : Type} {p : α → Bool} {new a : α} {entries : List α} (member : a ∈ put p new entries) :
    a = new ∨ a ∈ entries := by
  induction entries with
  | nil => exact .inl (List.mem_singleton.mp member)
  | cons e rest ih =>
    simp only [put] at member
    split at member
    · rcases List.mem_cons.mp member with rfl | member
      · exact .inl rfl
      · exact .inr (List.mem_cons_of_mem _ member)
    · rcases List.mem_cons.mp member with rfl | member
      · exact .inr (List.mem_cons_self ..)
      · exact (ih member).imp id (List.mem_cons_of_mem _)

section Names

variable {α : Type} (key : α → String) {new : α} {entries : List α}

theorem map_put (known : key new ∈ entries.map key) :
    (put (key · == key new) new entries).map key = entries.map key := by
  induction entries with
  | nil => cases known
  | cons e rest ih =>
    rw [put]
    by_cases here : key e = key new
    · simp [here]
    · have later : key new ∈ rest.map key := by simpa [Ne.symm here] using known
      simp [here, ih later]

theorem put_new (unknown : key new ∉ entries.map key) : put (key · == key new) new entries = entries ++ [new] := by
  induction entries with
  | nil => rfl
  | cons e rest ih =>
    rw [List.map_cons, List.mem_cons, not_or] at unknown
    rw [put, if_neg (by simpa using Ne.symm unknown.1), ih unknown.2, List.cons_append]

theorem names_put (new : α) (distinct : (entries.map key).Nodup) :
    ((put (key · == key new) new entries).map key).Nodup := by
  by_cases known : key new ∈ entries.map key
  · rwa [map_put key known]
  · rw [put_new key known, List.map_append, List.map_singleton, List.nodup_append]
    refine ⟨distinct, List.pairwise_singleton .., ?_⟩
    intro name before other added same
    cases List.mem_singleton.mp added
    exact known (same ▸ before)

/-- No entry moves. -/
theorem prefix_put (new : α) (entries : List α) :
    entries.map key <+: (put (key · == key new) new entries).map key := by
  by_cases known : key new ∈ entries.map key
  · exact ⟨[], by rw [map_put key known, List.append_nil]⟩
  · rw [put_new key known, List.map_append]
    exact List.prefix_append ..

theorem find?_put (new : α) (entries : List α) (name : String) :
    (put (key · == key new) new entries).find? (key · == name) =
      if name = key new then some new else entries.find? (key · == name) := by
  induction entries with
  | nil =>
    by_cases here : name = key new
    · simp [put, here]
    · simp [put, here, Ne.symm here]
  | cons a rest ih =>
    simp only [put]
    split
    · rename_i same
      have same := beq_iff_eq.mp same
      by_cases here : name = key new
      · simp [here]
      · simp [here, Ne.symm here, same]
    · rename_i different
      have different : key a ≠ key new := fun same => different (beq_iff_eq.mpr same)
      rw [List.find?_cons, List.find?_cons, ih]
      by_cases here : name = key new
      · simp [here, beq_eq_false_iff_ne.mpr different]
      · simp only [here, if_false]

end Names

theorem struct?_addStruct (m : ModuleBuilder) (l : Layout) (name : String) :
    (m.addStruct l).module.struct? name = if name = l.name then some l else m.module.struct? name :=
  find?_put Layout.name l m.module.structs name

theorem function?_addFunction (m : ModuleBuilder) (f : Function) (name : String) :
    (m.addFunction f).module.function? name = if name = f.name then some f else m.module.function? name :=
  find?_put Function.name f m.module.functions name

theorem function?_declare (m : ModuleBuilder) (name : String) (params : List Param) (returns : Ty) (other : String) :
    (m.declare name params returns).module.function? other =
      (m.module.function? other).or (if other = name then some (.declaration name params returns) else none) := by
  simp only [declare]
  split
  · rename_i known
    obtain ⟨g, found⟩ := Option.isSome_iff_exists.mp known
    by_cases here : other = name
    · simp [here, found]
    · simp [here]
  · by_cases here : other = name
    · simp [Module.function?, List.find?_append, here, Function.declaration]
    · simp [Module.function?, List.find?_append, here, Ne.symm here, Function.declaration]

end StructLang.Ir.ModuleBuilder
