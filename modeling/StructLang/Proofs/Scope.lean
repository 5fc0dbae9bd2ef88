import StructLang.Proofs.Typing.Rules

namespace StructLang

/-- What a function body knows besides its parameters are the functions and the structs. -/
theorem Context.enter_congr {Γ Γ' : Context} (functions : Γ.functions = Γ'.functions)
    (structs : Γ.structs = Γ'.structs) (f : Signature) : Γ.enter f = Γ'.enter f := by
  simp only [enter, functions, structs]

theorem latest_iff {α : Type} {key : α → String} {before : String → Option α} {declared : List α} {name : String}
    {found : Option α} :
    Latest key before declared name found ↔ (declared.reverse.find? (key · == name)).or (before name) = found := by
  constructor
  · intro latest
    cases latest with
    | @last front x back split alone =>
      have later : back.reverse.find? (key · == key x) = none := by simpa using alone
      simp [split, List.find?_append, later]
    | kept absent =>
      have none : declared.reverse.find? (key · == name) = none := by simpa using absent
      simp [none]
  · rintro rfl
    cases here : declared.reverse.find? (key · == name) with
    | none =>
      refine .kept fun x member same => ?_
      exact List.find?_eq_none.mp here x (List.mem_reverse.mpr member) (beq_iff_eq.mpr same)
    | some x =>
      obtain ⟨same, back, front, reversed, alone⟩ := List.find?_eq_some_iff_append.mp here
      obtain rfl := beq_iff_eq.mp same
      have split : declared = front.reverse ++ x :: back.reverse := by
        rw [← List.reverse_reverse declared, reversed]
        simp
      refine .last split fun y member => ?_
      simpa using alone y (List.mem_reverse.mp member)

theorem Context.Declares.unique {Γ Γ₁ Γ₂ : Context} {d : Document} (first : Γ.Declares d Γ₁) (second : Γ.Declares d Γ₂) :
    Γ₁.functions = Γ₂.functions ∧ Γ₁.structs = Γ₂.structs :=
  ⟨funext fun name => (latest_iff.mp (first.functions name)).symm.trans (latest_iff.mp (second.functions name)),
    funext fun name => (latest_iff.mp (first.structs name)).symm.trans (latest_iff.mp (second.structs name))⟩

/-- In a table the last entry of a name counts. -/
theorem NameMap.get?_foldl_insert {α β : Type} (key : β → String) (value : β → α) (entries : List β) (table : NameMap α)
    (name : String) :
    (entries.foldl (fun table e => table.insert (key e) (value e)) table).get? name =
      ((entries.reverse.find? (key · == name)).map value).or (table.get? name) := by
  induction entries generalizing table with
  | nil => simp
  | cons e rest ih =>
    rw [List.foldl_cons, ih, get?_insert, List.reverse_cons, List.find?_append]
    cases rest.reverse.find? (key · == name) with
    | some found => simp
    | none =>
      by_cases here : name = key e
      · simp [here]
      · simp [here, Ne.symm here]

theorem latest_foldl_insert {α : Type} (key : α → String) (entries : List α) (table : NameMap α) (name : String) :
    Latest key table.get? entries name ((entries.foldl (fun table e => table.insert (key e) e) table).get? name) := by
  have found := NameMap.get?_foldl_insert key id entries table name
  rw [Option.map_id] at found
  exact latest_iff.mpr found.symm

namespace Scope

theorem context_bind (s : Scope) (name : String) (ty : Ty) :
    (s.bind name ty).context = s.context.bind name ty := by
  simp only [context, Context.bind, Context.mk.injEq]
  exact ⟨funext fun other => NameMap.get?_insert s.names name other ty, rfl, rfl, rfl⟩

theorem context_registerFunction (s : Scope) (f : Signature) :
    (s.registerFunction f).context = s.context.declare f := by
  simp only [context, Context.declare, Context.mk.injEq]
  exact ⟨rfl, funext fun other => NameMap.get?_insert s.functions f.name other f, rfl, rfl⟩

theorem context_enterFunction (s : Scope) (f : Signature) :
    (s.enterFunction f).context = s.context.enter f := by
  have bound (params : List Param) (names : NameMap Ty) (Γ : Context) (same : Γ.names = names.get?) :
      params.foldl (fun Γ p => Γ.bind p.name p.ty) Γ =
        { Γ with names := (params.foldl (fun names p => names.insert p.name p.ty) names).get? } := by
    induction params generalizing names Γ with
    | nil => simp [← same]
    | cons p params ih =>
      refine ih (names.insert p.name p.ty) (Γ.bind p.name p.ty) ?_
      funext other
      simp only [Context.bind, same, NameMap.get?_insert]
  exact (bound f.params .empty { s.context with names := fun _ => none, returns := f.returns } rfl).symm

theorem get?_undo_congr (log : UndoLog) {names names' : NameMap Ty}
    (same : ∀ name, name ∉ log.map (·.1) → names.get? name = names'.get? name) (name : String) :
    (undo names log).get? name = (undo names' log).get? name := by
  induction log generalizing names names' with
  | nil => exact same name (by simp)
  | cons entry log ih =>
    obtain ⟨key, previous⟩ := entry
    refine ih fun other outside => ?_
    simp only [NameMap.get?_set]
    by_cases here : other = key
    · simp [here]
    · simp only [here, if_false]
      exact same other (by simp [here, outside])

mutual

theorem registerDecl_eq (s : Scope) : (d : Decl) → s.registerDecl d =
    { s with
      functions := d.signatures.foldl (fun table f => table.insert f.name f) s.functions
      structs := d.structs.foldl (fun table d => table.insert d.name d) s.structs }
  | .function _ => by simp [registerDecl, Decl.signatures, Decl.structs, registerFunction]
  | .external _ _ => by simp [registerDecl, Decl.signatures, Decl.structs, registerFunction]
  | .struct _ => by simp [registerDecl, Decl.signatures, Decl.structs, registerStruct]
  | .importOf _ _ => by simp [registerDecl, Decl.signatures, Decl.structs]
  | .imported _ _ document => by
    simp only [registerDecl, Decl.signatures, Decl.structs]
    exact register_eq s document
termination_by structural d => d

theorem register_eq (s : Scope) : (document : List Decl) → s.register document =
    { s with
      functions := (Document.signatures document).foldl (fun table f => table.insert f.name f) s.functions
      structs := (Document.structs document).foldl (fun table d => table.insert d.name d) s.structs }
  | [] => by simp [register, Document.signatures, Document.structs]
  | d :: rest => by
    simp only [register, Document.signatures, Document.structs, List.foldl_append]
    rw [registerDecl_eq s d, register_eq _ rest]
termination_by structural document => document

end

theorem context_declares (s : Scope) (d : Document) : s.context.Declares d (s.register d).context := by
  rw [register_eq]
  exact ⟨latest_foldl_insert Signature.name (Document.signatures d) s.functions,
    latest_foldl_insert StructDecl.name (Document.structs d) s.structs⟩

structure Same (s t : Scope) : Prop where
  context : s.context = t.context
  frames : s.frames = t.frames

theorem Same.refl (s : Scope) : Same s s := ⟨rfl, rfl⟩

theorem Same.trans {s t u : Scope} (first : Same s t) (second : Same t u) : Same s u :=
  ⟨first.context.trans second.context, first.frames.trans second.frames⟩

theorem Same.closeBlock {s t : Scope} (same : Same s t) : Same s.closeBlock t.closeBlock := by
  obtain ⟨names, functions, structs, returns, frames⟩ := s
  obtain ⟨names', functions', structs', returns', frames'⟩ := t
  obtain ⟨context, rfl⟩ := same
  cases frames with
  | nil => exact ⟨context, rfl⟩
  | cons frame outer =>
    simp only [Scope.context, Context.mk.injEq] at context
    refine ⟨?_, rfl⟩
    simp only [Scope.context, Scope.closeBlock, Context.mk.injEq]
    exact ⟨funext (get?_undo_congr frame fun name _ => congrFun context.1 name), context.2⟩

/-- The innermost block notes what a binding replaces, so closing it is not affected. -/
theorem closeBlock_bind {s : Scope} (inside : s.frames ≠ []) (name : String) (ty : Ty) :
    Same (s.bind name ty).closeBlock s.closeBlock := by
  obtain ⟨names, functions, structs, returns, frames⟩ := s
  cases frames with
  | nil => exact absurd rfl inside
  | cons frame outer =>
    by_cases noted : frame.any (·.1 == name) = true
    · simp only [bind, closeBlock, noted, if_true]
      refine ⟨?_, rfl⟩
      simp only [context, Context.mk.injEq, and_true]
      refine funext (get?_undo_congr frame fun other outside => ?_)
      have different : other ≠ name := by
        rintro rfl
        obtain ⟨entry, member, key⟩ := List.any_eq_true.mp noted
        exact outside (List.mem_map.mpr ⟨entry, member, beq_iff_eq.mp key⟩)
      simp [NameMap.get?_insert, different]
    · simp only [bind, closeBlock, noted, if_false, Bool.false_eq_true]
      refine ⟨?_, rfl⟩
      simp only [context, Context.mk.injEq, and_true]
      refine funext (get?_undo_congr frame fun other _ => ?_)
      simp only [NameMap.get?_set, NameMap.get?_insert]
      split <;> simp_all

/-- `after` is reached from `before` without leaving the innermost block. -/
structure SameBlock (before after : Scope) : Prop where
  outside : before.frames = [] → after.frames = []
  inside : before.frames ≠ [] → after.frames ≠ [] ∧ Same after.closeBlock before.closeBlock

theorem Same.sameBlock {before after : Scope} (same : Same after before) : SameBlock before after :=
  ⟨fun none => same.frames.trans none, fun some => ⟨same.frames ▸ some, same.closeBlock⟩⟩

theorem SameBlock.refl (s : Scope) : SameBlock s s := (Same.refl s).sameBlock

theorem SameBlock.trans {s t u : Scope} (first : SameBlock s t) (second : SameBlock t u) :
    SameBlock s u := by
  refine ⟨fun none => second.outside (first.outside none), fun some => ?_⟩
  obtain ⟨still, closed⟩ := first.inside some
  obtain ⟨last, closed'⟩ := second.inside still
  exact ⟨last, closed'.trans closed⟩

theorem sameBlock_bind (s : Scope) (name : String) (ty : Ty) : SameBlock s (s.bind name ty) := by
  refine ⟨fun none => by simp [bind, none], fun some => ⟨?_, closeBlock_bind some name ty⟩⟩
  cases frames : s.frames with
  | nil => exact absurd frames some
  | cons frame outer =>
    simp only [bind, frames]
    split <;> simp

/-- A block gives back the scope that it was opened in. -/
theorem SameBlock.closeBlock {s after : Scope} (reached : SameBlock s.openBlock after) :
    Same after.closeBlock s :=
  (reached.inside (List.cons_ne_nil _ _)).2

end Scope

end StructLang
