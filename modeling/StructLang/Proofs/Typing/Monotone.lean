import StructLang.Proofs.Typing.Rules

namespace StructLang

def Signature.Agrees (f g : Signature) : Prop := f.params.map (·.ty) = g.params.map (·.ty) ∧ f.returns = g.returns

instance (f g : Signature) : Decidable (f.Agrees g) := inferInstanceAs (Decidable (_ ∧ _))

theorem Signature.Agrees.refl (f : Signature) : f.Agrees f := ⟨rfl, rfl⟩

structure Strictness.Demands (o o' : Strictness) : Prop where
  missingArguments : o'.missingArguments = true → o.missingArguments = true
  structLiterals : o'.structLiterals = true → o.structLiterals = true

theorem Strictness.Demands.refl (o : Strictness) : o.Demands o := ⟨id, id⟩

structure Context.Below (Γ Γ' : Context) : Prop where
  names : ∀ name ty, Γ.names name = some ty → Γ'.names name = some ty
  functions : ∀ name f, Γ.functions name = some f → ∃ g, Γ'.functions name = some g ∧ f.Agrees g
  structs : ∀ name d, Γ.structs name = some d → Γ'.structs name = some d

variable {o o' : Strictness} {Γ Γ' : Context}

mutual

theorem HasType.mono (demands : o.Demands o') (below : Γ.Below Γ') : (e : Expr) → {ty : Ty} → HasType o Γ e ty →
    HasType o' Γ' e ty
  | .int .., _, typed => HasType.int_iff.mpr (HasType.int_iff.mp typed)
  | .float .., _, typed => HasType.float_iff.mpr (HasType.float_iff.mp typed)
  | .string .., _, typed => HasType.string_iff.mpr (HasType.string_iff.mp typed)
  | .variable .., _, typed => .variable (below.names _ _ (HasType.variable_iff.mp typed))
  | .assign _ target value, _, typed => by
    obtain ⟨left, right⟩ := HasType.assign_iff.mp typed
    exact .assign (HasType.mono demands below target left) (HasType.mono demands below value right)
  | .binary _ _ lhs rhs, _, typed => by
    obtain ⟨operand, left, right, same⟩ := HasType.binary_iff.mp typed
    exact HasType.binary_iff.mpr
      ⟨operand, HasType.mono demands below lhs left, HasType.mono demands below rhs right, same⟩
  | .unary _ .neg operand, _, typed => .neg (HasType.mono demands below operand (HasType.neg_iff.mp typed))
  | .unary _ .ref operand, _, typed => by
    obtain ⟨inner, referred, rfl⟩ := HasType.ref_iff.mp typed
    exact .ref (HasType.mono demands below operand referred)
  | .unary _ .deref operand, _, typed => .deref (HasType.mono demands below operand (HasType.deref_iff.mp typed))
  | .call _ _ _ args, _, typed => by
    obtain ⟨f, known, passed, complete, rfl⟩ := HasType.call_iff.mp typed
    obtain ⟨g, known', params, returns⟩ := below.functions _ f known
    have count : f.params.length = g.params.length := by simpa using congrArg List.length params
    exact HasType.call_iff.mpr ⟨g, known', ArgsTyped.mono demands below args params passed,
      fun all => (complete (demands.missingArguments all)).trans count, returns.symm⟩
  | .field _ base _, _, typed => by
    obtain ⟨struct, d, index, field, inner, known, found, rfl⟩ := HasType.field_iff.mp typed
    exact .field (HasType.mono demands below base inner) (below.structs _ d known) found
  | .index _ base offset, _, typed => by
    obtain ⟨pointer, width, position⟩ := HasType.index_iff.mp typed
    exact .index (HasType.mono demands below base pointer) (HasType.mono demands below offset position)
  | .struct _ _ inits, _, typed => by
    obtain ⟨d, known, fields, rfl⟩ := HasType.struct_iff.mp typed
    exact .struct (below.structs _ d known) fun checked =>
      InitsTyped.mono demands below inits (fields (demands.structLiterals checked))
termination_by structural e => e

theorem ArgsTyped.mono (demands : o.Demands o') (below : Γ.Below Γ') : (args : List Expr) →
    {params params' : List Param} → params.map (·.ty) = params'.map (·.ty) → ArgsTyped o Γ params args →
    ArgsTyped o' Γ' params' args
  | [], _, _, _, _ => .nil
  | arg :: args, params, params', same, typed => by
    obtain ⟨param, rest, rfl, first, others⟩ := ArgsTyped.cons_iff.mp typed
    cases params' with
    | nil => cases same
    | cons param' rest' =>
      simp only [List.map_cons, List.cons.injEq] at same
      exact .cons (same.1 ▸ HasType.mono demands below arg first) (ArgsTyped.mono demands below args same.2 others)
termination_by structural args => args

theorem InitsTyped.mono (demands : o.Demands o') (below : Γ.Below Γ') : (inits : List FieldInit) → {d : StructDecl} →
    InitsTyped o Γ d inits → InitsTyped o' Γ' d inits
  | [], _, _ => .nil
  | init :: inits, _, typed => by
    obtain ⟨⟨index, field, found, first⟩, rest⟩ := InitsTyped.cons_iff.mp typed
    exact InitsTyped.cons_iff.mpr
      ⟨⟨index, field, found, FieldInit.mono demands below init first⟩, InitsTyped.mono demands below inits rest⟩
termination_by structural inits => inits

theorem FieldInit.mono (demands : o.Demands o') (below : Γ.Below Γ') : (init : FieldInit) → {ty : Ty} →
    HasType o Γ init.value ty → HasType o' Γ' init.value ty
  | ⟨_, value, _⟩, _, typed => HasType.mono demands below value typed
termination_by structural init => init

end

end StructLang
