import StructLang.Proofs.Document.Lowered
import StructLang.Proofs.Typing.Monotone

namespace StructLang

theorem Signature.Agrees.irTypes {f g : Signature} (agrees : f.Agrees g) :
    f.params.map (Ir.Ty.ofSource ·.ty) = g.params.map (Ir.Ty.ofSource ·.ty) := by
  have types := congrArg (List.map Ir.Ty.ofSource) agrees.1
  simpa only [List.map_map, Function.comp_def] using types

def Context.knowing (Γ : Context) (table : String → Option Signature) : Context := { Γ with functions := table }

def Context.Covered (Γ : Context) (table : String → Option Signature) : Prop :=
  ∀ name f, Γ.functions name = some f → ∃ g, table name = some g ∧ f.Agrees g

theorem Context.Covered.same {Γ Γ' : Context} {table : String → Option Signature} (covered : Γ.Covered table)
    (same : Γ.SameTables Γ') : Γ'.Covered table := by
  obtain ⟨names, rfl⟩ := same
  exact covered

theorem Context.Covered.enter {Γ : Context} {table : String → Option Signature} (covered : Γ.Covered table)
    (f : Signature) : (Γ.enter f).Covered table :=
  Context.Covered.same (Γ := { Γ with returns := f.returns }) covered (Γ.sameTables_enter f)

theorem Context.knowing_enter (Γ : Context) (f : Signature) (table : String → Option Signature) :
    (Γ.enter f).knowing table = (Γ.knowing table).enter f := by
  have bound (params : List Param) (Γ : Context) : (params.foldl (fun Γ p => Γ.bind p.name p.ty) Γ).knowing table =
      params.foldl (fun Γ p => Γ.bind p.name p.ty) (Γ.knowing table) := by
    induction params generalizing Γ with
    | nil => rfl
    | cons p rest ih => exact ih (Γ.bind p.name p.ty)
  exact bound f.params _

variable {o : Strictness} {table : String → Option Signature}

theorem Context.Covered.below {Γ : Context} (covered : Γ.Covered table) : Γ.Below (Γ.knowing table) :=
  ⟨fun _ _ => id, covered, fun _ _ => id⟩

theorem HasType.knowing {Γ : Context} (covered : Γ.Covered table) (e : Expr) {ty : Ty} (typed : HasType o Γ e ty) :
    HasType o (Γ.knowing table) e ty :=
  HasType.mono (.refl o) covered.below e typed

mutual

theorem StmtTyped.knowing : (st : Stmt) → {Γ Γ' : Context} → Γ.Covered table → StmtTyped .strict Γ st Γ' →
    StmtTyped .strict (Γ.knowing table) st (Γ'.knowing table)
  | .letIn _ _ _ none, _, _, _, .declare => .declare
  | .letIn _ _ _ (some init), _, _, covered, .initialise typed => .initialise (typed.knowing covered init)
  | .ret _ none, _, _, _, .ret => .ret
  | .ret _ (some value), _, _, covered, .retValue typed => .retValue (typed.knowing covered value)
  | .cond _ chain, _, _, covered, .cond typed => .cond (ChainTyped.knowing chain covered typed)
  | .while _ test body, _, _, covered, .while tested typed =>
    .while (tested.knowing covered test) (BlockTyped.knowing body covered typed)
  | .for _ init test step body, _, _, covered, .for started tested stepped typed => by
    have inside := covered.same started.sameTables
    exact .for (StmtTyped.knowing init covered started) (tested.knowing inside test) (stepped.knowing inside step)
      (BlockTyped.knowing body inside typed)
  | .expr e, _, _, covered, .expr typed => .expr (typed.knowing covered e)
termination_by structural st => st

theorem ChainTyped.knowing : (chain : IfChain) → {Γ Γ' : Context} → Γ.Covered table → ChainTyped .strict Γ chain Γ' →
    ChainTyped .strict (Γ.knowing table) chain (Γ'.knowing table)
  | .branch test body rest, _, _, covered, .branch tested typed others => by
    cases typed.strict_eq
    exact .branch (tested.knowing covered test) (BlockTyped.knowing body covered typed)
      (ChainTyped.knowing rest covered others)
  | .otherwise body, _, _, covered, .otherwise typed => .otherwise (BlockTyped.knowing body covered typed)
  | .done, _, _, _, .done => .done
termination_by structural chain => chain

theorem BlockTyped.knowing : (b : Block) → {Γ Γ' : Context} → Γ.Covered table → BlockTyped .strict Γ b Γ' →
    BlockTyped .strict (Γ.knowing table) b (Γ'.knowing table)
  | ⟨body, _⟩, _, _, covered, .block typed => .block (StmtsTyped.knowing body covered typed)
termination_by structural b => b

theorem StmtsTyped.knowing : (body : List Stmt) → {Γ Γ' : Context} → Γ.Covered table → StmtsTyped .strict Γ body Γ' →
    StmtsTyped .strict (Γ.knowing table) body (Γ'.knowing table)
  | [], _, _, _, .nil => .nil
  | st :: rest, _, _, covered, .cons first others => by
    exact .cons (StmtTyped.knowing st covered first) (StmtsTyped.knowing rest (covered.same first.sameTables) others)
termination_by structural body => body

end

end StructLang
