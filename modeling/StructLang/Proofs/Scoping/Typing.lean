import StructLang.Proofs.Lowering.FunctionWide
import StructLang.Proofs.Typing.Monotone

namespace StructLang

section Names

variable {α : Type} {base names names' wide wide' : String → Option α} {inner coming : List (String × Ty)}

def put (names : String → Option α) (name : String) (a : α) (other : String) : Option α :=
  if other = name then some a else names other

/-- What is known in a block, `names`, against what was known at its start, `base`, and what is known function-wide. The
declarations that are to come are of distinct names, none of which is known in the block. -/
structure Widens (names wide base : String → Option α) (coming : List (String × Ty)) : Prop where
  kept : ∀ name a, base name = some a → names name = some a
  known : ∀ name a, names name = some a → wide name = some a
  new : ∀ d ∈ coming, names d.1 = none
  distinct : (coming.map (·.1)).Nodup

theorem Widens.nothing (distinct : (coming.map (·.1)).Nodup) :
    Widens (fun _ => none : String → Option α) (fun _ => none) (fun _ => none) coming :=
  ⟨fun _ _ => id, fun _ _ => id, fun _ _ => rfl, distinct⟩

theorem Widens.put {name : String} {ty : Ty} (widens : Widens names wide base ((name, ty) :: coming)) (a : α) :
    Widens (put names name a) (put wide name a) base coming where
  kept other b found := by
    have known := widens.kept other b found
    have different : other ≠ name := by
      rintro rfl
      cases known.symm.trans (widens.new (other, ty) List.mem_cons_self)
    exact (if_neg different).trans known
  known other b found := by
    unfold StructLang.put at found ⊢
    split at found
    · rwa [if_pos ‹_›]
    · rw [if_neg ‹_›]
      exact widens.known other b found
  new d member := by
    have different : d.1 ≠ name := by
      intro same
      have distinct := widens.distinct
      rw [List.map_cons, List.nodup_cons] at distinct
      exact distinct.1 (List.mem_map.mpr ⟨d, member, same⟩)
    exact (if_neg different).trans (widens.new d (List.mem_cons_of_mem _ member))
  distinct := (List.nodup_cons.mp widens.distinct).2

theorem Widens.enter (widens : Widens names wide base coming) : Widens names wide names coming :=
  ⟨fun _ _ => id, widens.known, widens.new, widens.distinct⟩

/-- What was known before a block is still known at its end, so it is known function-wide. -/
theorem Widens.leave (before : Widens names wide base (inner ++ coming)) (atEnd : Widens names' wide' names coming) :
    Widens names wide' base coming where
  kept := before.kept
  known name a found := atEnd.known name a (atEnd.kept name a found)
  new d member := before.new d (List.mem_append_right _ member)
  distinct := atEnd.distinct

end Names

def Strictness.wide (o : Strictness) : Strictness := { o with blockScoping := false }

theorem Strictness.demands_wide (o : Strictness) : o.Demands o.wide := ⟨id, id⟩

namespace Context

def after (Γ : Context) (declared : List (String × Ty)) : Context := { Γ with names := known declared Γ.names }

theorem after_append (Γ : Context) (first second : List (String × Ty)) :
    Γ.after (first ++ second) = (Γ.after first).after second := by
  simp only [after, known_append]

theorem bind_eq_after (Γ : Context) (name : String) (ty : Ty) : Γ.bind name ty = Γ.after [(name, ty)] := by
  simp only [after, bind, known_singleton]

structure Widens (Γ Γ' : Context) (base : String → Option Ty) (coming : List (String × Ty)) : Prop where
  names : StructLang.Widens Γ.names Γ'.names base coming
  functions : Γ'.functions = Γ.functions
  structs : Γ'.structs = Γ.structs
  returns : Γ'.returns = Γ.returns

variable {base : String → Option Ty} {Γ Γ₁ Γ' Γ₁' : Context} {inner coming : List (String × Ty)}

theorem Widens.below (widens : Γ.Widens Γ' base coming) : Γ.Below Γ' where
  names := widens.names.known
  functions _ f known := ⟨f, widens.functions ▸ known, .refl f⟩
  structs _ _ known := widens.structs ▸ known

theorem Widens.assoc {first second : List (String × Ty)} (widens : Γ.Widens Γ' base (first ++ second ++ coming)) :
    Γ.Widens Γ' base (first ++ (second ++ coming)) :=
  List.append_assoc first second coming ▸ widens

theorem Widens.bind {name : String} {ty : Ty} (widens : Γ.Widens Γ' base ((name, ty) :: coming)) :
    (Γ.bind name ty).Widens (Γ'.after [(name, ty)]) base coming := by
  rw [← bind_eq_after]
  exact ⟨widens.names.put ty, widens.functions, widens.structs, widens.returns⟩

theorem Widens.enter (widens : Γ.Widens Γ' base coming) : Γ.Widens Γ' Γ.names coming :=
  ⟨widens.names.enter, widens.functions, widens.structs, widens.returns⟩

theorem Widens.leave (before : Γ.Widens Γ' base (inner ++ coming)) (atEnd : Γ₁.Widens (Γ'.after inner) Γ.names coming) :
    Γ.Widens (Γ'.after inner) base coming :=
  ⟨before.names.leave atEnd.names, before.functions, before.structs, before.returns⟩

/-- The start of a body, where the parameters are known in either way. -/
theorem Widens.start (Γ : Context) (f : Signature)
    (distinct : ((f.params.map (fun p => (p.name, p.ty)) ++ coming).map (·.1)).Nodup) :
    (Γ.enter f).Widens (Γ.enter f) (fun _ => none) coming := by
  have bound (ps : List Param) {Γ : Context}
      (widens : Γ.Widens Γ (fun _ => none) (ps.map (fun p => (p.name, p.ty)) ++ coming)) :
      (ps.foldl (fun Γ p => Γ.bind p.name p.ty) Γ).Widens (ps.foldl (fun Γ p => Γ.bind p.name p.ty) Γ) (fun _ => none)
        coming := by
    induction ps generalizing Γ with
    | nil => exact widens
    | cons p rest ih =>
      have first := widens.bind
      rw [← bind_eq_after] at first
      exact ih first
  exact bound f.params ⟨.nothing distinct, rfl, rfl, rfl⟩

end Context

variable {o : Strictness}

theorem HasType.widen {base : String → Option Ty} {Γ Γ' : Context} {coming : List (String × Ty)}
    (widens : Γ.Widens Γ' base coming) {e : Expr} {ty : Ty} (typed : HasType o Γ e ty) : HasType o.wide Γ' e ty :=
  HasType.mono o.demands_wide widens.below e typed

mutual

-- What is to come after a part has to be distinct from what the part declares, so it is carried along.
theorem StmtTyped.widen (on : o.blockScoping = true) : (st : Stmt) → {base : String → Option Ty} → {Γ Γ₁ Γ' : Context} →
    {coming : List (String × Ty)} → Γ.Widens Γ' base (st.declared ++ coming) → StmtTyped o Γ st Γ₁ →
    StmtTyped o.wide Γ' st (Γ'.after st.declared) ∧ Γ₁.Widens (Γ'.after st.declared) base coming
  | .letIn _ name ty none, _, _, _, Γ', _, widens, .declare =>
    ⟨Γ'.bind_eq_after name ty ▸ .declare, widens.bind⟩
  | .letIn _ name ty (some _), _, _, _, Γ', _, widens, .initialise typed =>
    ⟨Γ'.bind_eq_after name ty ▸ .initialise (typed.widen widens), widens.bind⟩
  | .ret _ none, _, _, _, _, _, widens, .ret => ⟨.ret, widens⟩
  | .ret _ (some _), _, _, _, _, _, widens, .retValue typed => ⟨.retValue (widens.returns ▸ typed.widen widens), widens⟩
  | .cond _ chain, _, _, _, _, _, widens, .cond typed => by
    obtain ⟨typed', widens'⟩ := ChainTyped.widen on chain widens typed
    exact ⟨.cond typed', widens'⟩
  | .while _ _ body, _, _, _, _, _, widens, .while tested typed => by
    obtain ⟨typed', widens'⟩ := BlockTyped.widen on body widens typed
    exact ⟨.while (tested.widen widens) typed', widens'⟩
  | .for _ init _ _ body, _, _, _, _, _, widens, .for started tested stepped typed => by
    obtain ⟨started', inside⟩ := StmtTyped.widen on init widens.enter.assoc started
    obtain ⟨typed', atEnd⟩ := BlockTyped.widen on body inside typed
    rw [← Context.after_append] at typed' atEnd
    rw [Stmt.declared, Strictness.leave, if_pos on]
    exact ⟨.for started' (tested.widen inside) (stepped.widen inside) typed', widens.leave atEnd⟩
  | .expr _, _, _, _, _, _, widens, .expr typed => ⟨.expr (typed.widen widens), widens⟩
termination_by structural st => st

theorem ChainTyped.widen (on : o.blockScoping = true) : (chain : IfChain) → {base : String → Option Ty} →
    {Γ Γ₁ Γ' : Context} → {coming : List (String × Ty)} → Γ.Widens Γ' base (chain.declared ++ coming) →
    ChainTyped o Γ chain Γ₁ →
    ChainTyped o.wide Γ' chain (Γ'.after chain.declared) ∧ Γ₁.Widens (Γ'.after chain.declared) base coming
  | .branch _ body rest, _, _, _, _, _, widens, .branch tested typed others => by
    obtain ⟨typed', between⟩ := BlockTyped.widen on body widens.assoc typed
    obtain ⟨others', behind⟩ := ChainTyped.widen on rest between others
    rw [IfChain.declared, Context.after_append]
    exact ⟨.branch (tested.widen widens) typed' others', behind⟩
  | .otherwise body, _, _, _, _, _, widens, .otherwise typed => by
    obtain ⟨typed', widens'⟩ := BlockTyped.widen on body widens typed
    exact ⟨.otherwise typed', widens'⟩
  | .done, _, _, _, _, _, widens, .done => ⟨.done, widens⟩
termination_by structural chain => chain

theorem BlockTyped.widen (on : o.blockScoping = true) : (b : Block) → {base : String → Option Ty} → {Γ Γ₁ Γ' : Context} →
    {coming : List (String × Ty)} → Γ.Widens Γ' base (b.declared ++ coming) → BlockTyped o Γ b Γ₁ →
    BlockTyped o.wide Γ' b (Γ'.after b.declared) ∧ Γ₁.Widens (Γ'.after b.declared) base coming
  | ⟨body, _⟩, _, _, _, _, _, widens, .block typed => by
    obtain ⟨typed', atEnd⟩ := StmtsTyped.widen on body widens.enter typed
    rw [Strictness.leave, if_pos on]
    exact ⟨.block typed', widens.leave atEnd⟩
termination_by structural b => b

theorem StmtsTyped.widen (on : o.blockScoping = true) : (body : List Stmt) → {base : String → Option Ty} →
    {Γ Γ₁ Γ' : Context} → {coming : List (String × Ty)} → Γ.Widens Γ' base (Stmt.declaredBy body ++ coming) →
    StmtsTyped o Γ body Γ₁ →
    StmtsTyped o.wide Γ' body (Γ'.after (Stmt.declaredBy body)) ∧
      Γ₁.Widens (Γ'.after (Stmt.declaredBy body)) base coming
  | [], _, _, _, _, _, widens, .nil => ⟨.nil, widens⟩
  | st :: rest, _, _, _, _, _, widens, .cons first others => by
    obtain ⟨first', between⟩ := StmtTyped.widen on st widens.assoc first
    obtain ⟨others', behind⟩ := StmtsTyped.widen on rest between others
    rw [Stmt.declaredBy, Context.after_append]
    exact ⟨.cons first' others', behind⟩
termination_by structural body => body

end

def FunctionDecl.declared (f : FunctionDecl) : List (String × Ty) :=
  f.signature.params.map (fun p => (p.name, p.ty)) ++ f.body.declared

def Document.DistinctNames (d : Document) : Prop := ∀ f ∈ d.functions, (f.declared.map (·.1)).Nodup

instance (d : Document) : Decidable d.DistinctNames := inferInstanceAs (Decidable (∀ f ∈ d.functions, _))

theorem FunctionTyped.widen (on : o.blockScoping = true) {Γ : Context} {f : FunctionDecl}
    (distinct : (f.declared.map (·.1)).Nodup) (typed : FunctionTyped o Γ f) : FunctionTyped o.wide Γ f := by
  obtain ⟨Γ₁, typed⟩ := typed
  have started := Context.Widens.start (Γ.declare f.signature) f.signature distinct
  rw [← List.append_nil f.body.declared] at started
  exact ⟨_, (BlockTyped.widen on f.body started typed).1⟩

theorem FunctionsTyped.widen (on : o.blockScoping = true) {fs : List FunctionDecl} {Γ : Context}
    (distinct : ∀ f ∈ fs, (f.declared.map (·.1)).Nodup) (typed : FunctionsTyped o Γ fs) :
    FunctionsTyped o.wide Γ fs := by
  induction fs generalizing Γ with
  | nil => exact .nil
  | cons f rest ih =>
    rw [List.forall_mem_cons] at distinct
    cases typed with
    | cons first others => exact .cons (first.widen on distinct.1) (ih distinct.2 others)

end StructLang
