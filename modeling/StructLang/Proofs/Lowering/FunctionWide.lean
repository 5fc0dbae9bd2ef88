import StructLang.Proofs.Lowering.Invariants
import StructLang.Proofs.Lowering.Visits
import StructLang.Proofs.Typing.Decision

namespace StructLang

open Lower

mutual

def Stmt.declared : Stmt → List (String × Ty)
  | .letIn _ name ty _ => [(name, ty)]
  | .cond _ chain => IfChain.declared chain
  | .while _ _ body => Block.declared body
  | .for _ init _ _ body => Stmt.declared init ++ Block.declared body
  | .ret .. | .expr _ => []
termination_by structural st => st

def IfChain.declared : IfChain → List (String × Ty)
  | .branch _ body rest => Block.declared body ++ IfChain.declared rest
  | .otherwise body => Block.declared body
  | .done => []
termination_by structural chain => chain

def Block.declared : Block → List (String × Ty)
  | ⟨body, _⟩ => Stmt.declaredBy body
termination_by structural b => b

def Stmt.declaredBy : List Stmt → List (String × Ty)
  | [] => []
  | st :: rest => Stmt.declared st ++ Stmt.declaredBy rest
termination_by structural body => body

end

def declared? (declared : List (String × Ty)) (name : String) : Option Ty := declared.reverse.lookup name

def known (declared : List (String × Ty)) (names : String → Option Ty) (name : String) : Option Ty :=
  (declared? declared name).or (names name)

@[simp] theorem known_nil (names : String → Option Ty) : known [] names = names := rfl

theorem known_append (first second : List (String × Ty)) (names : String → Option Ty) :
    known (first ++ second) names = known second (known first names) := by
  funext name
  simp only [known, declared?, List.reverse_append, List.lookup_append, Option.or_assoc]

theorem known_singleton (name : String) (ty : Ty) (names : String → Option Ty) :
    known [(name, ty)] names = fun other => if other = name then some ty else names other := by
  funext other
  simp only [known, declared?, List.reverse_singleton, NameMap.lookup_cons, List.lookup_nil]
  split <;> rfl

namespace Checker

theorem openBlock_wide {c : Checker} (wide : c.options.blockScoping = false) : c.openBlock = c := by
  simp [openBlock, wide]

theorem closeBlock_wide {c : Checker} (wide : c.options.blockScoping = false) : c.closeBlock = c := by
  simp [closeBlock, wide]

theorem lookup_bind (c : Checker) (name : String) (ty : Ty) :
    (c.bind name ty).scope.lookup = known [(name, ty)] c.scope.lookup := by
  rw [known_singleton]
  funext other
  exact NameMap.get?_insert c.scope.names name other ty

theorem lookup_entered (c : Checker) (f : Signature) :
    (c.entered f).scope.lookup = known (f.params.map fun p => (p.name, p.ty)) fun _ => none := by
  have filled (ps : List Param) (names : NameMap Ty) :
      (ps.foldl (fun names p => names.insert p.name p.ty) names).get? =
        known (ps.map fun p => (p.name, p.ty)) names.get? := by
    induction ps generalizing names with
    | nil => rfl
    | cons p rest ih =>
      have first : (names.insert p.name p.ty).get? = known [(p.name, p.ty)] names.get? := by
        rw [known_singleton]
        funext other
        exact NameMap.get?_insert names p.name other p.ty
      rw [List.foldl_cons, ih, first, ← known_append]
      rfl
  exact filled f.params .empty

mutual

theorem lookup_stmt {c : Checker} (wide : c.options.blockScoping = false) : (st : Stmt) →
    (c.stmt st).2.scope.lookup = known st.declared c.scope.lookup
  | .letIn _ name ty none => c.lookup_bind name ty
  | .letIn _ name ty (some init) => (c.valueOf ty init).2.lookup_bind name ty
  | .ret _ none => rfl
  | .ret _ (some _) => rfl
  | .cond _ chain => lookup_ifChain wide chain
  | .while _ test body => lookup_block (c := c.condition test) wide body
  | .for _ init test step body => by
    have started := advance_stmt c init
    have inner := lookup_block (c := (((c.stmt init).2.condition test).expr step).2) (started.options ▸ wide) body
    have walked := advance_block (((c.stmt init).2.condition test).expr step).2 body
    simp only [stmt, Stmt.declared, openBlock_wide wide]
    rw [closeBlock_wide (walked.options.trans started.options ▸ wide), inner, known_append, ← lookup_stmt wide init]
    rfl
  | .expr _ => rfl
termination_by structural st => st

theorem lookup_ifChain {c : Checker} (wide : c.options.blockScoping = false) : (chain : IfChain) →
    (c.ifChain chain).scope.lookup = known chain.declared c.scope.lookup
  | .branch test body rest => by
    have walked := advance_block (c.condition test) body
    have others := lookup_ifChain (c := ((c.condition test).block body).2) (walked.options ▸ wide) rest
    simp only [ifChain, IfChain.declared]
    rw [others, known_append, lookup_block (c := c.condition test) wide body]
    rfl
  | .otherwise body => lookup_block wide body
  | .done => rfl
termination_by structural chain => chain

theorem lookup_block {c : Checker} (wide : c.options.blockScoping = false) : (b : Block) →
    (c.block b).2.scope.lookup = known b.declared c.scope.lookup
  | ⟨body, _⟩ => by
    simp only [block, Block.declared, openBlock_wide wide]
    rw [closeBlock_wide ((advance_stmts c (some .void) body).options ▸ wide), lookup_stmts wide]
termination_by structural b => b

theorem lookup_stmts {c : Checker} (wide : c.options.blockScoping = false) {last : Option Ty} : (body : List Stmt) →
    (c.stmts last body).2.scope.lookup = known (Stmt.declaredBy body) c.scope.lookup
  | [] => rfl
  | st :: rest => by
    simp only [stmts, Stmt.declaredBy]
    rw [lookup_stmts (c := (c.stmt st).2) ((c.advance_stmt st).options ▸ wide) rest, lookup_stmt wide st, known_append]
termination_by structural body => body

end

end Checker

def FunctionState.types (s : FunctionState) (name : String) : Option Ty := (s.locals.get? name).map (·.ty)

theorem FunctionState.types_congr {s s' : FunctionState} (same : s'.locals = s.locals) : s'.types = s.types := by
  funext name
  rw [types, same, types]

namespace Lower

variable {scope : Scope} {s : FunctionState}

/-- Expressions declare nothing. -/
theorem invariant_locals (scope : Scope) (locals : NameMap Typed) : Invariant scope fun s => s.locals = locals :=
  ⟨fun _ _ _ same => same, fun _ same => same, fun _ same => same⟩

theorem types_kept {α : Type} {x : Lower α} {s : FunctionState} (kept : Preserves (·.locals = s.locals) x) :
    Wp x s (fun _ s' => s'.types = s.types) fun _ _ => True :=
  (kept s rfl).imp (fun _ _ => FunctionState.types_congr) fun _ _ _ => trivial

theorem types_valueOf (scope : Scope) (e : Expr) (s : FunctionState) :
    Wp (valueOf e (expr scope .value e)) s (fun _ s' => s'.types = s.types) fun _ _ => True :=
  types_kept ((invariant_locals scope s.locals).expr .value e).valueOf

theorem types_condition (scope : Scope) (e : Expr) (s : FunctionState) :
    Wp (condition scope e) s (fun _ s' => s'.types = s.types) fun _ _ => True :=
  types_kept (invariant_locals scope s.locals).condition

theorem types_evaluate (scope : Scope) (e : Expr) (s : FunctionState) :
    Wp (evaluate scope e) s (fun _ s' => s'.types = s.types) fun _ _ => True :=
  types_kept (invariant_locals scope s.locals).evaluate

theorem types_bind (s : FunctionState) (name : String) (slot : Ir.Value) (ty : Ty) :
    FunctionState.types { s with locals := s.locals.insert name ⟨slot, ty⟩ } = known [(name, ty)] s.types := by
  rw [known_singleton]
  funext other
  simp only [FunctionState.types, NameMap.get?_insert]
  split <;> rfl

theorem types_joined (s : FunctionState) (merge id : Nat) : (goOnIn (joined s merge) id).types = s.types := by
  refine FunctionState.types_congr ?_
  simp only [goOnIn, joined]
  split <;> rfl

theorem types_loop {test : Expr} {body step : Lower Unit} {declared : List (String × Ty)}
    (bodyRun : ∀ s, Wp body s (fun _ s' => s'.types = known declared s.types) fun _ _ => True)
    (stepRun : ∀ s, Wp step s (fun _ s' => s'.types = s.types) fun _ _ => True) :
    Wp (loop scope test body step) s (fun _ s' => s'.types = known declared s.types) fun _ _ => True := by
  rw [wp_loop rfl]
  refine (types_condition scope test _).mono fun cond s₁ tested => ?_
  refine (bodyRun _).mono fun _ s₂ filled => ?_
  have filled : s₂.types = known declared s.types := filled.trans (congrArg _ tested)
  split
  · exact filled
  · exact (stepRun s₂).mono fun _ s₃ stepped => stepped.trans filled

mutual

theorem types_stmt : (st : Stmt) → {s : FunctionState} →
    Wp (stmt scope false st) s (fun _ s' => s'.types = known st.declared s.types) fun _ _ => True
  | .letIn _ name ty none, s => by
    simp only [stmt, wp_bind, wp_build, wp_bindLocal]
    exact types_bind _ name _ ty
  | .letIn _ name ty (some init), s => by
    simp only [stmt, wp_bind, wp_build, wp_write, wp_bindLocal]
    refine (types_valueOf scope init _).mono fun typed s₁ same => ?_
    exact (types_bind _ name _ ty).trans (congrArg _ same)
  | .ret _ none, s => rfl
  | .ret _ (some e), s => by
    simp only [stmt, wp_bind, wp_terminate]
    exact types_valueOf scope e s
  | .cond _ chain, s => by
    simp only [stmt, wp_bind, wp_build, wp_continueIn]
    exact types_ifChain chain
  | .while _ test body, s => by
    simp only [stmt]
    exact types_loop (fun _ => types_block body) fun _ => rfl
  | .for _ init test step body, s => by
    simp only [stmt, wp_inScope, wp_bind, Stmt.declared]
    refine (types_stmt init).mono fun _ s₁ started => ?_
    refine (types_loop (fun _ => types_block body) (types_evaluate scope step)).mono fun _ s₂ filled => ?_
    rw [known_append, ← started]
    exact filled
  | .expr e, s => by
    simp only [stmt]
    exact types_evaluate scope e s
termination_by structural st => st

theorem types_ifChain {merge : Nat} : (chain : IfChain) → {s : FunctionState} →
    Wp (ifChain scope false merge chain) s (fun _ s' => s'.types = known chain.declared s.types) fun _ _ => True
  | .branch test body rest, s => by
    rw [wp_ifBranch]
    refine (types_condition scope test s).mono fun cond s₁ tested => ?_
    refine (types_block body).mono fun _ s₂ filled => ?_
    refine (types_ifChain rest).mono fun _ s₃ others => ?_
    rw [others, types_joined, filled, IfChain.declared, known_append]
    exact congrArg (fun names => known _ (known _ names)) tested
  | .otherwise body, s => by
    simp only [ifChain, wp_bind, wp_branchTo]
    refine (types_block body).mono fun _ s₁ filled => ?_
    split <;> exact filled
  | .done, s => by
    simp only [ifChain, wp_branchTo]
    split <;> rfl
termination_by structural chain => chain

theorem types_block : (b : Block) → {s : FunctionState} →
    Wp (block scope false b) s (fun _ s' => s'.types = known b.declared s.types) fun _ _ => True
  | ⟨body, _⟩, s => by
    simp only [block, wp_inScope]
    exact types_stmts body
termination_by structural b => b

theorem types_stmts : (body : List Stmt) → {s : FunctionState} →
    Wp (stmts scope false body) s (fun _ s' => s'.types = known (Stmt.declaredBy body) s.types) fun _ _ => True
  | [], s => rfl
  | st :: rest, s => by
    simp only [stmts, wp_bind, Stmt.declaredBy]
    refine (types_stmt st).mono fun _ s₁ first => ?_
    refine (types_stmts rest).mono fun _ s₂ others => ?_
    rw [others, first, known_append]
termination_by structural body => body

end

theorem types_params : (ps : List Param) → (index : Nat) → {s : FunctionState} →
    Wp (params index ps) s (fun _ s' => s'.types = known (ps.map fun p => (p.name, p.ty)) s.types) fun _ _ => True
  | [], _, _ => rfl
  | p :: rest, index, s => by
    rw [wp_params_cons]
    refine (types_params rest (index + 1)).mono fun _ s₁ others => ?_
    have first : (storedParam s index p).types = known [(p.name, p.ty)] s.types := types_bind _ p.name _ p.ty
    rw [others, first, ← known_append]
    rfl

end Lower

end StructLang
