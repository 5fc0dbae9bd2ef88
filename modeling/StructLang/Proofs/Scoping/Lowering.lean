import StructLang.Proofs.Scoping.Typing

namespace StructLang

structure Scope.SameDeclarations (scope scope' : Scope) : Prop where
  functions : scope'.functions = scope.functions
  structs : scope'.structs = scope.structs

theorem NameMap.get?_insert_eq_put {α : Type} (m : NameMap α) (name : String) (a : α) :
    (m.insert name a).get? = put m.get? name a := funext fun other => m.get?_insert name other a

namespace Lower

variable {α β : Type} {P Q R : NameMap Typed → NameMap Typed → Prop}

/-- Where the first action succeeds, the second one succeeds with other local names, if these are related by `P`: it
gives the same result, writes the same code, and leaves local names that are related by `Q`. -/
def Mirrors (P Q : NameMap Typed → NameMap Typed → Prop) (x y : Lower α) : Prop :=
  ∀ s wide, P s.locals wide →
    Wp x s (fun a s' => ∃ wide', y { s with locals := wide } = .ok a { s' with locals := wide' } ∧ Q s'.locals wide')
      fun _ _ => True

theorem mirrors_pure (a : α) : Mirrors P P (pure a) (pure a) := fun _ wide related => ⟨wide, rfl, related⟩

theorem mirrors_throw {e : LoweringError} {y : Lower α} : Mirrors P Q (throw e) y := fun _ _ _ => trivial

theorem Mirrors.bind {x y : Lower α} {f g : α → Lower β} (first : Mirrors P R x y)
    (next : ∀ a, Mirrors R Q (f a) (g a)) : Mirrors P Q (x >>= f) (y >>= g) := by
  intro s wide related
  rw [wp_bind]
  refine (first s wide related).mono fun a s₁ mirrored => ?_
  obtain ⟨wide₁, ran, related₁⟩ := mirrored
  refine (next a s₁ wide₁ related₁).mono fun b s₂ mirrored => ?_
  obtain ⟨wide₂, ran', related₂⟩ := mirrored
  refine ⟨wide₂, ?_, related₂⟩
  simp only [Bind.bind, EStateM.bind, ran, ran']

theorem Mirrors.map {x y : Lower α} (f : α → β) (mirrors : Mirrors P Q x y) : Mirrors P Q (f <$> x) (f <$> y) := by
  intro s wide related
  rw [wp_map]
  refine (mirrors s wide related).mono fun a s₁ mirrored => ?_
  obtain ⟨wide₁, ran, related₁⟩ := mirrored
  refine ⟨wide₁, ?_, related₁⟩
  simp only [Functor.map, EStateM.map, ran]

theorem mirrors_get {f g : FunctionState → Lower α}
    (next : ∀ s wide, P s.locals wide → Mirrors P Q (f s) (g { s with locals := wide })) :
    Mirrors P Q (get >>= f) (get >>= g) := by
  intro s wide related
  rw [wp_bind]
  exact next s wide related s wide related

theorem mirrors_build (step : Ir.FunctionBuilder → α × Ir.FunctionBuilder) : Mirrors P P (build step) (build step) :=
  fun _ wide related => ⟨wide, rfl, related⟩

theorem mirrors_write (step : Ir.FunctionBuilder → Ir.FunctionBuilder) : Mirrors P P (write step) (write step) :=
  fun _ wide related => ⟨wide, rfl, related⟩

theorem mirrors_terminate (t : Ir.Terminator) : Mirrors P P (terminate t) (terminate t) := mirrors_write _

theorem mirrors_isTerminated : Mirrors P P isTerminated isTerminated := fun _ wide related => ⟨wide, rfl, related⟩

theorem mirrors_continueIn (id : Nat) : Mirrors P P (continueIn id) (continueIn id) :=
  (mirrors_write _).bind fun _ => mirrors_write _

theorem mirrors_branchTo (id : Nat) : Mirrors P P (branchTo id) (branchTo id) := by
  refine mirrors_isTerminated.bind fun finished => ?_
  cases finished with
  | true => exact mirrors_pure ()
  | false => exact mirrors_terminate _

theorem Mirrors.valueOf {e : Expr} {x y : Lower (Option Typed)} (mirrors : Mirrors P Q x y) :
    Mirrors P Q (valueOf e x) (valueOf e y) := by
  refine mirrors.bind fun result => ?_
  cases result with
  | none => exact mirrors_throw
  | some typed => exact mirrors_pure typed

theorem mirrors_addressOf {e : Expr} {lower lower' : Want → Lower (Option Typed)}
    (mirrors : ∀ want, Mirrors P P (lower want) (lower' want)) :
    Mirrors P P (addressOf e lower) (addressOf e lower') := by
  unfold addressOf
  split
  · exact (mirrors .address).valueOf
  · refine (mirrors .value).valueOf.bind fun typed => (mirrors_build _).bind fun slot => ?_
    exact (mirrors_write _).bind fun _ => mirrors_pure _

theorem mirrors_access (addr : Ir.Value) (ty : Ty) (want : Want) :
    Mirrors P P (access addr ty want) (access addr ty want) := by
  cases want with
  | address => exact mirrors_pure _
  | value => exact (mirrors_build _).bind fun _ => mirrors_pure _

theorem mirrors_pointee (operation : String) (ty : Ty) : Mirrors P P (pointee operation ty) (pointee operation ty) := by
  unfold pointee
  split
  · exact mirrors_pure _
  · exact mirrors_throw

theorem mirrors_checkField (struct name : String) (index : Nat) (value : Ir.Value) :
    Mirrors P P (checkField struct name index value) (checkField struct name index value) := by
  refine mirrors_get fun s wide _ => ?_
  dsimp only
  split
  · exact mirrors_throw
  split
  · exact mirrors_pure ()
  · exact mirrors_throw

theorem mirrors_negate (operand : Typed) : Mirrors P P (negate operand) (negate operand) := by
  unfold negate
  split
  · exact (mirrors_build _).bind fun _ => mirrors_pure _
  · exact (mirrors_build _).bind fun _ => mirrors_pure _
  · exact mirrors_throw

theorem mirrors_combine (op : BinaryOp) (lhs rhs : Typed) : Mirrors P P (combine op lhs rhs) (combine op lhs rhs) := by
  simp only [combine]
  cases lhs.value.ty with
  | float width => cases op.onFloats <;> exact (mirrors_build _).bind fun _ => mirrors_pure _
  | int width => cases op.onInts <;> exact (mirrors_build _).bind fun _ => mirrors_pure _
  | ptr =>
    cases op.onInts with
    | inl op => exact mirrors_throw
    | inr pred => exact (mirrors_build _).bind fun _ => mirrors_pure _
  | void => exact mirrors_throw
  | struct name => exact mirrors_throw

section Scopes

variable {scope scope' : Scope} (same : scope.SameDeclarations scope')
include same

theorem mirrors_field (struct name : String) : Mirrors P P (field scope struct name) (field scope' struct name) := by
  refine mirrors_get fun s wide _ => ?_
  rw [same.structs]
  dsimp only
  split
  · exact mirrors_throw
  split
  · exact mirrors_throw
  split
  · exact mirrors_throw
  split
  · exact mirrors_throw
  · exact mirrors_pure _

theorem mirrors_callee (name : String) : Mirrors P P (callee scope name) (callee scope' name) := by
  refine mirrors_get fun s wide _ => ?_
  rw [same.functions]
  dsimp only
  split
  · exact mirrors_pure _
  · exact mirrors_throw

end Scopes

def Finds (P : NameMap Typed → NameMap Typed → Prop) : Prop :=
  ∀ locals wide, P locals wide → ∀ name slot, locals.get? name = some slot → wide.get? name = some slot

variable {scope scope' : Scope}

mutual

theorem mirrors_expr (same : scope.SameDeclarations scope') (finds : Finds P) : (want : Want) → (e : Expr) →
    Mirrors P P (expr scope want e) (expr scope' want e)
  | _, .int .. => mirrors_pure _
  | _, .float .. => mirrors_pure _
  | _, .string _ text => by
    simp only [expr]
    exact Mirrors.bind (fun _ wide related => ⟨wide, rfl, related⟩) fun _ => mirrors_pure _
  | want, .variable _ name => by
    simp only [expr]
    refine mirrors_get fun s wide related => ?_
    cases found : s.locals.get? name with
    | none => exact mirrors_throw
    | some slot =>
      rw [finds s.locals wide related name slot found]
      exact (mirrors_access _ _ want).map some
  | _, .assign _ target value => by
    simp only [expr]
    refine (mirrors_expr same finds .value value).valueOf.bind fun typed => ?_
    refine (mirrors_addressOf fun want => mirrors_expr same finds want target).bind fun addr => ?_
    exact (mirrors_write _).bind fun _ => mirrors_pure _
  | _, .binary _ op lhs rhs => by
    simp only [expr]
    refine (mirrors_expr same finds .value lhs).valueOf.bind fun left => ?_
    exact (mirrors_expr same finds .value rhs).valueOf.bind fun right => (mirrors_combine op left right).map some
  | _, .unary _ .ref operand => by
    simp only [expr]
    exact (mirrors_addressOf fun want => mirrors_expr same finds want operand).bind fun addr => mirrors_pure _
  | want, .unary _ .deref operand => by
    simp only [expr]
    refine (mirrors_expr same finds .value operand).valueOf.bind fun pointer => ?_
    exact (mirrors_pointee "*" pointer.ty).bind fun target => (mirrors_access _ _ want).map some
  | _, .unary _ .neg operand => by
    simp only [expr]
    exact (mirrors_expr same finds .value operand).valueOf.bind fun typed => (mirrors_negate typed).map some
  | _, .call _ name _ args => by
    simp only [expr]
    refine (mirrors_callee same name).bind fun returns => (mirrors_exprs same finds args).bind fun values => ?_
    exact (mirrors_build _).bind fun result => mirrors_pure _
  | want, .field _ base name => by
    simp only [expr]
    refine (mirrors_addressOf fun want => mirrors_expr same finds want base).bind fun addr => ?_
    split
    · refine (mirrors_field same _ name).bind fun found => (mirrors_build _).bind fun address => ?_
      exact (mirrors_access _ _ want).map some
    · exact mirrors_throw
  | want, .index _ base offset => by
    simp only [expr]
    refine (mirrors_expr same finds .value base).valueOf.bind fun pointer => ?_
    refine (mirrors_pointee "[]" pointer.ty).bind fun target => ?_
    refine (mirrors_expr same finds .value offset).valueOf.bind fun index => ?_
    exact (mirrors_build _).bind fun addr => (mirrors_access _ _ want).map some
  | want, .struct _ name fields => by
    simp only [expr]
    refine (mirrors_build _).bind fun slot => (mirrors_inits same finds name slot fields).bind fun _ => ?_
    exact (mirrors_access _ _ want).map some
termination_by structural _ e => e

theorem mirrors_exprs (same : scope.SameDeclarations scope') (finds : Finds P) : (es : List Expr) →
    Mirrors P P (exprs scope es) (exprs scope' es)
  | [] => mirrors_pure _
  | e :: rest => by
    simp only [exprs]
    refine (mirrors_expr same finds .value e).valueOf.bind fun first => ?_
    exact (mirrors_exprs same finds rest).bind fun others => mirrors_pure _
termination_by structural es => es

theorem mirrors_inits (same : scope.SameDeclarations scope') (finds : Finds P) (struct : String) (slot : Ir.Value) :
    (fields : List FieldInit) → Mirrors P P (inits scope struct slot fields) (inits scope' struct slot fields)
  | [] => mirrors_pure _
  | first :: rest => by
    simp only [inits]
    exact (mirrors_init same finds struct slot first).bind fun _ => mirrors_inits same finds struct slot rest
termination_by structural fields => fields

theorem mirrors_init (same : scope.SameDeclarations scope') (finds : Finds P) (struct : String) (slot : Ir.Value) :
    (first : FieldInit) → Mirrors P P (init scope struct slot first) (init scope' struct slot first)
  | ⟨name, value, _⟩ => by
    simp only [init]
    refine (mirrors_field same struct name).bind fun found => ?_
    refine (mirrors_expr same finds .value value).valueOf.bind fun typed => ?_
    refine (mirrors_checkField struct name found.1 typed.value).bind fun _ => ?_
    exact (mirrors_build _).bind fun addr => mirrors_write _
termination_by structural first => first

end

section Statements

variable (same : scope.SameDeclarations scope')
include same

theorem mirrors_condition (finds : Finds P) (e : Expr) : Mirrors P P (condition scope e) (condition scope' e) := by
  refine (mirrors_expr same finds .value e).valueOf.bind fun typed => ?_
  split
  · exact mirrors_pure _
  · exact mirrors_build _
  · exact mirrors_throw

theorem mirrors_evaluate (finds : Finds P) (e : Expr) : Mirrors P P (evaluate scope e) (evaluate scope' e) :=
  (mirrors_expr same finds .value e).bind fun _ => mirrors_pure ()

theorem mirrors_loop (finds : Finds P) (test : Expr) {body body' step step' : Lower Unit}
    (bodies : Mirrors P Q body body') (steps : Mirrors Q Q step step') :
    Mirrors P Q (loop scope test body step) (loop scope' test body' step') := by
  refine (mirrors_build _).bind fun testBlock => (mirrors_build _).bind fun bodyBlock => ?_
  refine (mirrors_build _).bind fun exit => (mirrors_terminate _).bind fun _ => (mirrors_write _).bind fun _ => ?_
  refine (mirrors_condition same finds test).bind fun cond => ?_
  refine (mirrors_terminate _).bind fun _ => (mirrors_write _).bind fun _ => bodies.bind fun _ => ?_
  refine mirrors_isTerminated.bind fun finished => ?_
  cases finished with
  | true => exact mirrors_continueIn exit
  | false => exact steps.bind fun _ => (mirrors_terminate _).bind fun _ => mirrors_continueIn exit

end Statements

def Tracks (base : String → Option Typed) (coming : List (String × Ty)) (locals wide : NameMap Typed) : Prop :=
  Widens locals.get? wide.get? base coming

variable {base : String → Option Typed} {inner coming : List (String × Ty)}

theorem finds_tracks : Finds (Tracks base coming) := fun _ _ tracks => tracks.known

theorem mirrors_bindLocal (name : String) (slot : Ir.Value) (ty : Ty) :
    Mirrors (Tracks base ((name, ty) :: coming)) (Tracks base coming) (bindLocal name slot ty)
      (bindLocal name slot ty) := by
  intro s wide tracks
  refine ⟨wide.insert name ⟨slot, ty⟩, rfl, ?_⟩
  unfold Tracks
  rw [NameMap.get?_insert_eq_put, NameMap.get?_insert_eq_put]
  exact Widens.put tracks _

theorem inScope_false (body : Lower Unit) : inScope false body = body := by
  funext s
  change EStateM.bind body (fun _ => pure ()) s = body s
  rw [EStateM.bind]
  cases body s <;> rfl

/-- The names that a block declares are forgotten on the one side only, where they are not needed any more. -/
theorem mirrors_inScope {body body' : Lower Unit}
    (inside : ∀ known, Mirrors (Tracks known (inner ++ coming)) (Tracks known coming) body body') :
    Mirrors (Tracks base (inner ++ coming)) (Tracks base coming) (inScope true body) (inScope false body') := by
  intro s wide tracks
  rw [wp_inScope, inScope_false]
  refine (inside s.locals.get? s wide (Widens.enter tracks)).mono fun _ s₁ mirrored => ?_
  obtain ⟨wide₁, ran, atEnd⟩ := mirrored
  exact ⟨wide₁, ran, Widens.leave tracks atEnd⟩

mutual

theorem mirrors_stmt (same : scope.SameDeclarations scope') : (st : Stmt) → {base : String → Option Typed} →
    {coming : List (String × Ty)} →
    Mirrors (Tracks base (st.declared ++ coming)) (Tracks base coming) (stmt scope true st) (stmt scope' false st)
  | .letIn _ name ty none, _, _ => by
    simp only [stmt]
    exact (mirrors_build _).bind fun slot => mirrors_bindLocal name slot ty
  | .letIn _ name ty (some init), _, _ => by
    simp only [stmt]
    refine (mirrors_build _).bind fun slot => (mirrors_expr same finds_tracks .value init).valueOf.bind fun typed => ?_
    exact (mirrors_write _).bind fun _ => mirrors_bindLocal name slot ty
  | .ret _ none, _, _ => mirrors_terminate _
  | .ret _ (some e), _, _ => by
    simp only [stmt]
    exact (mirrors_expr same finds_tracks .value e).valueOf.bind fun typed => mirrors_terminate _
  | .cond _ chain, _, _ => by
    simp only [stmt]
    exact (mirrors_build _).bind fun merge => (mirrors_ifChain same merge chain).bind fun _ => mirrors_continueIn merge
  | .while _ test body, _, _ => by
    simp only [stmt]
    exact mirrors_loop same finds_tracks test (mirrors_block same body) (mirrors_pure ())
  | .for _ init test step body, _, _ => by
    simp only [stmt]
    refine mirrors_inScope fun known => ?_
    rw [Stmt.declared, List.append_assoc]
    refine (mirrors_stmt same init).bind fun _ => ?_
    exact mirrors_loop same finds_tracks test (mirrors_block same body) (mirrors_evaluate same finds_tracks step)
  | .expr e, _, _ => by
    simp only [stmt]
    exact mirrors_evaluate same finds_tracks e
termination_by structural st => st

theorem mirrors_ifChain (same : scope.SameDeclarations scope') : (merge : Nat) → (chain : IfChain) →
    {base : String → Option Typed} → {coming : List (String × Ty)} →
    Mirrors (Tracks base (chain.declared ++ coming)) (Tracks base coming) (ifChain scope true merge chain)
      (ifChain scope' false merge chain)
  | merge, .branch test body rest, _, _ => by
    simp only [ifChain]
    rw [IfChain.declared, List.append_assoc]
    refine (mirrors_condition same finds_tracks test).bind fun cond => (mirrors_build _).bind fun onTrue => ?_
    refine (mirrors_build _).bind fun onFalse => (mirrors_terminate _).bind fun _ => (mirrors_write _).bind fun _ => ?_
    refine (mirrors_block same body).bind fun _ => (mirrors_branchTo merge).bind fun _ => ?_
    exact (mirrors_continueIn onFalse).bind fun _ => mirrors_ifChain same merge rest
  | merge, .otherwise body, _, _ => by
    simp only [ifChain]
    exact (mirrors_block same body).bind fun _ => mirrors_branchTo merge
  | merge, .done, _, _ => by
    simp only [ifChain]
    exact mirrors_branchTo merge
termination_by structural _ chain => chain

theorem mirrors_block (same : scope.SameDeclarations scope') : (b : Block) → {base : String → Option Typed} →
    {coming : List (String × Ty)} →
    Mirrors (Tracks base (b.declared ++ coming)) (Tracks base coming) (block scope true b) (block scope' false b)
  | ⟨body, _⟩, _, _ => by
    simp only [block]
    exact mirrors_inScope fun known => mirrors_stmts same body
termination_by structural b => b

theorem mirrors_stmts (same : scope.SameDeclarations scope') : (body : List Stmt) → {base : String → Option Typed} →
    {coming : List (String × Ty)} →
    Mirrors (Tracks base (Stmt.declaredBy body ++ coming)) (Tracks base coming) (stmts scope true body)
      (stmts scope' false body)
  | [], _, _ => mirrors_pure ()
  | st :: rest, _, _ => by
    simp only [stmts]
    rw [Stmt.declaredBy, List.append_assoc]
    exact (mirrors_stmt same st).bind fun _ => mirrors_stmts same rest
termination_by structural body => body

end

theorem mirrors_params : (ps : List Param) → (index : Nat) →
    Mirrors (Tracks base (ps.map (fun p => (p.name, p.ty)) ++ coming)) (Tracks base coming) (params index ps)
      (params index ps)
  | [], _ => mirrors_pure ()
  | p :: rest, index => by
    simp only [params]
    refine (mirrors_build _).bind fun slot => (mirrors_write _).bind fun _ => ?_
    exact (mirrors_bindLocal p.name slot p.ty).bind fun _ => mirrors_params rest (index + 1)

theorem mirrors_body (same : scope.SameDeclarations scope') (f : FunctionDecl) :
    Mirrors (Tracks base f.declared) (Tracks base []) (body scope true f) (body scope' false f) := by
  refine (mirrors_build _).bind fun entry => (mirrors_write _).bind fun _ => (mirrors_params _ 0).bind fun _ => ?_
  rw [← List.append_nil f.body.declared]
  refine (mirrors_block same f.body).bind fun _ => mirrors_isTerminated.bind fun finished => ?_
  cases finished with
  | true => exact mirrors_pure ()
  | false => exact mirrors_terminate _

end Lower

end StructLang
