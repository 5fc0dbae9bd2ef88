import StructLang.Proofs.Builder.Labels
import StructLang.Proofs.Lowering.Blocks
import StructLang.Proofs.Lowering.Invariants

namespace StructLang.Lower

open Ir FunctionBuilder

variable {α β : Type} {s : FunctionState}

def Tidy (x : Lower α) : Prop := ∀ s, Wp x s (fun _ s' => s.function.Tidies s'.function) fun _ _ => True

theorem tidy_pure (a : α) : Tidy (pure a) := fun s => .refl s.function

theorem Tidy.bind {x : Lower α} {f : α → Lower β} (first : Tidy x) (second : ∀ a, Tidy (f a)) : Tidy (x >>= f) := by
  intro s
  rw [wp_bind]
  refine (first s).mono fun a s₁ tidies => ?_
  exact (second a s₁).mono fun _ _ tidies' => tidies.trans tidies'

theorem tidy_build {step : FunctionBuilder → α × FunctionBuilder} (tidies : ∀ b : FunctionBuilder, b.Tidies (step b).2) :
    Tidy (build step) :=
  fun s => tidies s.function

theorem tidy_write {step : FunctionBuilder → FunctionBuilder} (tidies : ∀ b : FunctionBuilder, b.Tidies (step b)) :
    Tidy (write step) :=
  fun s => tidies s.function

theorem tidy_alloca (ty : Ir.Ty) : Tidy (build (·.alloca ty)) := tidy_build fun b => .alloca b ty

theorem tidy_store (value addr : Ir.Value) : Tidy (write (·.store value addr)) := tidy_write fun b => .emit b _

/-- Expressions open no blocks and end none. -/
theorem invariant_tidies (scope : Scope) (b : FunctionBuilder) : Invariant scope fun s => b.Tidies s.function where
  emit n _ _ tidies := tidies.trans ((Tidies.bump _ n).trans (.emit _ _))
  alloca ty tidies := tidies.trans (.alloca _ ty)
  intern _ tidies := tidies

theorem Tidy.of_preserves {x : Lower α} (kept : ∀ b : FunctionBuilder, Preserves (fun s => b.Tidies s.function) x) : Tidy x :=
  fun s => (kept s.function s (.refl s.function)).imp (fun _ _ => id) fun _ _ _ => trivial

theorem tidy_value (scope : Scope) (e : Expr) : Tidy (valueOf e (expr scope .value e)) :=
  .of_preserves fun b => ((invariant_tidies scope b).expr .value e).valueOf

theorem tidy_condition (scope : Scope) (e : Expr) : Tidy (condition scope e) :=
  .of_preserves fun b => (invariant_tidies scope b).condition

theorem tidy_evaluate (scope : Scope) (e : Expr) : Tidy (evaluate scope e) :=
  .of_preserves fun b => (invariant_tidies scope b).evaluate

theorem tidy_bindLocal (name : String) (slot : Ir.Value) (ty : Ty) : Tidy (bindLocal name slot ty) :=
  fun s => .refl s.function

theorem Tidy.inScope {body : Lower Unit} (run : Tidy body) (blockScoping : Bool) : Tidy (inScope blockScoping body) := by
  intro s
  rw [wp_inScope]
  refine (run s).mono fun _ s' tidies => ?_
  cases blockScoping <;> exact tidies

theorem tidies_goOnIn (s : FunctionState) (id : Nat) : s.function.Tidies (goOnIn s id).function :=
  (Tidies.append _ id).trans (.switchTo _ id)

theorem tidies_joined {merge : Nat} (live : s.function.Live merge) : s.function.Tidies (joined s merge).function := by
  unfold joined
  split
  · exact .refl _
  · exact .jump live

theorem tidy_loop (scope : Scope) (test : Expr) {body step : Lower Unit} (bodyRun : Tidy body) (stepRun : Tidy step) :
    Tidy (loop scope test body step) := by
  intro s
  rw [wp_loop rfl]
  obtain ⟨entered, testLive, bodyLive, stopLive⟩ := Tidies.enterLoop s.function
  refine (tidy_condition scope test _).mono fun cond s₁ tested => ?_
  have inside : s₁.function.Tidies (inBody s₁ s.function.arena.length cond).function :=
    (Tidies.choose cond (bodyLive.kept tested) (stopLive.kept tested)).trans (.switchTo _ _)
  refine (bodyRun _).mono fun _ s₂ filled => ?_
  have soFar := tested.trans (inside.trans filled)
  split
  · exact entered.trans (soFar.trans (tidies_goOnIn _ _))
  · refine (stepRun _).mono fun _ s₃ stepped => ?_
    have soFar := soFar.trans stepped
    exact entered.trans (soFar.trans ((Tidies.jump (testLive.kept soFar)).trans
      (tidies_goOnIn { s₃ with function := s₃.function.terminate (.br s.function.arena.length) } _)))

mutual

theorem tidy_stmt (scope : Scope) (blockScoping : Bool) : (st : Stmt) → Tidy (stmt scope blockScoping st)
  | .letIn _ name ty none => (tidy_alloca _).bind fun _ => tidy_bindLocal _ _ _
  | .letIn _ name ty (some e) => by
    refine (tidy_alloca _).bind fun slot => (tidy_value scope e).bind fun typed => ?_
    exact (tidy_store _ _).bind fun _ => tidy_bindLocal _ _ _
  | .ret _ none => fun s => .terminate (by simp [Terminator.successors])
  | .ret _ (some e) => by
    refine (tidy_value scope e).bind fun typed s => ?_
    exact .terminate (by simp [Terminator.successors])
  | .cond _ chain => by
    intro s
    simp only [stmt, wp_bind, wp_build, wp_continueIn, create_fst]
    have merge : TargetLabel "if.end" := .of_head (c := 'i') (by decide) (by decide) (by decide)
    have created := Tidies.create s.function merge.plain
    refine (tidy_ifChain scope blockScoping chain (Live.created s.function merge)).mono fun _ s₁ filled => ?_
    exact created.trans (filled.trans (tidies_goOnIn s₁ _))
  | .while _ test body => tidy_loop scope test (tidy_block scope blockScoping body) (tidy_pure _)
  | .for _ init test step body => by
    refine Tidy.inScope ((tidy_stmt scope blockScoping init).bind fun _ => ?_) blockScoping
    exact tidy_loop scope test (tidy_block scope blockScoping body) (tidy_evaluate scope step)
  | .expr e => tidy_evaluate scope e
termination_by structural st => st

theorem tidy_ifChain (scope : Scope) (blockScoping : Bool) {merge : Nat} : (chain : IfChain) → {s : FunctionState} →
    s.function.Live merge →
    Wp (ifChain scope blockScoping merge chain) s (fun _ s' => s.function.Tidies s'.function) fun _ _ => True
  | .branch test body rest, s, live => by
    rw [wp_ifBranch]
    refine (tidy_condition scope test s).mono fun cond s₁ tested => ?_
    have entered := Tidies.enterBranch s₁.function cond
    refine (tidy_block scope blockScoping body _).mono fun _ s₂ filled => ?_
    have soFar := tested.trans (entered.trans filled)
    have onward := tidies_goOnIn (joined s₂ merge) (s₁.function.arena.length + 1)
    have left := soFar.trans ((tidies_joined (live.kept soFar)).trans onward)
    exact (tidy_ifChain scope blockScoping rest (live.kept left)).mono fun _ s₃ others => left.trans others
  | .otherwise body, s, live => by
    simp only [ifChain, wp_bind, wp_branchTo]
    refine (tidy_block scope blockScoping body s).mono fun _ s₁ filled => ?_
    exact filled.trans (tidies_joined (live.kept filled))
  | .done, s, live => by
    simp only [ifChain, wp_branchTo]
    exact tidies_joined live
termination_by structural chain => chain

theorem tidy_block (scope : Scope) (blockScoping : Bool) : (b : Block) → Tidy (block scope blockScoping b)
  | ⟨body, _⟩ => (tidy_stmts scope blockScoping body).inScope blockScoping
termination_by structural b => b

theorem tidy_stmts (scope : Scope) (blockScoping : Bool) : (body : List Stmt) → Tidy (stmts scope blockScoping body)
  | [] => tidy_pure _
  | st :: rest => (tidy_stmt scope blockScoping st).bind fun _ => tidy_stmts scope blockScoping rest
termination_by structural body => body

end

theorem tidy_params : (ps : List Param) → (index : Nat) → Tidy (params index ps)
  | [], _ => tidy_pure _
  | p :: rest, index => by
    refine (tidy_alloca _).bind fun slot => (tidy_store _ _).bind fun _ => ?_
    exact (tidy_bindLocal _ _ _).bind fun _ => tidy_params rest (index + 1)

theorem tidy_body (scope : Scope) (blockScoping : Bool) (f : FunctionDecl) : Tidy (body scope blockScoping f) := by
  refine (tidy_build fun b => .attach b (by decide)).bind fun entry => ?_
  refine (tidy_write fun b => .switchTo b entry).bind fun _ => (tidy_params _ 0).bind fun _ => ?_
  refine (tidy_block scope blockScoping f.body).bind fun _ => ?_
  refine Tidy.bind (fun s => .refl s.function) fun finished => ?_
  cases finished with
  | true => exact tidy_pure _
  | false => exact fun s => .terminate (by split <;> simp [Terminator.successors])

theorem labelled_start (m : ModuleBuilder) (f : FunctionDecl) : (startOf m f).function.Labelled :=
  ⟨nofun, nofun, nofun⟩

theorem labelled_body {scope : Scope} {blockScoping : Bool} {m : ModuleBuilder} {f : FunctionDecl} {s : FunctionState}
    (lowered : body scope blockScoping f (startOf m f) = .ok () s) : s.function.Labelled :=
  ((tidy_body scope blockScoping f (startOf m f)).ok lowered).labelled (labelled_start m f)

end StructLang.Lower
