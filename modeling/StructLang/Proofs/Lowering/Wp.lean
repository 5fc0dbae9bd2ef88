import StructLang.Lowering.Document

namespace StructLang.Lower

variable {α β : Type} {s : FunctionState}

def Wp (x : Lower α) (s : FunctionState) (post : α → FunctionState → Prop)
    (fail : LoweringError → FunctionState → Prop) : Prop :=
  match x s with
  | .ok a s => post a s
  | .error e s => fail e s

variable {post post' : α → FunctionState → Prop} {fail fail' : LoweringError → FunctionState → Prop}

theorem Wp.imp {x : Lower α} (run : Wp x s post fail) (ok : ∀ a s, post a s → post' a s)
    (error : ∀ e s, fail e s → fail' e s) : Wp x s post' fail' := by
  unfold Wp at run ⊢
  cases result : x s with
  | ok a s => rw [result] at run; exact ok a s run
  | error e s => rw [result] at run; exact error e s run

theorem Wp.mono {x : Lower α} (run : Wp x s post fail) (ok : ∀ a s, post a s → post' a s) :
    Wp x s post' fail := run.imp ok fun _ _ => id

theorem Wp.ok {x : Lower α} (run : Wp x s post fail) {a : α} {s' : FunctionState} (result : x s = .ok a s') :
    post a s' := by
  unfold Wp at run
  rwa [result] at run

theorem Wp.error {x : Lower α} (run : Wp x s post fail) {e : LoweringError} {s' : FunctionState}
    (result : x s = .error e s') : fail e s' := by
  unfold Wp at run
  rwa [result] at run

theorem Wp.and {x : Lower α} (run : Wp x s post fail) (run' : Wp x s post' fail') :
    Wp x s (fun a s => post a s ∧ post' a s) (fun e s => fail e s ∧ fail' e s) := by
  unfold Wp at run run' ⊢
  cases result : x s <;> rw [result] at run run' <;> exact ⟨run, run'⟩

theorem wp_bind {x : Lower α} {f : α → Lower β} {post : β → FunctionState → Prop} :
    Wp (x >>= f) s post fail ↔ Wp x s (fun a s => Wp (f a) s post fail) fail := by
  simp only [Wp, bind, EStateM.bind]
  cases x s <;> rfl

theorem wp_map {x : Lower α} {f : α → β} {post : β → FunctionState → Prop} :
    Wp (f <$> x) s post fail ↔ Wp x s (fun a s => post (f a) s) fail := by
  simp only [Wp, Functor.map, EStateM.map]
  cases x s <;> rfl

@[simp] theorem wp_pure {a : α} : Wp (pure a) s post fail ↔ post a s := Iff.rfl

@[simp] theorem wp_throw {e : LoweringError} : Wp (throw e) s post fail ↔ fail e s := Iff.rfl

@[simp] theorem wp_ite {c : Bool} {x y : Lower α} :
    Wp (if c then x else y) s post fail ↔ if c then Wp x s post fail else Wp y s post fail := by
  cases c <;> exact Iff.rfl

@[simp] theorem wp_get {post : FunctionState → FunctionState → Prop} : Wp get s post fail ↔ post s s := Iff.rfl

@[simp] theorem wp_modify {f : FunctionState → FunctionState} {post : Unit → FunctionState → Prop} :
    Wp (modify f) s post fail ↔ post () (f s) := Iff.rfl

@[simp] theorem wp_modifyGet {f : FunctionState → α × FunctionState} :
    Wp (modifyGet f) s post fail ↔ post (f s).1 (f s).2 := Iff.rfl

@[simp] theorem wp_build {step : Ir.FunctionBuilder → α × Ir.FunctionBuilder} :
    Wp (build step) s post fail ↔ post (step s.function).1 { s with function := (step s.function).2 } := Iff.rfl

@[simp] theorem wp_write {step : Ir.FunctionBuilder → Ir.FunctionBuilder} {post : Unit → FunctionState → Prop} :
    Wp (write step) s post fail ↔ post () { s with function := step s.function } := Iff.rfl

@[simp] theorem wp_terminate {t : Ir.Terminator} {post : Unit → FunctionState → Prop} :
    Wp (terminate t) s post fail ↔ post () { s with function := s.function.terminate t } := Iff.rfl

@[simp] theorem wp_isTerminated {post : Bool → FunctionState → Prop} :
    Wp isTerminated s post fail ↔ post s.function.isTerminated s := Iff.rfl

@[simp] theorem wp_bindLocal {name : String} {slot : Ir.Value} {ty : Ty} {post : Unit → FunctionState → Prop} :
    Wp (bindLocal name slot ty) s post fail ↔ post () { s with locals := s.locals.insert name ⟨slot, ty⟩ } :=
  Iff.rfl

@[simp] theorem wp_continueIn {id : Nat} {post : Unit → FunctionState → Prop} :
    Wp (continueIn id) s post fail ↔
      post () { s with function := (s.function.append id).switchTo id } := Iff.rfl

theorem wp_branchTo {id : Nat} {post : Unit → FunctionState → Prop} :
    Wp (branchTo id) s post fail ↔
      post () (if s.function.isTerminated then s else { s with function := s.function.terminate (.br id) }) := by
  simp only [branchTo, wp_bind, wp_isTerminated]
  cases s.function.isTerminated <;> exact Iff.rfl

theorem wp_inScope {blockScoping : Bool} {body : Lower Unit} {post : Unit → FunctionState → Prop} :
    Wp (inScope blockScoping body) s post fail ↔
      Wp body s (fun _ s' => post () (if blockScoping then { s' with locals := s.locals } else s')) fail := by
  simp only [inScope, wp_bind, wp_get]
  cases blockScoping <;> exact Iff.rfl

theorem wp_valueOf {e : Expr} {x : Lower (Option Typed)} {post : Typed → FunctionState → Prop} :
    Wp (valueOf e x) s post fail ↔
      Wp x s (fun result s => result.elim (fail (.voidValue e.describe) s) (post · s)) fail := by
  simp only [valueOf, wp_bind]
  constructor
  all_goals
    intro run
    exact Wp.mono run fun result s h => by cases result <;> exact h

end StructLang.Lower
