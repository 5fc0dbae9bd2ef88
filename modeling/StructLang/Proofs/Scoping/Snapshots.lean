import Mathlib
import StructLang.Proofs.Scope

namespace StructLang

inductive ScopeUse
  | bind (name : String) (ty : Ty)
  | lookup (name : String)
  | openBlock
  | closeBlock
  deriving DecidableEq, Repr

structure ScopeUse.Balanced (uses : List ScopeUse) : Prop where
  opened : ∀ front, front <+: uses → front.count .closeBlock ≤ front.count .openBlock
  closed : uses.count .closeBlock = uses.count .openBlock

namespace Scope

def use (s : Scope) : ScopeUse → Scope
  | .bind name ty => s.bind name ty
  | .lookup _ => s
  | .openBlock => s.openBlock
  | .closeBlock => s.closeBlock

def useAll (s : Scope) (uses : List ScopeUse) : Scope := uses.foldl use s

theorem useAll_cons (s : Scope) (u : ScopeUse) (rest : List ScopeUse) : s.useAll (u :: rest) = (s.use u).useAll rest := rfl

end Scope

/-- A table of names, with a copy of it for each open block from when the block was opened, the innermost first. -/
structure Snapshots where
  names : String → Option Ty
  saved : List (String → Option Ty)

namespace Snapshots

def empty : Snapshots := ⟨fun _ => none, []⟩

def bind (c : Snapshots) (name : String) (ty : Ty) : Snapshots :=
  { c with names := Function.update c.names name (some ty) }

def openBlock (c : Snapshots) : Snapshots := ⟨c.names, c.names :: c.saved⟩

def closeBlock (c : Snapshots) : Snapshots :=
  match c.saved with
  | [] => c
  | names :: outer => ⟨names, outer⟩

def use (c : Snapshots) : ScopeUse → Snapshots
  | .bind name ty => c.bind name ty
  | .lookup _ => c
  | .openBlock => c.openBlock
  | .closeBlock => c.closeBlock

def useAll (c : Snapshots) (uses : List ScopeUse) : Snapshots := uses.foldl use c

end Snapshots

namespace Scope

variable {s t : Scope}

theorem Same.lookup (same : Same s t) : s.lookup = t.lookup := congrArg Context.names same.context

theorem Same.closeBlocks (same : Same s t) (n : Nat) : Same (Scope.closeBlock^[n] s) (Scope.closeBlock^[n] t) := by
  induction n generalizing s t with
  | zero => exact same
  | succ n ih => exact ih same.closeBlock

theorem length_frames_bind (s : Scope) (name : String) (ty : Ty) : (s.bind name ty).frames.length = s.frames.length := by
  unfold bind
  cases s.frames with
  | nil => rfl
  | cons frame outer =>
    dsimp only
    split <;> rfl

theorem length_frames_closeBlock (s : Scope) : s.closeBlock.frames.length = s.frames.length - 1 := by
  unfold closeBlock
  cases frames : s.frames <;> simp [frames]

theorem lookup_bind (s : Scope) (name : String) (ty : Ty) :
    (s.bind name ty).lookup = Function.update s.lookup name (some ty) := by
  funext other
  rw [Function.update_apply]
  exact NameMap.get?_insert s.names name other ty

/-- The log of the innermost block takes a binding back, so it does not show once that block is closed. -/
theorem closeBlocks_bind (inside : s.frames ≠ []) (name : String) (ty : Ty) (n : Nat) :
    Same (closeBlock^[n + 1] (s.bind name ty)) (closeBlock^[n + 1] s) :=
  (closeBlock_bind inside name ty).closeBlocks n

theorem closeBlocks_outside (outside : s.frames = []) (n : Nat) : closeBlock^[n] s = s := by
  refine Function.iterate_fixed ?_ n
  rw [closeBlock, outside]

/-- A block was opened in `s`, and inside of it there are `depth` more open blocks in `t`. -/
structure Encloses (s : Scope) (depth : Nat) (t : Scope) : Prop where
  inside : depth < t.frames.length
  closed : Same (closeBlock^[depth + 1] t) s

namespace Encloses

variable {depth : Nat}

theorem opened (s : Scope) : Encloses s 0 s.openBlock := ⟨Nat.succ_pos _, .refl s⟩

theorem bind (encloses : Encloses s depth t) (name : String) (ty : Ty) : Encloses s depth (t.bind name ty) where
  inside := length_frames_bind t name ty ▸ encloses.inside
  closed := (closeBlocks_bind (List.ne_nil_of_length_pos (Nat.zero_lt_of_lt encloses.inside)) name ty depth).trans
    encloses.closed

theorem openBlock (encloses : Encloses s depth t) : Encloses s (depth + 1) t.openBlock :=
  ⟨Nat.succ_lt_succ encloses.inside, encloses.closed⟩

theorem closeBlock (encloses : Encloses s (depth + 1) t) : Encloses s depth t.closeBlock where
  inside := by
    have := encloses.inside
    rw [length_frames_closeBlock]
    omega
  closed := encloses.closed

/-- Uses that close no block opened before them lead to a depth that the numbers of opened and closed blocks tell. -/
theorem useAll {uses : List ScopeUse} (encloses : Encloses s depth t)
    (opened : ∀ front, front <+: uses → front.count .closeBlock ≤ depth + front.count .openBlock) :
    ∃ depth', depth' + uses.count .closeBlock = depth + uses.count .openBlock ∧ Encloses s depth' (t.useAll uses) := by
  induction uses generalizing depth t with
  | nil => exact ⟨depth, rfl, encloses⟩
  | cons u rest ih =>
    rw [useAll_cons]
    have later (front : List ScopeUse) (here : front <+: rest) := opened (u :: front) (List.cons_prefix_cons.mpr ⟨rfl, here⟩)
    cases u with
    | bind name ty => simpa [use] using ih (encloses.bind name ty) (by simpa using later)
    | lookup name => simpa [use] using ih encloses (by simpa using later)
    | openBlock =>
      obtain ⟨depth', counted, reached⟩ := ih encloses.openBlock fun front here => by
        have := later front here
        simp at this
        omega
      refine ⟨depth', ?_, reached⟩
      simp
      omega
    | closeBlock =>
      cases depth with
      | zero => simpa using later [] (List.nil_prefix ..)
      | succ depth =>
        obtain ⟨depth', counted, reached⟩ := ih encloses.closeBlock fun front here => by
          have := later front here
          simp at this
          omega
        refine ⟨depth', ?_, reached⟩
        simp
        omega

end Encloses

structure Tracks (s : Scope) (c : Snapshots) : Prop where
  depth : s.frames.length = c.saved.length
  names : ∀ n, (closeBlock^[n] s).lookup = (Snapshots.closeBlock^[n] c).names

namespace Tracks

variable {c : Snapshots}

theorem bind (tracks : Tracks s c) (name : String) (ty : Ty) : Tracks (s.bind name ty) (c.bind name ty) := by
  refine ⟨(length_frames_bind s name ty).trans tracks.depth, fun n => ?_⟩
  have now : (s.bind name ty).lookup = (c.bind name ty).names := by
    rw [lookup_bind, show s.lookup = c.names from tracks.names 0]
    rfl
  have same := tracks.depth
  cases saved : c.saved with
  | nil =>
    -- Without an open block there is nothing to close on either side.
    have outside : s.frames = [] := List.length_eq_zero_iff.mp (by rw [same, saved, List.length_nil])
    have fixed : (c.bind name ty).closeBlock = c.bind name ty := by rw [Snapshots.closeBlock, Snapshots.bind, saved]
    rw [closeBlocks_outside (by rw [Scope.bind, outside]), Function.iterate_fixed fixed, now]
  | cons names outer =>
    have inside : s.frames ≠ [] := List.ne_nil_of_length_pos (by rw [same, saved]; exact Nat.succ_pos _)
    cases n with
    | zero => exact now
    | succ n =>
      have closed : (c.bind name ty).closeBlock = c.closeBlock := by simp [Snapshots.closeBlock, Snapshots.bind, saved]
      rw [(closeBlocks_bind inside name ty n).lookup, tracks.names (n + 1), Function.iterate_succ_apply,
        Function.iterate_succ_apply, closed]

theorem openBlock (tracks : Tracks s c) : Tracks s.openBlock c.openBlock := by
  refine ⟨congrArg Nat.succ tracks.depth, fun n => ?_⟩
  cases n with
  | zero => exact tracks.names 0
  | succ n => exact tracks.names n

theorem closeBlock (tracks : Tracks s c) : Tracks s.closeBlock c.closeBlock := by
  refine ⟨?_, fun n => tracks.names (n + 1)⟩
  rw [length_frames_closeBlock, tracks.depth, Snapshots.closeBlock]
  cases saved : c.saved <;> simp [saved]

theorem use (tracks : Tracks s c) : (u : ScopeUse) → Tracks (s.use u) (c.use u)
  | .bind name ty => tracks.bind name ty
  | .lookup _ => tracks
  | .openBlock => tracks.openBlock
  | .closeBlock => tracks.closeBlock

theorem useAll (tracks : Tracks s c) (uses : List ScopeUse) : Tracks (s.useAll uses) (c.useAll uses) := by
  induction uses generalizing s c with
  | nil => exact tracks
  | cons u rest ih => exact ih (tracks.use u)

end Tracks

theorem tracks_empty : Tracks empty Snapshots.empty := by
  refine ⟨rfl, fun n => ?_⟩
  rw [closeBlocks_outside rfl, Function.iterate_fixed rfl]
  rfl

/-- A block gives back the names and the blocks around it, whatever is done in it that opens and closes blocks in pairs.
After any uses of an empty scope a look-up finds what it would in a table that is copied as a whole for each block;
closing a block where none is open does nothing. -/
theorem logs_stand_for_snapshots :
    (∀ (s : Scope) (uses : List ScopeUse), ScopeUse.Balanced uses →
      (s.openBlock.useAll uses).closeBlock.lookup = s.lookup ∧
      (s.openBlock.useAll uses).closeBlock.frames = s.frames) ∧
    ∀ (uses : List ScopeUse) (name : String),
      (empty.useAll uses).lookup name = (Snapshots.empty.useAll uses).names name := by
  constructor
  · intro s uses balanced
    obtain ⟨depth, counted, reached⟩ := (Encloses.opened s).useAll (by simpa using balanced.opened)
    have none : depth = 0 := by
      have := balanced.closed
      omega
    subst none
    exact ⟨reached.closed.lookup, reached.closed.frames⟩
  · intro uses name
    exact congrFun ((tracks_empty.useAll uses).names 0) name

def shadowing : List ScopeUse :=
  [.bind "x" (.float 64), .openBlock, .bind "x" (.int 8), .bind "y" .void, .bind "x" (.int 16), .closeBlock, .lookup "y",
    .bind "x" (.int 32)]

theorem logs_stand_for_snapshots_shadowing :
    ScopeUse.Balanced shadowing ∧
    ((empty.bind "x" (.int 64)).openBlock.useAll shadowing).lookup "x" = some (.int 32) ∧
    ((empty.bind "x" (.int 64)).openBlock.useAll shadowing).closeBlock.lookup "x" = some (.int 64) ∧
    (empty.useAll (.closeBlock :: shadowing.take 6)).lookup "x" = some (.float 64) := by
  have opened : ∀ front ∈ shadowing.inits, front.count .closeBlock ≤ front.count .openBlock := by decide
  have balanced : ScopeUse.Balanced shadowing :=
    ⟨fun front here => opened front ((List.mem_inits front shadowing).mpr here), by decide⟩
  obtain ⟨enclosed, anywhere⟩ := logs_stand_for_snapshots
  exact ⟨balanced, rfl, congrFun (enclosed (empty.bind "x" (.int 64)) shadowing balanced).1 "x", anywhere _ "x"⟩

end Scope

end StructLang
