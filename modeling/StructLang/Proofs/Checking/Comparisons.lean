import StructLang.Proofs.Checking.Walks
import StructLang.Proofs.Document.Declarations
import StructLang.Proofs.Parse.Nesting
import StructLang.Proofs.Typing.Truth

namespace StructLang

inductive Document.Arises (d : Document) : Ty → Prop
  | returns {f} (declared : f ∈ Document.signatures d) : Arises d f.returns
  | param {f p} (declared : f ∈ Document.signatures d) (member : p ∈ f.params) : Arises d p.ty
  | field {s field} (declared : s ∈ Document.structs d) (member : field ∈ s.fields) : Arises d field.ty
  | letIn {span name ty init} (has : d.HasNode (.stmt (.letIn span name ty init))) : Arises d ty
  | literal {s span inits} (declared : s ∈ Document.structs d) (has : d.HasNode (.expr (.struct span s.name inits))) :
      Arises d (.struct s.name)
  | int : Arises d (.int 64)
  | float : Arises d (.float 64)
  | string : Arises d (.ptr (.int 8))
  | truth : Arises d .bool
  | ptr {ty} (target : Arises d ty) : Arises d (.ptr ty)
  | target {ty} (pointer : Arises d (.ptr ty)) : Arises d ty

inductive Document.Tells (d : Document) : Diagnostic → Prop
  | mismatch {expected got span} (left : d.Arises expected) (right : d.Arises got) (different : expected ≠ got) :
      Tells d ((TypeFault.mismatch expected got).at span)
  | fault {fault : TypeFault} {span} (other : ∀ expected got, fault ≠ .mismatch expected got) : Tells d (fault.at span)
  | hint {span} : Tells d (.note span arrowHint)

namespace Check

variable {α β : Type} {d : Document} {span : Span} {post : α → Prop}

structure Ensures (d : Document) (post : α → Prop) (check : Check α) : Prop where
  result : ∀ a, check.result = some a → post a
  reports : ∀ r ∈ check.reports, d.Tells r

namespace Ensures

theorem pure {a : α} (holds : post a) : Ensures d post (Check.pure a) := by
  refine ⟨?_, by rintro r ⟨⟩⟩
  rintro b ⟨⟩
  exact holds

theorem nothing : Ensures d (fun _ => True) (Check.pure ()) := .pure trivial

theorem giveUp {r : Diagnostic} (tells : d.Tells r) : Ensures d post (Check.giveUp r) :=
  ⟨by rintro a ⟨⟩, List.forall_mem_singleton.mpr tells⟩

theorem report {r : Diagnostic} (tells : d.Tells r) : Ensures d (fun _ => True) (Check.report r) :=
  ⟨fun _ _ => trivial, List.forall_mem_singleton.mpr tells⟩

theorem same {expected got : Ty} (left : d.Arises expected) (right : d.Arises got) :
    Ensures d (fun _ => True) (Check.same span expected got) := by
  unfold Check.same
  split
  · exact .nothing
  · exact .report (.mismatch left right ‹_›)

theorem attempt {check : Check α} (ensures : Ensures d post check) :
    Ensures d (fun result => ∀ a, result = some a → post a) check.attempt := by
  refine ⟨?_, ensures.reports⟩
  rintro result ⟨⟩
  exact ensures.result

theorem bind {check : Check α} {next : α → Check β} {post : β → Prop} {mid : α → Prop} (first : Ensures d mid check)
    (second : ∀ a, mid a → Ensures d post (next a)) : Ensures d post (check >>= next) := by
  obtain ⟨result, reports⟩ := check
  cases result with
  | none => exact ⟨by rintro b ⟨⟩, first.reports⟩
  | some a =>
    have then' := second a (first.result a rfl)
    exact ⟨then'.result, List.forall_mem_append.mpr ⟨first.reports, then'.reports⟩⟩

end Ensures

end Check

open Check

namespace Scope

variable {d : Document} {s : Scope}

structure Declares (d : Document) (s : Scope) : Prop where
  functions : ∀ {name f}, s.functions.get? name = some f → f ∈ Document.signatures d
  structs : ∀ {name t}, s.structs.get? name = some t → t ∈ Document.structs d ∧ t.name = name

/-- All types in the scope are types that come up, also those that names get back at the end of a block. -/
structure Within (d : Document) (s : Scope) : Prop extends Declares d s where
  names : ∀ {name ty}, s.lookup name = some ty → d.Arises ty
  frames : ∀ log ∈ s.frames, ∀ entry ∈ log, ∀ ty, entry.2 = some ty → d.Arises ty
  returns : d.Arises s.returns

theorem declares_register (d : Document) : Declares d (Scope.register .empty d) where
  functions {name f} known := by
    rw [functions_register] at known
    exact List.mem_reverse.mp (List.mem_of_find?_eq_some known)
  structs {name t} known := by
    rw [structs_register] at known
    exact ⟨List.mem_reverse.mp (List.mem_of_find?_eq_some known), by simpa using List.find?_some known⟩

/-- A body starts with the parameters of a declared function. -/
theorem Declares.enter (declares : s.Declares d) {f : Signature} (declared : f ∈ Document.signatures d) :
    ((s.registerFunction f).enterFunction f).Within d where
  functions {name g} known := by
    change (s.functions.insert f.name f).get? name = some g at known
    rw [NameMap.get?_insert] at known
    split at known
    · cases known
      exact declared
    · exact declares.functions known
  structs := declares.structs
  names {name ty} known := by
    have found := NameMap.get?_foldl_insert Param.name Param.ty f.params .empty name
    rw [NameMap.get?_empty, Option.or_none] at found
    obtain ⟨p, here, rfl⟩ := Option.map_eq_some_iff.mp (found.symm.trans known)
    exact .param declared (List.mem_reverse.mp (List.mem_of_find?_eq_some here))
  frames := by rintro log ⟨⟩
  returns := .returns declared

namespace Within

theorem bind (within : s.Within d) (name : String) {ty : Ty} (arises : d.Arises ty) : (s.bind name ty).Within d where
  toDeclares := ⟨within.functions, within.structs⟩
  names {other ty'} known := by
    change (s.names.insert name ty).get? other = some ty' at known
    rw [NameMap.get?_insert] at known
    split at known
    · cases known
      exact arises
    · exact within.names known
  frames := by
    have each := within.frames
    simp only [Scope.bind]
    split
    · simp
    · rename_i frame outer same
      rw [same, List.forall_mem_cons] at each
      split
      · exact List.forall_mem_cons.mpr each
      · refine List.forall_mem_cons.mpr ⟨List.forall_mem_cons.mpr ⟨?_, each.1⟩, each.2⟩
        intro ty' replaced
        exact within.names replaced
  returns := within.returns

theorem openIf (within : s.Within d) (blocks : Bool) : (s.openIf blocks).Within d := by
  cases blocks with
  | false => exact within
  | true =>
    refine ⟨⟨within.functions, within.structs⟩, within.names, ?_, within.returns⟩
    exact List.forall_mem_cons.mpr ⟨by rintro entry ⟨⟩, within.frames⟩

/-- A name has what it had before the block or what the log gives back. -/
theorem arises_undo {log : UndoLog} (noted : ∀ entry ∈ log, ∀ ty, entry.2 = some ty → d.Arises ty) {names : NameMap Ty}
    (known : ∀ name ty, names.get? name = some ty → d.Arises ty) {name : String} {ty : Ty}
    (found : (undo names log).get? name = some ty) : d.Arises ty := by
  induction log generalizing names with
  | nil => exact known name ty found
  | cons entry log ih =>
    obtain ⟨here, others⟩ := List.forall_mem_cons.mp noted
    refine ih others (fun other ty' known' => ?_) found
    rw [NameMap.get?_set] at known'
    split at known'
    · exact here ty' known'
    · exact known other ty' known'

theorem closeIf (within : s.Within d) (blocks : Bool) : (s.closeIf blocks).Within d := by
  cases blocks with
  | false => exact within
  | true =>
    change s.closeBlock.Within d
    have each := within.frames
    unfold closeBlock
    split
    · exact within
    · rename_i frame outer same
      rw [same, List.forall_mem_cons] at each
      exact ⟨⟨within.functions, within.structs⟩, fun known => arises_undo each.1 (fun _ _ => within.names) known,
        each.2, within.returns⟩

end Within

end Scope

section Expressions

variable {d : Document} {s : Scope} {span : Span}

theorem Scope.Declares.ensures_structOf (declares : s.Declares d) (name : String) :
    Ensures d (fun t => t ∈ Document.structs d ∧ t.name = name) (s.structOf name span) := by
  unfold structOf
  split
  · exact .pure (declares.structs ‹_›)
  · exact .giveUp (.fault (by rintro _ _ ⟨⟩))

theorem UnaryOp.ensures_check (op : UnaryOp) {ty : Ty} (arises : d.Arises ty) : Ensures d d.Arises (op.check span ty) := by
  unfold UnaryOp.check
  split
  · exact .pure arises
  · exact .pure (.ptr arises)
  · exact .pure (.target arises)
  · exact .giveUp (.fault (by rintro _ _ ⟨⟩))

theorem Ty.ensures_checkStruct (ty : Ty) : Ensures d (fun _ => True) (ty.checkStruct span) := by
  unfold checkStruct
  split
  · exact .pure trivial
  · exact ⟨by rintro name ⟨⟩, by simpa using ⟨.fault (by rintro _ _ ⟨⟩), .hint⟩⟩
  · exact .giveUp (.fault (by rintro _ _ ⟨⟩))

theorem StructDecl.ensures_checkField {t : StructDecl} (declared : t ∈ Document.structs d) (name : String) :
    Ensures d d.Arises (t.checkField name span) := by
  unfold checkField
  split
  · exact .pure (.field declared (StructDecl.mem_of_field? ‹_›))
  · exact .giveUp (.fault (by rintro _ _ ⟨⟩))

theorem Signature.ensures_checkCount (o : Strictness) (f : Signature) (count : Nat) :
    Ensures d (fun _ => True) (f.checkCount o span count) := by
  unfold checkCount
  split
  · exact .report (.fault (by rintro _ _ ⟨⟩))
  · exact .nothing

theorem Ty.ensures_checkIndexed (baseSpan indexSpan : Span) {base : Ty} (arises : d.Arises base) (index : Ty) :
    Ensures d d.Arises (Ty.checkIndexed baseSpan indexSpan base index) := by
  rw [checkIndexed_eq]
  refine ⟨fun element found => ?_, List.forall_mem_append.mpr ⟨?_, ?_⟩⟩
  · cases base <;> cases found
    exact .target arises
  · split
    · simp
    · exact List.forall_mem_singleton.mpr (.fault (by rintro _ _ ⟨⟩))
  · split
    · simp
    · exact List.forall_mem_singleton.mpr (.fault (by rintro _ _ ⟨⟩))

variable (o : Strictness)

theorem ensures_checkArgs {params : List Param} (declared : ∀ p ∈ params, d.Arises p.ty) {args : List Expr}
    (each : ∀ arg ∈ args, Ensures d d.Arises (arg.check o s)) :
    Ensures d (fun _ => True) (checkArgs o s params args) := by
  induction args generalizing params with
  | nil =>
    unfold checkArgs
    exact .nothing
  | cons arg args ih =>
    obtain ⟨first, others⟩ := List.forall_mem_cons.mp each
    unfold checkArgs
    split
    · exact .report (.fault (by rintro _ _ ⟨⟩))
    · obtain ⟨expected, rest⟩ := List.forall_mem_cons.mp declared
      refine .bind first.attempt fun result found => ?_
      split
      · exact .bind .nothing fun _ _ => ih rest others
      · exact .bind (.same expected (found _ rfl)) fun _ _ => ih rest others

theorem ensures_checkInits {t : StructDecl} (declared : t ∈ Document.structs d) {inits : List FieldInit}
    (each : ∀ init ∈ inits, Ensures d d.Arises (init.value.check o s)) :
    Ensures d (fun _ => True) (checkInits o s t inits) := by
  induction inits with
  | nil =>
    unfold checkInits
    exact .nothing
  | cons init inits ih =>
    obtain ⟨checked, others⟩ := List.forall_mem_cons.mp each
    obtain ⟨name, value, span⟩ := init
    unfold checkInits checkInit
    refine Ensures.bind ?_ fun _ (_ : True) => ih others
    split
    · exact .report (.fault (by rintro _ _ ⟨⟩))
    · rename_i field known
      refine .bind checked.attempt fun result found => ?_
      split
      · exact .nothing
      · exact .same (.field declared (StructDecl.mem_of_field? known)) (found _ rfl)

/-- The type of an expression comes up, and so do the types that are compared on the way to it. -/
theorem Scope.Within.ensures_check (within : s.Within d) (e : Expr) : d.HasNode (.expr e) →
    Ensures d d.Arises (e.check o s) := by
  induction e using Expr.induction_children with
  | step e ih =>
    intro has
    have checked (child : Expr) (member : child ∈ e.children) : Ensures d d.Arises (child.check o s) :=
      ih child member (has.exprChild member)
    cases e with
    | int => exact .pure .int
    | float => exact .pure .float
    | string => exact .pure .string
    | «variable» =>
      unfold Expr.check
      split
      · exact .pure (within.names ‹_›)
      · exact .giveUp (.fault (by rintro _ _ ⟨⟩))
    | assign span target value =>
      unfold Expr.check
      exact .bind (checked target (by simp [Expr.children])) fun _ left =>
        .bind (checked value (by simp [Expr.children])) fun _ right => .bind (.same left right) fun _ _ => .pure left
    | binary span op lhs rhs =>
      unfold Expr.check
      refine .bind (checked lhs (by simp [Expr.children])) fun _ left =>
        .bind (checked rhs (by simp [Expr.children])) fun _ right => ?_
      split
      · refine .pure ?_
        unfold BinaryOp.resultTy
        split
        · exact .truth
        · exact left
      · exact .giveUp (.mismatch left right ‹_›)
    | unary span op operand =>
      unfold Expr.check
      exact .bind (checked operand (by simp [Expr.children])) fun _ => op.ensures_check
    | call span callee calleeSpan args =>
      unfold Expr.check
      split
      · exact .giveUp (.fault (by rintro _ _ ⟨⟩))
      · have declared := within.functions ‹_›
        exact .bind (ensures_checkArgs o (fun p member => .param declared member) checked) fun _ _ =>
          .bind (Signature.ensures_checkCount o ..) fun _ _ => .pure (.returns declared)
    | field span base name =>
      unfold Expr.check
      exact .bind (checked base (by simp [Expr.children])) fun ty _ => .bind ty.ensures_checkStruct fun struct _ =>
        .bind (within.ensures_structOf struct) fun t known => t.ensures_checkField known.1 name
    | index span base offset =>
      unfold Expr.check
      refine .bind (checked base (by simp [Expr.children])).attempt fun _ found =>
        .bind (checked offset (by simp [Expr.children])).attempt fun _ _ => ?_
      split
      · exact Ty.ensures_checkIndexed _ _ (found _ rfl) _
      · exact ⟨by rintro ty ⟨⟩, by rintro r ⟨⟩⟩
    | struct span name inits =>
      unfold Expr.check
      refine .bind (within.ensures_structOf name) fun t known => ?_
      obtain ⟨declared, rfl⟩ := known
      have literal : Ensures d d.Arises (Check.pure (Ty.struct t.name)) := .pure (.literal declared has)
      split
      · refine .bind (ensures_checkInits o declared fun init member => ?_) fun _ _ => literal
        exact checked _ (List.mem_map_of_mem member)
      · exact .bind .nothing fun _ _ => literal

end Expressions

section Walks

variable {d : Document} {s : Scope}

structure Stop.Within (d : Document) (stop : Stop) : Prop where
  scope : stop.scope.Within d
  expr : d.HasNode (.expr stop.expr)
  demand : ∀ ty, stop.demand = .of ty → d.Arises ty

theorem Stop.Within.tells {stop : Stop} (within : stop.Within d) (o : Strictness) : ∀ r ∈ stop.reports o, d.Tells r := by
  have ensures : Ensures d (fun _ => True) (stop.check o) := by
    refine .bind (within.scope.ensures_check o stop.expr within.expr) fun got arises => ?_
    unfold Demand.check
    split
    · exact .nothing
    · split
      · exact .nothing
      · exact .report (.fault (by rintro _ _ ⟨⟩))
    · exact .same (within.demand _ ‹_›) arises
  exact ensures.reports

structure Walk.Within (d : Document) (w : Walk) : Prop where
  stops : ∀ stop ∈ w.1, stop.Within d
  scope : w.2.Within d

variable (blocks : Bool)

theorem Scope.Within.any (within : s.Within d) {e : Expr} (has : d.HasNode (.expr e)) : Stop.Within d ⟨s, e, .any⟩ :=
  ⟨within, has, by rintro ty ⟨⟩⟩

theorem Scope.Within.int (within : s.Within d) {e : Expr} (has : d.HasNode (.expr e)) : Stop.Within d ⟨s, e, .int⟩ :=
  ⟨within, has, by rintro ty ⟨⟩⟩

theorem Scope.Within.of (within : s.Within d) {e : Expr} (has : d.HasNode (.expr e)) {ty : Ty} (arises : d.Arises ty) :
    Stop.Within d ⟨s, e, .of ty⟩ := by
  refine ⟨within, has, ?_⟩
  rintro ty' ⟨⟩
  exact arises

mutual

theorem Stmt.within_walk {s : Scope} (within : s.Within d) : (st : Stmt) → d.HasNode (.stmt st) →
    Walk.Within d (st.walk blocks s)
  | .letIn _ name ty init, has => by
    have arises : d.Arises ty := .letIn has
    rw [Stmt.walk]
    refine ⟨List.forall_mem_map.mpr fun e member => ?_, within.bind name arises⟩
    exact within.of (.child has (List.mem_map_of_mem member)) arises
  | .ret _ value, has => by
    rw [Stmt.walk]
    refine ⟨List.forall_mem_map.mpr fun e member => ?_, within⟩
    exact within.of (.child has (List.mem_map_of_mem member)) within.returns
  | .cond _ chain, has => by
    rw [Stmt.walk]
    exact IfChain.within_walk within chain fun n below => .child has below
  | .while _ test body, has => by
    rw [Stmt.walk]
    have inner := Block.within_walk within body (.child has (by simp [Node.children]))
    exact ⟨List.forall_mem_cons.mpr ⟨within.int (.child has (by simp [Node.children])), inner.stops⟩, inner.scope⟩
  | .for _ init test step body, has => by
    rw [Stmt.walk]
    have first := Stmt.within_walk (within.openIf blocks) init (.child has (by simp [Node.children]))
    have inner := Block.within_walk first.scope body (.child has (by simp [Node.children]))
    have tested : d.HasNode (.expr test) := .child has (by simp [Node.children])
    have stepped : d.HasNode (.expr step) := .child has (by simp [Node.children])
    have stops := List.forall_mem_cons.mpr ⟨first.scope.int tested,
      List.forall_mem_cons.mpr ⟨first.scope.any stepped, inner.stops⟩⟩
    exact ⟨List.forall_mem_append.mpr ⟨first.stops, stops⟩, inner.scope.closeIf blocks⟩
  | .expr e, has => by
    rw [Stmt.walk]
    exact ⟨List.forall_mem_singleton.mpr (within.any (.child has List.mem_cons_self)), within⟩
termination_by structural st => st

theorem IfChain.within_walk {s : Scope} (within : s.Within d) : (chain : IfChain) → (∀ n ∈ chain.nodes, d.HasNode n) →
    Walk.Within d (chain.walk blocks s)
  | .branch test body rest, has => by
    simp only [IfChain.nodes, List.forall_mem_cons] at has
    rw [IfChain.walk]
    have inner := Block.within_walk within body has.2.1
    have others := IfChain.within_walk inner.scope rest has.2.2
    have stops := List.forall_mem_append.mpr ⟨inner.stops, others.stops⟩
    exact ⟨List.forall_mem_cons.mpr ⟨within.int has.1, stops⟩, others.scope⟩
  | .otherwise body, has => by
    rw [IfChain.walk]
    exact Block.within_walk within body (has _ List.mem_cons_self)
  | .done, _ => by
    rw [IfChain.walk]
    exact ⟨by rintro stop ⟨⟩, within⟩
termination_by structural chain => chain

theorem Block.within_walk {s : Scope} (within : s.Within d) : (b : Block) → d.HasNode (.block b) →
    Walk.Within d (b.walk blocks s)
  | ⟨body, _⟩, has => by
    rw [Block.walk]
    have inner := within_walkStmts (within.openIf blocks) body fun st member => .child has (List.mem_map_of_mem member)
    exact ⟨inner.stops, inner.scope.closeIf blocks⟩
termination_by structural b => b

theorem within_walkStmts {s : Scope} (within : s.Within d) : (body : List Stmt) → (∀ st ∈ body, d.HasNode (.stmt st)) →
    Walk.Within d (walkStmts blocks s body)
  | [], _ => by
    rw [walkStmts]
    exact ⟨by rintro stop ⟨⟩, within⟩
  | st :: rest, has => by
    rw [List.forall_mem_cons] at has
    rw [walkStmts]
    have first := Stmt.within_walk within st has.1
    have others := within_walkStmts first.scope rest has.2
    exact ⟨List.forall_mem_append.mpr ⟨first.stops, others.stops⟩, others.scope⟩
termination_by structural body => body

end

/-- Between two functions only the tables matter. -/
theorem within_walkFunctions {fs : List FunctionDecl} (subset : fs ⊆ d.functions) (declares : s.Declares d) :
    ∀ stop ∈ (walkFunctions blocks s fs).1, stop.Within d := by
  induction fs generalizing s with
  | nil => rintro stop ⟨⟩
  | cons f rest ih =>
    have member : f ∈ d.functions := subset List.mem_cons_self
    have entered := declares.enter (Document.signature_mem member)
    have body : d.HasNode (.block f.body) := .child (.decl (Document.function_mem member)) (by simp [Node.children])
    have first := Block.within_walk blocks entered f.body body
    have others := ih (fun g later => subset (List.mem_cons_of_mem _ later)) first.scope.toDeclares
    exact List.forall_mem_append.mpr ⟨first.stops, others⟩

end Walks

/-- Whatever the options, the reports about a document tell of types that come up in it. -/
theorem Document.tells_check (d : Document) (o : Strictness) : ∀ r ∈ (d.check o).diagnostics.messages, d.Tells r := by
  have walked := Checker.document_eq (.start o .empty) d
  have stops := within_walkFunctions o.blockScoping (List.Subset.refl d.functions) (Scope.declares_register d)
  intro r member
  rw [Document.check, walked] at member
  obtain ⟨stop, visited, reported⟩ := List.mem_flatMap.mp member
  exact (stops stop visited).tells o r reported

end StructLang
