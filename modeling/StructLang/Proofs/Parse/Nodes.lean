import Mathlib
import StructLang.Proofs.Parse.Acceptance
import StructLang.Proofs.Parts
import StructLang.Proofs.Token.Partition

namespace StructLang

inductive Node
  | decl (d : Decl)
  | signature (f : Signature)
  | param (p : Param)
  | field (f : Field)
  | block (b : Block)
  | stmt (s : Stmt)
  | expr (e : Expr)
  | init (i : FieldInit)

def Decl.span : Decl → Span
  | .function f => f.span
  | .struct s => s.span
  | .external _ span | .importOf _ span | .imported _ span _ => span

def IfChain.nodes : IfChain → List Node
  | .branch test body rest => .expr test :: .block body :: rest.nodes
  | .otherwise body => [.block body]
  | .done => []

namespace Node

def span : Node → Span
  | .decl d => d.span
  | .signature f => f.span
  | .param p => p.span
  | .field f => f.span
  | .block b => b.span
  | .stmt s => s.span
  | .expr e => e.span
  | .init i => i.span

def children : Node → List Node
  | .decl (.function f) => [.signature f.signature, .block f.body]
  | .decl (.external f _) => [.signature f]
  | .decl (.struct s) => s.fields.map .field
  | .decl (.importOf ..) | .decl (.imported ..) => []
  | .signature f => f.params.map .param
  | .param _ | .field _ => []
  | .block b => b.stmts.map .stmt
  | .stmt (.letIn _ _ _ value) => value.toList.map .expr
  | .stmt (.ret _ value) => value.toList.map .expr
  | .stmt (.cond _ chain) => chain.nodes
  | .stmt (.while _ test body) => [.expr test, .block body]
  | .stmt (.for _ first test step body) => [.stmt first, .expr test, .expr step, .block body]
  | .stmt (.expr e) => [.expr e]
  | .expr (.struct _ _ inits) => inits.map .init
  | .expr e => e.children.map .expr
  | .init i => [.expr i.value]

theorem children_withSpan (e : Expr) (span : Span) : (expr (e.withSpan span)).children = (expr e).children := by
  cases e <;> rfl

def Before (a b : Node) : Prop := a.span.stop ≤ b.span.start

inductive ReadFrom : List Token → Node → Prop
  | decl {own d} (spells : SpellsDecl own d) : ReadFrom own (.decl d)
  | signature {own f} (spells : SpellsSignature own f) : ReadFrom own (.signature f)
  | param {own p} (spells : SpellsParam own p) : ReadFrom own (.param p)
  | field {own f} (spells : SpellsField own f) : ReadFrom own (.field f)
  | block {own b} (spells : SpellsBlock own b) : ReadFrom own (.block b)
  | stmt {own s} (spells : SpellsStmt own s) : ReadFrom own (.stmt s)
  | expr {own e} (spells : SpellsExpr own e) : ReadFrom own (.expr e)
  | arrow {own e} (base : SpellsExpr own e) : ReadFrom own (.expr (.unary (hull own) .deref e))
  | init {own i} (spells : SpellsInit own i) : ReadFrom own (.init i)

end Node

inductive Document.HasNode (d : Document) : Node → Prop
  | decl {x} (declared : x ∈ d) : HasNode d (.decl x)
  | child {n m} (has : HasNode d n) (below : m ∈ n.children) : HasNode d m

/-- The nodes are read from parts of the tokens, one after the other. What is between the parts belongs to none. -/
inductive Arranged : List Token → List Node → Prop
  | nil {rest} : Arranged rest []
  | cons {gap own rest n nodes} (read : n.ReadFrom own) (others : Arranged rest nodes) :
      Arranged (gap ++ own ++ rest) (n :: nodes)

namespace Arranged

variable {ts ts' : List Token} {nodes nodes' : List Node}

theorem one {n : Node} (read : n.ReadFrom ts) : Arranged ts [n] := by
  have arranged : Arranged ([] ++ ts ++ []) [n] := .cons read .nil
  rwa [List.append_nil] at arranged

theorem skip (gap : List Token) (arranged : Arranged ts nodes) : Arranged (gap ++ ts) nodes := by
  cases arranged with
  | nil => exact .nil
  | cons read others =>
    rw [← List.append_assoc, ← List.append_assoc]
    exact .cons read others

theorem append (first : Arranged ts nodes) (second : Arranged ts' nodes') : Arranged (ts ++ ts') (nodes ++ nodes') := by
  induction first with
  | nil => exact second.skip _
  | cons read _ ih =>
    rw [List.append_assoc]
    exact .cons read ih

/-- More tokens at the end. -/
theorem extend (arranged : Arranged ts nodes) (rest : List Token) : Arranged (ts ++ rest) nodes := by
  have longer : Arranged (ts ++ rest) (nodes ++ []) := arranged.append .nil
  rwa [List.append_nil] at longer

theorem expr {e : Expr} (spells : SpellsExpr ts e) : Arranged ts [.expr e] := one (.expr spells)

theorem block {b : Block} (spells : SpellsBlock ts b) : Arranged ts [.block b] := one (.block spells)

end Arranged

section Steps

variable {ts : List Token}

theorem SpellsArgs.arranged : {ts : List Token} → {args : List Expr} → SpellsArgs ts args →
    Arranged ts (args.map .expr)
  | _, _, .none => .nil
  | _, _, .one only => .expr only
  | _, _, .more first _ others => (Arranged.expr first).append (others.arranged.skip [_])

theorem SpellsInits.arranged : {ts : List Token} → {inits : List FieldInit} → SpellsInits ts inits →
    Arranged ts (inits.map .init)
  | _, _, .nil => .nil
  | _, _, .cons first _ others => ((Arranged.one (.init first)).extend _).append others.arranged

/-- An expression in parentheses has the parts of the one inside. -/
theorem SpellsExpr.arranged : {ts : List Token} → {e : Expr} → SpellsExpr ts e → Arranged ts (Node.expr e).children
  | _, _, .assign left _ right | _, _, .binary left _ right => (Arranged.expr left).append ((Arranged.expr right).skip [_])
  | _, _, .unary _ operand => (Arranged.expr operand).skip [_]
  | _, _, .field base _ _ => (Arranged.expr base).extend _
  | _, _, .arrow base _ _ => (Arranged.one (.arrow base)).extend _
  | _, _, .index base _ offset _ => ((Arranged.expr base).append ((Arranged.expr offset).skip [_])).extend _
  | _, _, .int _ | _, _, .float _ | _, _, .string _ | _, _, .variable _ => .nil
  | _, _, .call _ _ passed _ => (passed.arranged.skip [_, _]).extend _
  | _, _, .struct _ _ fields _ => (fields.arranged.skip [_, _]).extend _
  | _, _, .group _ inner _ => by
    rw [Node.children_withSpan]
    exact (inner.arranged.skip [_]).extend _

theorem SpellsLet.arranged {s : Stmt} (spells : SpellsLet ts s) : Arranged ts (Node.stmt s).children := by
  cases spells with
  | declared => exact .nil
  | initialised _ _ _ _ _ value => exact ((Arranged.expr value).skip [_]).skip _

theorem SpellsForInit.stmt {s : Stmt} (spells : SpellsForInit ts s) : SpellsStmt ts s := by
  cases spells with
  | letIn declared => exact .letIn declared
  | expr value => exact .expr value

theorem SpellsChain.arranged : {ts : List Token} → {chain : IfChain} → SpellsChain ts chain → Arranged ts chain.nodes
  | _, _, .single _ test _ body => ((Arranged.expr test).skip [_]).append ((Arranged.block body).skip [_])
  | _, _, .withElse _ test _ body _ last =>
    (((Arranged.expr test).skip [_]).append ((Arranged.block body).skip [_])).append ((Arranged.block last).skip [_])
  | _, _, .withElseIf _ test _ body _ _ others =>
    (((Arranged.expr test).skip [_]).append ((Arranged.block body).skip [_])).append (others.arranged.skip [_, _])

theorem SpellsStmt.arranged {s : Stmt} (spells : SpellsStmt ts s) : Arranged ts (Node.stmt s).children := by
  cases spells with
  | letIn declared => exact declared.arranged
  | ret => exact .nil
  | retValue _ value => exact (Arranged.expr value).skip [_]
  | cond _ branches => exact branches.arranged.skip [_]
  | «while» _ _ test _ body => exact ((Arranged.expr test).skip [_, _]).append ((Arranged.block body).skip [_])
  | «for» _ _ first _ test _ next _ body =>
    exact ((((Arranged.one (.stmt first.stmt)).skip [_, _]).append ((Arranged.expr test).skip [_])).append
      ((Arranged.expr next).skip [_])).append ((Arranged.block body).skip [_])
  | expr value => exact .expr value

theorem SpellsStmts.arranged : {ts : List Token} → {stmts : List Stmt} → SpellsStmts ts stmts →
    Arranged ts (stmts.map .stmt)
  | _, _, .nil => .nil
  | _, _, .cons first _ others => ((Arranged.one (.stmt first)).extend _).append others.arranged

theorem SpellsParams.arranged {ps : List Param} (spells : SpellsParams ts ps) : Arranged ts (ps.map .param) := by
  induction spells with
  | none => exact .nil
  | one only => exact .one (.param only)
  | more first _ _ ih => exact (Arranged.one (.param first)).append (ih.skip [_])

theorem SpellsFields.arranged {fields : List Field} (spells : SpellsFields ts fields) :
    Arranged ts (fields.map .field) := by
  induction spells with
  | nil => exact .nil
  | cons first _ _ ih => exact ((Arranged.one (.field first)).extend _).append ih

theorem SpellsSignature.arranged {f : Signature} (spells : SpellsSignature ts f) :
    Arranged ts (Node.signature f).children := by
  cases spells with
  | void _ _ params _ | returning _ _ params _ _ _ => exact (params.arranged.skip [_, _]).extend _

theorem SpellsDecl.arranged {d : Decl} (spells : SpellsDecl ts d) : Arranged ts (Node.decl d).children := by
  cases spells with
  | function _ signature body => exact ((Arranged.one (.signature signature)).skip [_]).append (.block body)
  | external _ _ signature => exact (Arranged.one (.signature signature)).skip _
  | struct _ _ _ inside _ => exact (inside.arranged.skip [_, _, _]).extend _
  | importOf => exact .nil

theorem SpellsDocument.arranged {d : Document} (spells : SpellsDocument ts d) : Arranged ts (d.map .decl) := by
  induction spells with
  | nil => exact .nil
  | cons first _ _ ih => exact ((Arranged.one (.decl first)).extend _).append ih

end Steps

namespace Node.ReadFrom

variable {own : List Token} {n : Node}

/-- The tokens of a node are divided up between the nodes right below it. -/
theorem arranged (read : n.ReadFrom own) : Arranged own n.children := by
  cases read with
  | decl spells | signature spells | stmt spells | expr spells => exact spells.arranged
  | param | field => exact .nil
  | block spells =>
    cases spells with
    | braces _ inside _ => exact (inside.arranged.skip [_]).extend _
  | arrow base => exact .expr base
  | init spells =>
    cases spells with
    | field _ _ value => exact (Arranged.expr value).skip [_, _]

theorem ne_nil (read : n.ReadFrom own) : own ≠ [] := by
  cases read with
  | signature spells | block spells | expr spells => exact spells.ne_nil
  | arrow base => exact base.ne_nil
  | decl spells | param spells | field spells | init spells => cases spells <;> simp
  | stmt spells =>
    cases spells with
    | letIn declared => cases declared <;> simp
    | expr value => exact value.ne_nil
    | _ => simp

theorem span_eq (read : n.ReadFrom own) : n.span = hull own := by
  cases read with
  | signature spells | block spells | expr spells => exact spells.span_eq
  | arrow base => rfl
  | decl spells | param spells | field spells | init spells => cases spells <;> rfl
  | stmt spells =>
    cases spells with
    | letIn declared => cases declared <;> rfl
    | expr value => exact value.span_eq
    | _ => rfl

end Node.ReadFrom

namespace Arranged

variable {ts : List Token} {nodes : List Node}

theorem exists_own (arranged : Arranged ts nodes) : ∀ n ∈ nodes, ∃ own, own <:+: ts ∧ n.ReadFrom own := by
  induction arranged with
  | nil => simp
  | @cons gap own rest n nodes read _ ih =>
    intro m member
    rcases List.mem_cons.mp member with rfl | later
    · exact ⟨own, ⟨gap, rest, rfl⟩, read⟩
    · obtain ⟨own', inside, read'⟩ := ih m later
      exact ⟨own', inside.trans (List.suffix_append _ rest).isInfix, read'⟩

/-- Nodes that are read one after the other stand one after the other. -/
theorem ordered (arranged : Arranged ts nodes) (order : InOrder ts) : nodes.Pairwise Node.Before := by
  induction arranged with
  | nil => exact .nil
  | @cons gap own rest n nodes read others ih =>
    refine List.pairwise_cons.mpr ⟨fun m member => ?_, ih order.right⟩
    obtain ⟨own', inside, read'⟩ := others.exists_own m member
    rw [Node.Before, read.span_eq, read'.span_eq]
    exact (List.append_assoc .. ▸ order).right.before inside.subset read.ne_nil read'.ne_nil

end Arranged

/-- Every node of a document has tokens of its own. -/
theorem SpellsDocument.exists_own {words : List Token} {d : Document} {n : Node} (spells : SpellsDocument words d)
    (has : d.HasNode n) : ∃ own, own <:+: words ∧ n.ReadFrom own := by
  induction has with
  | decl declared => exact spells.arranged.exists_own _ (List.mem_map_of_mem declared)
  | child _ below ih =>
    obtain ⟨own, inside, read⟩ := ih
    obtain ⟨part, inside', read'⟩ := read.arranged.exists_own _ below
    exact ⟨part, inside'.trans inside, read'⟩

theorem SpellsDocument.within {words : List Token} {d : Document} {n child : Node} (spells : SpellsDocument words d)
    (order : InOrder words) (has : d.HasNode n) (below : child ∈ n.children) : child.span.Within n.span := by
  obtain ⟨own, inside, read⟩ := spells.exists_own has
  obtain ⟨part, inside', read'⟩ := read.arranged.exists_own child below
  rw [read.span_eq, read'.span_eq]
  exact (order.sublist inside.sublist).within inside'.subset read'.ne_nil

/-- The tokens of a text are in order, and a document that is parsed is read from all of them but the end. -/
theorem exists_spelling {text : String} {d : Document} (parsed : parse text = .ok d) :
    ∃ (words : List Token) (last : Token), lex text = .ok (words ++ [last]) ∧ last.kind = .eof ∧ InOrder words ∧
      (∀ t ∈ words, t.span.stop ≤ text.length) ∧ SpellsDocument words d := by
  obtain ⟨tokens, c, lexed, ran⟩ := exists_run parsed
  have parts : Partition text.toList 0 tokens := Lexer.partition_lexFrom .start rfl (Nat.zero_le _) lexed
  obtain ⟨words, last, rfl, ended, _, each, ordered⟩ := parts.ends
  obtain ⟨ts, passed, forms, -⟩ := (Parser.tracks_document _).passed ran
  have order : InOrder words := ⟨fun t member => (each t member).2.2, ordered⟩
  have whole : words = ts :=
    passed.whole rfl (fun t member => (each t member).1) ended (Parser.peek_of_declarations _ (Nat.le_refl _) ran)
  refine ⟨words, last, lexed, ended, order, fun t member => ?_, whole ▸ forms.spelled (whole ▸ order)⟩
  rw [← String.length_toList]
  exact parts.stop_le t (List.mem_append_left _ member)

/-- In a document that is parsed, every node has a run of the tokens, and its span goes from the start of the first one
to the end of the last one. The tokens are all tokens of the text but the end. -/
theorem spans_are_exact {text : String} {d : Document} (parsed : parse text = .ok d) :
    ∃ words last, lex text = .ok (words ++ [last]) ∧ last.kind = .eof ∧ SpellsDocument words d ∧
      (∀ n, d.HasNode n →
        (∃ own, own <:+: words ∧ n.ReadFrom own ∧ Arranged own n.children ∧ n.span = hull own) ∧
        n.span.start < n.span.stop ∧ n.span.stop ≤ text.length ∧
        (∀ child ∈ n.children, child.span.Within n.span) ∧ n.children.Pairwise Node.Before) ∧
      (d.map Node.decl).Pairwise Node.Before := by
  obtain ⟨words, last, lexed, ended, order, bounds, spells⟩ := exists_spelling parsed
  refine ⟨words, last, lexed, ended, spells, fun n has => ?_, spells.arranged.ordered order⟩
  obtain ⟨own, inside, read⟩ := spells.exists_own has
  have ownOrder : InOrder own := order.sublist inside.sublist
  refine ⟨⟨own, inside, read, read.arranged, read.span_eq⟩, ?_, ?_, fun _ => spells.within order has,
    read.arranged.ordered ownOrder⟩
  · rw [read.span_eq]
    exact ownOrder.hull_lt read.ne_nil
  · rw [read.span_eq]
    obtain ⟨front, t, rfl⟩ := exists_last read.ne_nil
    rw [stop_hull (List.suffix_append front [t]) (by simp)]
    exact bounds t (inside.subset (by simp))

def storingText : String := "function f(p: P*) \x7b (p->a) = 2; \x7d"

def storingTarget : Expr := .field ⟨20, 26⟩ (.unary ⟨21, 22⟩ .deref (.variable ⟨21, 22⟩ "p")) "a"

def storingBody : Block := ⟨[.expr (.assign ⟨20, 30⟩ storingTarget (.int ⟨29, 30⟩ 2))], ⟨18, 33⟩⟩

def storing : Document :=
  [.function ⟨⟨"f", ⟨9, 10⟩, .void, [⟨"p", .ptr (.struct "P"), ⟨11, 16⟩⟩], ⟨9, 17⟩⟩, storingBody, ⟨0, 33⟩⟩]

theorem spans_are_exact_storing :
    parse storingText = .ok storing ∧
    ∃ words last, lex storingText = .ok (words ++ [last]) ∧
      (∃ own, own <:+: words ∧ (Node.expr storingTarget).ReadFrom own ∧ hull own = ⟨20, 26⟩) ∧
      (∃ own, own <:+: words ∧ (Node.expr (.unary ⟨21, 22⟩ .deref (.variable ⟨21, 22⟩ "p"))).ReadFrom own ∧
        hull own = ⟨21, 22⟩) ∧
      (Node.block storingBody).span.stop ≤ storingText.length := by
  have parsed : parse storingText = .ok storing := by cbv
  have body : storing.HasNode (.block storingBody) :=
    .child (.decl List.mem_cons_self) (List.mem_cons_of_mem _ List.mem_cons_self)
  have target : storing.HasNode (.expr storingTarget) :=
    .child (.child (.child body List.mem_cons_self) List.mem_cons_self) List.mem_cons_self
  obtain ⟨words, last, lexed, _, _, each, _⟩ := spans_are_exact parsed
  obtain ⟨⟨own, inside, read, _, span⟩, _⟩ := each _ target
  obtain ⟨⟨own', inside', read', _, span'⟩, _⟩ := each _ (.child target List.mem_cons_self)
  obtain ⟨_, _, bound, _⟩ := each _ body
  exact ⟨parsed, words, last, lexed, ⟨own, inside, read, span.symm⟩, ⟨own', inside', read', span'.symm⟩, bound⟩

end StructLang
