import StructLang.Proofs.Parse.Nodes

namespace StructLang

/-- The spans in an expression that are not those of expressions: a called name, and fields with their values. -/
def Expr.marks : Expr → List Span
  | .call _ _ calleeSpan _ => [calleeSpan]
  | .struct _ _ inits => inits.map (·.span)
  | _ => []

theorem Expr.marks_withSpan (e : Expr) (span : Span) : (e.withSpan span).marks = e.marks := by cases e <;> rfl

inductive Expr.Nested : Expr → Prop
  | node {e : Expr} (marks : ∀ mark ∈ e.marks, mark.Within e.span) (inside : ∀ child ∈ e.children, child.span.Within e.span)
      (children : ∀ child ∈ e.children, child.Nested) : e.Nested

namespace Expr.Nested

variable {e : Expr}

theorem marks (nested : e.Nested) : ∀ mark ∈ e.marks, mark.Within e.span := by
  cases nested with
  | node marks _ _ => exact marks

theorem inside (nested : e.Nested) : ∀ child ∈ e.children, child.span.Within e.span := by
  cases nested with
  | node _ inside _ => exact inside

theorem children (nested : e.Nested) : ∀ child ∈ e.children, child.Nested := by
  cases nested with
  | node _ _ children => exact children

end Expr.Nested

namespace Document.HasNode

variable {d : Document}

/-- The value of a field is not right below the literal, but it is below it. -/
theorem exprChild {e child : Expr} (has : d.HasNode (.expr e)) (below : child ∈ e.children) : d.HasNode (.expr child) := by
  cases e with
  | struct _ _ inits =>
    obtain ⟨init, member, rfl⟩ := List.mem_map.mp below
    exact .child (.child has (List.mem_map_of_mem member)) List.mem_cons_self
  | _ => exact .child has (List.mem_map_of_mem below)

theorem exprPart {e whole : Expr} (has : d.HasNode (.expr whole)) (part : e.Part whole) : d.HasNode (.expr e) := by
  induction part with
  | self => exact has
  | child _ inside ih => exact ih (has.exprChild inside)

mutual

theorem stmtExprs : (s : Stmt) → d.HasNode (.stmt s) → ∀ e ∈ s.exprs, d.HasNode (.expr e)
  | .letIn _ _ _ init, has => by
    rw [Stmt.exprs]
    exact fun e member => .child has (List.mem_map_of_mem member)
  | .ret _ value, has => by
    rw [Stmt.exprs]
    exact fun e member => .child has (List.mem_map_of_mem member)
  | .cond _ chain, has => by
    rw [Stmt.exprs]
    exact chainExprs chain fun n below => .child has below
  | .while _ test body, has => by
    rw [Stmt.exprs, List.forall_mem_cons]
    exact ⟨.child has (by simp [Node.children]), blockExprs body (.child has (by simp [Node.children]))⟩
  | .for _ init test step body, has => by
    rw [Stmt.exprs, List.forall_mem_append, List.forall_mem_cons, List.forall_mem_cons]
    exact ⟨stmtExprs init (.child has (by simp [Node.children])), .child has (by simp [Node.children]),
      .child has (by simp [Node.children]), blockExprs body (.child has (by simp [Node.children]))⟩
  | .expr e, has => by
    rw [Stmt.exprs, List.forall_mem_singleton]
    exact .child has List.mem_cons_self
termination_by structural s => s

theorem chainExprs : (chain : IfChain) → (∀ n ∈ chain.nodes, d.HasNode n) → ∀ e ∈ chain.exprs, d.HasNode (.expr e)
  | .branch test body rest, has => by
    simp only [IfChain.nodes, List.forall_mem_cons] at has
    rw [IfChain.exprs, List.forall_mem_cons, List.forall_mem_append]
    exact ⟨has.1, blockExprs body has.2.1, chainExprs rest has.2.2⟩
  | .otherwise body, has => by
    rw [IfChain.exprs]
    exact blockExprs body (has _ List.mem_cons_self)
  | .done, _ => by simp [IfChain.exprs]
termination_by structural chain => chain

theorem blockExprs : (b : Block) → d.HasNode (.block b) → ∀ e ∈ b.exprs, d.HasNode (.expr e)
  | ⟨stmts, _⟩, has => by
    rw [Block.exprs]
    exact stmtsExprs stmts fun s member => .child has (List.mem_map_of_mem member)
termination_by structural b => b

theorem stmtsExprs : (stmts : List Stmt) → (∀ s ∈ stmts, d.HasNode (.stmt s)) → ∀ e ∈ exprsOf stmts, d.HasNode (.expr e)
  | [], _ => by simp [exprsOf]
  | s :: rest, has => by
    rw [List.forall_mem_cons] at has
    rw [exprsOf, List.forall_mem_append]
    exact ⟨stmtExprs s has.1, stmtsExprs rest has.2⟩
termination_by structural stmts => stmts

end

end Document.HasNode

theorem Document.Contains.hasNode {d : Document} {e : Expr} (contains : d.Contains e) : d.HasNode (.expr e) := by
  obtain ⟨f, member, whole, inside, part⟩ := contains
  have body : d.HasNode (.block f.body) := .child (.decl (Document.function_mem member)) (by simp [Node.children])
  exact (HasNode.blockExprs f.body body whole inside).exprPart part

/-- A mark has tokens of the expression. -/
theorem SpellsExpr.exists_marked : {ts : List Token} → {e : Expr} → SpellsExpr ts e →
    ∀ mark ∈ e.marks, ∃ own, own <:+: ts ∧ own ≠ [] ∧ mark = hull own
  | _, _, .call _ _ _ _ => by
    intro mark member
    cases List.mem_singleton.mp member
    exact ⟨[_], ⟨[], _, rfl⟩, List.cons_ne_nil _ _, rfl⟩
  | _, _, .struct _ _ fields _ => by
    intro mark member
    obtain ⟨init, field, rfl⟩ := List.mem_map.mp member
    obtain ⟨own, inside, read⟩ := ((fields.arranged.skip [_, _]).extend [_]).exists_own _ (List.mem_map_of_mem field)
    exact ⟨own, inside, read.ne_nil, read.span_eq⟩
  | _, _, .group _ inner _ => by
    intro mark member
    rw [Expr.marks_withSpan] at member
    obtain ⟨own, inside, some, same⟩ := inner.exists_marked mark member
    exact ⟨own, inside.trans ⟨[_], [_], rfl⟩, some, same⟩
  | _, _, .assign _ _ _ | _, _, .binary _ _ _ | _, _, .unary _ _ | _, _, .field _ _ _ | _, _, .arrow _ _ _
  | _, _, .index _ _ _ _ | _, _, .int _ | _, _, .float _ | _, _, .string _ | _, _, .variable _ => by simp [Expr.marks]

section Nested

variable {words : List Token} {d : Document} (order : InOrder words) (spells : SpellsDocument words d)
include order spells

theorem marks_within {e : Expr} (has : d.HasNode (.expr e)) : ∀ mark ∈ e.marks, mark.Within e.span := by
  obtain ⟨own, inside, read⟩ := spells.exists_own has
  intro mark member
  have same : e.span = hull own := read.span_eq
  cases read with
  | expr spelled =>
    obtain ⟨part, inside', some, rfl⟩ := spelled.exists_marked mark member
    rw [same]
    exact (order.sublist inside.sublist).within inside'.subset some
  | arrow => cases member

theorem children_within {e : Expr} (has : d.HasNode (.expr e)) : ∀ child ∈ e.children, child.span.Within e.span := by
  cases e with
  | struct _ _ inits =>
    intro child below
    obtain ⟨init, member, rfl⟩ := List.mem_map.mp below
    have field : Node.init init ∈ inits.map .init := List.mem_map_of_mem member
    exact (spells.within order (.child has field) List.mem_cons_self).trans (spells.within order has field)
  | _ => exact fun child below => spells.within order has (List.mem_map_of_mem below)

theorem nested_of_hasNode (e : Expr) : d.HasNode (.expr e) → e.Nested := by
  induction e using Expr.induction_children with
  | step e ih =>
    intro has
    exact .node (marks_within order spells has) (children_within order spells has) fun child below =>
      ih child below (has.exprChild below)

end Nested

theorem Document.Contains.nested {text : String} {d : Document} {e : Expr} (parsed : parse text = .ok d)
    (contains : d.Contains e) : e.Nested := by
  obtain ⟨words, _, _, _, order, _, spells⟩ := exists_spelling parsed
  exact nested_of_hasNode order spells e contains.hasNode

end StructLang
