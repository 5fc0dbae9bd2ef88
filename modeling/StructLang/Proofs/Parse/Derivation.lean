import StructLang.Proofs.Parse.Tracking
import StructLang.Proofs.Parse.Spans

namespace StructLang

section Joins

variable {t t' : Token} {ts rest : List Token}

theorem InOrder.join_from (order : InOrder (t :: rest)) (ends : ts <:+ t :: rest) (some : ts ≠ []) :
    t.span.join (hull ts) = hull (t :: rest) :=
  order.join_hull (List.prefix_append [t] rest) ends (List.cons_ne_nil _ _) some

theorem InOrder.join_token (order : InOrder (t :: rest)) (ends : [t'] <:+ t :: rest) :
    t.span.join t'.span = hull (t :: rest) :=
  order.join_from ends (List.cons_ne_nil _ _)

theorem SpellsExpr.join {ts' whole : List Token} {e e' : Expr} (left : SpellsExpr ts e) (right : SpellsExpr ts' e')
    (order : InOrder whole) (starts : ts <+: whole) (ends : ts' <:+ whole) : e.span.join e'.span = hull whole := by
  rw [left.span_eq, right.span_eq]
  exact order.join_hull starts ends left.ne_nil right.ne_nil

theorem SpellsExpr.join_token {whole : List Token} {e : Expr} (left : SpellsExpr ts e) (order : InOrder whole)
    (starts : ts <+: whole) (ends : [t] <:+ whole) : e.span.join t.span = hull whole := by
  rw [left.span_eq]
  exact order.join_hull starts ends left.ne_nil (List.cons_ne_nil _ _)

end Joins

namespace Parser

open Grammar

/-- The kinds of the tokens are derived by the grammar, and the tokens spell the result, if they are in order. -/
structure Forms {α : Type} (derives : List TokenKind → α → Prop) (spells : List Token → α → Prop) (ts : List Token) (a : α) :
    Prop where
  derived : derives (ts.map (·.kind)) a
  spelled : InOrder ts → spells ts a

abbrev FormsExpr (l : Level) : List Token → Expr → Prop := Forms (IsExpr l) SpellsExpr

variable {pool : List Token} {bound : Nat}

theorem FormsExpr.tighter {l l' : Level} {ts : List Token} {e : Expr} (operands : l.operands = some l')
    (inner : FormsExpr l' ts e) : FormsExpr l ts e := ⟨.tighter operands inner.derived, inner.spelled⟩

theorem length_pos_of_kinds {ts : List Token} (some : ts.map (·.kind) ≠ []) : 0 < ts.length := by
  simpa using List.length_pos_iff.mpr some

theorem FormsExpr.length_pos {l : Level} {ts : List Token} {e : Expr} (forms : FormsExpr l ts e) : 0 < ts.length :=
  length_pos_of_kinds forms.derived.ne_nil

abbrev ServesLevel (pool : List Token) (l : Level) (height bound : Nat) (p : Parser Expr) : Prop :=
  Serves pool (.level l) height bound p (FormsExpr l)

theorem unaryOp_symbol {kind : TokenKind} {op : UnaryOp} (found : unaryOp? kind = some op) :
    kind = .symbol op.symbol ∧ kind ≠ .eof := by
  unfold unaryOp? at found
  split at found <;> cases found <;> exact ⟨rfl, nofun⟩

structure OperatorsOf (l : Level) (op? : TokenKind → Option BinaryOp) : Prop where
  symbol : ∀ {kind op}, op? kind = some op → kind = .symbol op.symbol
  level : ∀ {kind op}, op? kind = some op → op.level = l

theorem operatorsOf_comparison : OperatorsOf .comparison comparisonOp? := by
  constructor <;> intro kind op found <;> unfold comparisonOp? at found <;> split at found <;> cases found <;> rfl

theorem operatorsOf_additive : OperatorsOf .additive additiveOp? := by
  constructor <;> intro kind op found <;> unfold additiveOp? at found <;> split at found <;> cases found <;> rfl

theorem operatorsOf_term : OperatorsOf .term termOp? := by
  constructor <;> intro kind op found <;> unfold termOp? at found <;> split at found <;> cases found <;> rfl

theorem Chain.operatorsOf : (chain : Chain) → OperatorsOf chain.level chain.operator?
  | comparison => operatorsOf_comparison
  | additive => operatorsOf_additive
  | term => operatorsOf_term

theorem Chain.operands_level (chain : Chain) : chain.level.operands = some chain.operands := by cases chain <;> rfl

section Chains

variable {k : Chain} {operand : Parser Expr} {height : Nat} (tighter : ServesLevel pool k.operands height (bound + 1) operand)
  (low : 0 < height ∧ height ≤ 10)
include tighter low

/-- Operands of one level joined by its operators. -/
theorem serves_joined : (r : Nat) → r ≤ bound → (lhs : Expr) → Serves pool (.joined k lhs) 1 (r + 1)
    (chainRest k.operator? operand r lhs) fun ts' e => ∀ ts, FormsExpr k.level ts lhs → FormsExpr k.level (ts ++ ts') e
  | 0, _, lhs => serves_of_body fun n c short _ =>
    tracks_of_end (by omega) (fun _ => by cases k <;> rfl) (fun _ => rfl) fun ts left => by rwa [List.append_nil]
  | r + 1, within, lhs => serves_of_body fun n c short fuel => by
    refine tracks_look rfl ?_
    cases found : k.operator? c.peek.kind with
    | none => exact tracks_pure fun ts left => by rwa [List.append_nil]
    | some op =>
      have sign := k.operatorsOf.symbol found
      refine tracks_next (by simp [sign]) fun count => ?_
      refine (tighter n _ (by omega) (by omega)).bind fun c' rhs ts' count' _ right => ?_
      refine (serves_joined r (by omega) _ n c' (by omega) (by omega)).mono fun ts'' e forms ts left => ?_
      have whole : FormsExpr k.level (ts ++ c.peek :: ts') (.binary (lhs.span.join rhs.span) op lhs rhs) := by
        refine ⟨?_, fun order => ?_⟩
        · have same := k.operatorsOf.level found
          have binary : IsExpr op.level _ (.binary (lhs.span.join rhs.span) op lhs rhs) :=
            .binary op (same ▸ k.operands_level) (same ▸ left.derived) right.derived
          simpa [sign, same] using binary
        · have left := left.spelled order.left
          have right := right.spelled order.right.tail
          rw [left.join right order (List.prefix_append ..) ⟨ts ++ [c.peek], by simp⟩]
          exact .binary left sign right
      simpa only [List.append_assoc, List.cons_append, List.nil_append] using forms _ whole

theorem serves_chain : ServesLevel pool k.level (height + 1) (bound + 1) (chain k.operator? operand) :=
  serves_of_body fun n c short fuel => by
  have body (again : {β : Type} → Rule β → Attempt β) :
      Rule.body again (.level k.level) = (do again (.joined k (← again (.level k.operands)))) := by cases k <;> rfl
  rw [body]
  refine (tighter n c short fuel).bind fun c' lhs ts count _ left => tracks_remaining ?_
  refine (serves_joined tighter low _ (by omega) lhs n c' (by omega) (by omega)).mono fun ts' e forms => ?_
  exact forms ts (left.tighter k.operands_level)

end Chains

section Expressions

variable {self : Parser Expr} (inner : ServesLevel pool .expr 7 bound self)
include inner

theorem serves_inner : Serves pool .expression 8 bound self (FormsExpr .expr) := serves_of_body inner

theorem serves_arguments : (r : Nat) → r < bound →
    Serves pool .arguments 9 (r + 1) (arguments self r) fun ts es => Forms IsArgs SpellsArgs ts es ∧ es ≠ []
  | 0, within => serves_of_body fun n c short fuel => by
    refine (serves_inner inner n c (by omega) fuel).bind fun c' e ts count _ only => ?_
    have := only.length_pos
    omega
  | r + 1, within => serves_of_body fun n c short fuel => by
    refine (serves_inner inner n c (by omega) fuel).bind fun c' e ts count _ first => ?_
    refine tracks_ifAccept (fun c'' t comma _ count' => ?_) (tracks_pure ⟨?_, List.cons_ne_nil _ _⟩)
    · refine (serves_arguments r (by omega) n c'' (by omega) (by omega)).bind fun _ es ts' _ _ others => ?_
      refine tracks_pure ⟨?_, List.cons_ne_nil _ _⟩
      obtain ⟨e', rest, rfl⟩ := List.exists_cons_of_ne_nil others.2
      rw [List.append_nil]
      refine ⟨?_, fun order => .more (first.spelled order.left) comma (others.1.spelled order.right.tail)⟩
      simpa [comma] using IsArgs.more first.derived others.1.derived
    · rw [List.append_nil]
      exact ⟨.one first.derived, fun order => .one (first.spelled order)⟩

theorem serves_call {t : Token} {callee : String} (named : t.kind = .identifier callee) :
    Serves pool (.call callee t.span) 1 (bound + 1) (call self callee t.span)
      fun ts e => ts ≠ [] ∧ FormsExpr .primary (t :: ts) e :=
  serves_of_body fun n c short fuel => by
  have close {t' : Token} (opens : t'.kind = .symbol .leftParen) (args : List Expr) {ts : List Token}
      (passed : Forms IsArgs SpellsArgs ts args) (c : Cursor) :
      Tracks pool c
        (do step (expect .rightParen .argsClose); return .call (t.span.join (← step lastSpan)) callee t.span args)
        (do expect .rightParen .argsClose; return .call (t.span.join (← lastSpan)) callee t.span args)
        fun ts' e => t' :: ts ++ ts' ≠ [] ∧ FormsExpr .primary (t :: t' :: ts ++ ts') e := by
    refine tracks_expecting fun c t'' closes last _ => tracks_look rfl ?_
    refine tracks_pure ⟨List.cons_ne_nil _ _, ?_, fun order => ?_⟩
    · simpa [named, opens, closes] using IsExpr.call passed.derived
    · rw [last, order.join_token ⟨t :: t' :: ts, rfl⟩]
      exact .call named opens (passed.spelled order.tail.tail.left) closes
  simp only [Rule.body, call, pure_bind]
  refine tracks_expecting fun c' t' opens _ count => tracks_look rfl (tracks_ite (fun _ => ?_) fun _ => ?_)
  · have none : Forms IsArgs SpellsArgs [] [] := ⟨.none, fun _ => .none⟩
    exact close opens [] none c'
  · refine tracks_remaining ((serves_arguments inner _ (by omega) n c' (by omega) (by omega)).bind ?_)
    exact fun c args ts _ _ passed => close opens args passed.1 c

theorem serves_fieldInits : (r : Nat) → r ≤ bound →
    Serves pool .fieldInits 1 (r + 1) (fieldInits self r) (Forms IsInits SpellsInits)
  | 0, _ => serves_of_body fun n c short _ =>
    tracks_of_end (by omega) (fun _ => rfl) (fun _ => rfl) ⟨.nil, fun _ => .nil⟩
  | r + 1, within => serves_of_body fun n c short fuel => by
    refine tracks_look rfl (tracks_look rfl (tracks_ite (fun _ => tracks_pure ⟨.nil, fun _ => .nil⟩) fun _ => ?_))
    refine tracks_named fun c₁ name t named _ count₁ => tracks_expecting fun c₂ t' colon _ count₂ => ?_
    refine (serves_inner inner n c₂ (by omega) (by omega)).bind fun c₃ e ts count₃ _ value => ?_
    refine tracks_optional fun c₄ sep count₄ separator => ?_
    refine (serves_fieldInits r (by omega) n c₄ (by omega) (by omega)).bind fun _ rest ts' _ _ others => tracks_pure ?_
    rw [List.append_nil, ← List.append_assoc]
    refine ⟨?_, fun order => ?_⟩
    · simpa [named, colon] using IsInits.cons value.derived separator others.derived
    · have order : InOrder (t :: t' :: ts ++ sep ++ ts') := order
      have value := value.spelled order.left.left.tail.tail
      rw [value.span_eq, order.left.left.join_from ⟨[t, t'], rfl⟩ value.ne_nil]
      exact .cons (.field named colon value) separator (others.spelled order.right)

theorem serves_structLiteral {t : Token} {name : String} (named : t.kind = .identifier name) :
    Serves pool (.structLiteral name t.span) 1 (bound + 1) (structLiteral self name t.span)
      fun ts e => ts ≠ [] ∧ FormsExpr .primary (t :: ts) e := serves_of_body fun n c short fuel => by
  refine tracks_expecting fun c' t' opens _ count => tracks_remaining ?_
  refine (serves_fieldInits inner _ (by omega) n c' (by omega) (by omega)).bind fun _ inits ts _ _ fields => ?_
  refine tracks_expecting fun c t'' closes last _ => tracks_look rfl ?_
  refine tracks_pure ⟨List.cons_ne_nil _ _, ?_, fun order => ?_⟩
  · simpa [named, opens, closes] using IsExpr.struct fields.derived
  · have order : InOrder (t :: t' :: ts ++ [t'']) := order
    rw [last, order.join_token ⟨t :: t' :: ts, rfl⟩]
    exact .struct named opens (fields.spelled order.tail.tail.left) closes

theorem serves_primary : ServesLevel pool .primary 1 (bound + 1) (primary self) := serves_of_body fun n c short fuel => by
  refine tracks_look rfl ?_
  cases kind : c.peek.kind with
  | symbol s =>
    cases s with
    | leftParen =>
      refine tracks_next (by simp [kind]) fun count => ?_
      refine (serves_inner inner n _ (by omega) (by omega)).bind fun _ e ts _ _ inside => ?_
      refine tracks_expecting fun c' t' closes last _ => tracks_look rfl (tracks_pure ⟨?_, fun order => ?_⟩)
      · simpa [kind, closes] using IsExpr.group _ inside.derived
      · have order : InOrder (c.peek :: ts ++ [t']) := order
        rw [last, order.join_token ⟨c.peek :: ts, rfl⟩]
        exact .group kind (inside.spelled order.tail.left) closes
    | _ => exact tracks_fail rfl (.inr rfl)
  | int value => exact tracks_next (by simp [kind]) fun _ => tracks_pure ⟨by simpa [kind] using .int, fun _ => .int kind⟩
  | float value =>
    exact tracks_next (by simp [kind]) fun _ => tracks_pure ⟨by simpa [kind] using .float, fun _ => .float kind⟩
  | string value =>
    exact tracks_next (by simp [kind]) fun _ => tracks_pure ⟨by simpa [kind] using .string, fun _ => .string kind⟩
  | identifier name =>
    refine tracks_next (by simp [kind]) fun count => ?_
    refine tracks_look rfl (tracks_ite (fun _ => ?_) fun _ => tracks_look rfl (tracks_ite (fun _ => ?_) fun _ => ?_))
    · exact (serves_call inner kind n _ (by omega) (by omega)).mono fun _ _ forms => forms.2
    · exact (serves_structLiteral inner kind n _ (by omega) (by omega)).mono fun _ _ forms => forms.2
    · exact tracks_pure ⟨by simpa [kind] using .variable, fun _ => .variable kind⟩
  | _ => exact tracks_fail rfl (.inr rfl)

theorem serves_accesses : (r : Nat) → r ≤ bound → (e : Expr) → Serves pool (.accesses e) 1 (r + 1) (accesses self r e)
    fun ts' e' => ∀ ts, FormsExpr .access ts e → FormsExpr .access (ts ++ ts') e'
  | 0, _, _ => serves_of_body fun n c short _ =>
    tracks_of_end (by omega) (fun _ => rfl) (fun _ => rfl) fun ts base => by rwa [List.append_nil]
  | r + 1, within, e => serves_of_body fun n c short fuel => by
    refine tracks_ifAccept (fun c₁ t sign _ count₁ => ?_) (tracks_ifAccept (fun c₁ t sign _ count₁ => ?_)
      (tracks_ifAccept (fun c₁ t opens _ count₁ => ?_) (tracks_pure fun ts base => by rwa [List.append_nil])))
    · refine tracks_named fun c₂ name t' named _ count₂ => ?_
      refine (serves_accesses r (by omega) _ n c₂ (by omega) (by omega)).mono fun ts' e' forms ts base => ?_
      have whole : FormsExpr .access (ts ++ [t, t']) (.field (e.span.join t'.span) e name) := by
        refine ⟨by simpa [sign, named] using IsExpr.field base.derived, fun order => ?_⟩
        have base := base.spelled order.left
        rw [base.join_token order (List.prefix_append ..) ⟨ts ++ [t], by simp⟩]
        exact .field base sign named
      simpa only [List.append_assoc, List.cons_append, List.nil_append] using forms _ whole
    · refine tracks_named fun c₂ name t' named _ count₂ => ?_
      refine (serves_accesses r (by omega) _ n c₂ (by omega) (by omega)).mono fun ts' e' forms ts base => ?_
      have whole : FormsExpr .access (ts ++ [t, t']) (.field (e.span.join t'.span) (.unary e.span .deref e) name) := by
        refine ⟨by simpa [sign, named] using IsExpr.arrow base.derived, fun order => ?_⟩
        have base := base.spelled order.left
        rw [base.join_token order (List.prefix_append ..) ⟨ts ++ [t], by simp⟩, base.span_eq]
        exact .arrow base sign named
      simpa only [List.append_assoc, List.cons_append, List.nil_append] using forms _ whole
    · refine (serves_inner inner n c₁ (by omega) (by omega)).bind fun c₂ i ts' count₂ _ offset => ?_
      refine tracks_expecting fun c₃ t' closes last count₃ => tracks_look rfl ?_
      refine (serves_accesses r (by omega) _ n c₃ (by omega) (by omega)).mono fun ts'' e' forms ts base => ?_
      have whole : FormsExpr .access (ts ++ t :: ts' ++ [t']) (.index (e.span.join c₃.last) e i) := by
        refine ⟨by simpa [opens, closes] using IsExpr.index base.derived offset.derived, fun order => ?_⟩
        have base := base.spelled order.left.left
        rw [last, base.join_token order ⟨t :: ts' ++ [t'], by simp⟩ (List.suffix_append ..)]
        exact .index base opens (offset.spelled order.left.right.tail) closes
      simpa only [List.append_assoc, List.cons_append, List.nil_append] using forms _ whole

theorem serves_operand : ServesLevel pool .access 2 (bound + 1) (operand self) := serves_of_body fun n c short fuel => by
  refine (serves_primary inner n c short fuel).bind fun c' e ts count _ base => tracks_remaining ?_
  refine (serves_accesses inner _ (by omega) e n c' (by omega) (by omega)).mono fun ts' e' forms => ?_
  exact forms ts (base.tighter rfl)

theorem serves_prefixed : (r : Nat) → r ≤ bound → ServesLevel pool .unary 3 (r + 1) (prefixed (operand self) r)
  | 0, _ => serves_of_body fun n c short fuel => by
    have ended : unaryOp? c.peek.kind = none := by
      rw [Cursor.peek, List.length_eq_zero_iff.mp (by omega : c.rest.length = 0)]
      rfl
    refine Tracks.of_eq (q := peekKind >>= fun _ => operand self) (tracks_look rfl ?_) rfl
    rw [ended]
    exact (serves_operand inner n c (by omega) fuel).mono fun _ _ forms => forms.tighter rfl
  | r + 1, within => serves_of_body fun n c short fuel => by
    refine tracks_look rfl ?_
    cases found : unaryOp? c.peek.kind with
    | none => exact (serves_operand inner n c (by omega) fuel).mono fun _ _ forms => forms.tighter rfl
    | some op =>
      obtain ⟨sign, inside⟩ := unaryOp_symbol found
      refine tracks_next inside fun count => ?_
      refine (serves_prefixed r (by omega) n _ (by omega) (by omega)).bind fun _ e ts _ _ operand => tracks_pure ?_
      rw [List.append_nil]
      refine ⟨by simpa [sign] using IsExpr.unary op operand.derived, fun order => ?_⟩
      have operand := operand.spelled order.tail
      rw [operand.span_eq, order.join_from (List.suffix_append [c.peek] ts) operand.ne_nil]
      exact .unary sign operand

theorem serves_unary : ServesLevel pool .unary 3 (bound + 1) (unary self) := fun n c short fuel =>
  tracks_remaining (serves_prefixed inner _ (by omega) n c (by omega) fuel)

theorem serves_term : ServesLevel pool .term 4 (bound + 1) (term self) :=
  serves_chain (k := .term) (serves_unary inner) (by omega)

theorem serves_additive : ServesLevel pool .additive 5 (bound + 1) (additive self) :=
  serves_chain (k := .additive) (serves_term inner) (by omega)

theorem serves_comparison : ServesLevel pool .comparison 6 (bound + 1) (comparison self) :=
  serves_chain (k := .comparison) (serves_additive inner) (by omega)

theorem serves_assignment : ServesLevel pool .expr 7 (bound + 1) (assignment self) := serves_of_body fun n c short fuel => by
  simp only [Rule.body, assignment]
  refine (serves_comparison inner n c short fuel).bind fun c' target ts count _ left => tracks_known fun known => ?_
  have result := accept?_eq (.symbol .equal) c'
  split at result
  · rename_i sign
    have inside : c'.peek.kind ≠ .eof := by simp [sign]
    refine tracks_read inside result fun count' => tracks_ite (fun place => ?_) fun _ => ?_
    · refine (inner n _ (by omega) (by omega)).bind fun _ value ts' _ _ right => tracks_pure ?_
      rw [List.append_nil]
      refine ⟨?_, fun order => ?_⟩
      · simpa [sign] using IsExpr.assign (left.derived.unary_of_place place) place right.derived
      · have left := left.spelled order.left
        have right := right.spelled order.right.tail
        rw [left.join right order (List.prefix_append ..) ⟨ts ++ [c'.peek], by simp⟩]
        exact .assign left sign right
    · exact tracks_failing rfl (.inl (known (rest_of_peek inside ▸ List.mem_cons_self)))
  · refine tracks_look result (tracks_pure ?_)
    rw [List.append_nil]
    exact left.tighter rfl

end Expressions

/-- An expression needs no more depth than there are tokens. -/
theorem serves_expressionWithin : (depth : Nat) → ServesLevel pool .expr 7 (depth + 1) (expressionWithin depth)
  | 0 => by
    intro n c short fuel
    have none : ServesLevel pool .expr 7 0 (expected .expression) := fun _ _ short => absurd short (Nat.not_lt_zero _)
    refine (serves_assignment none n c short fuel).of_eq ?_
    obtain ⟨span, rest⟩ := c
    obtain rfl : rest = [] := List.length_eq_zero_iff.mp (Nat.lt_one_iff.mp short)
    rfl
  | depth + 1 => serves_assignment (serves_expressionWithin depth)

theorem serves_whole (bound : Nat) : ServesLevel pool .expr 7 bound expression := fun n c _ fuel =>
  tracks_remaining (serves_expressionWithin _ n c (Nat.lt_succ_self _) fuel)

theorem serves_expression (bound : Nat) : Serves pool .expression 8 bound expression (FormsExpr .expr) :=
  serves_inner (serves_whole bound)

end Parser

end StructLang
