import StructLang.Proofs.Parse.Derivation

namespace StructLang

def Decl.Plain : Decl → Prop
  | .struct d => (d.fields.map (·.name)).Nodup
  | .imported .. => False
  | _ => True

theorem Cursor.lastAfter_concat (c : Cursor) (front : List Token) (t : Token) : c.lastAfter (front ++ [t]) = t.span := by
  simp [lastAfter]

namespace Parser

open Grammar

variable {pool : List Token} {bound : Nat}

theorem serves_stars : (r : Nat) → (ty : Ty) → Serves pool (.stars ty) 1 (r + 1) (stars r ty)
    fun ts' ty' => ∀ ts, SpellsType ts ty → SpellsType (ts ++ ts') ty'
  | 0, _ => serves_of_body fun n c short _ =>
    tracks_of_end (by omega) (fun _ => rfl) (fun _ => rfl) fun ts target => by rwa [List.append_nil]
  | r + 1, ty => serves_of_body fun n c short fuel => by
    refine tracks_ifAccept (fun c' t star _ count => ?_) (tracks_pure fun ts target => by rwa [List.append_nil])
    refine (serves_stars r _ n c' (by omega) (by omega)).mono fun ts' ty' spells ts target => ?_
    have whole : SpellsType (ts ++ [t]) (.ptr ty) := by simpa [SpellsType, star] using IsType.ptr target
    simpa only [List.append_assoc, List.cons_append, List.nil_append] using spells _ whole

theorem serves_type (bound : Nat) : Serves pool .type 1 bound type SpellsType := serves_of_body fun n c _ fuel => by
  refine tracks_named fun c' name t named _ count => tracks_remaining ?_
  refine (serves_stars _ _ n c' (by omega) (by omega)).mono fun ts ty spells => spells [t] ?_
  simpa [SpellsType, named] using IsType.name (denotes_ofName name)

/-- A span that is joined up to the last token read. -/
theorem join_last {t : Token} (front : List Token) {ts : List Token} {c c' : Cursor}
    (order : InOrder (t :: front ++ ts)) (some : ts ≠ []) (last : c'.last = c.lastAfter ts) :
    t.span.join c'.last = hull (t :: front ++ ts) := by
  obtain ⟨others, t', rfl⟩ := exists_last some
  rw [last, c.lastAfter_concat]
  exact order.join_token ⟨t :: front ++ others, by simp⟩

theorem serves_letStatement (bound : Nat) {t : Token} (keyword : t.kind = .keyword .let) :
    Serves pool (.letStatement t.span) 1 bound (letStatement t.span) fun ts => Forms IsLet SpellsLet (t :: ts) :=
  serves_of_body fun n c short fuel => by
  simp only [Rule.body, letStatement, pure_bind]
  refine tracks_named fun c₁ name t' named _ count₁ => tracks_expecting fun c₂ t'' colon _ count₂ => ?_
  refine (serves_type bound n c₂ (by omega) (by omega)).bind fun c₃ ty ts count₃ last type => ?_
  refine tracks_ifAccept (fun c₄ u sign _ count₄ => ?_) (tracks_look rfl (tracks_pure ?_))
  · rw [← bind_pure_comp, bind_assoc, ← bind_pure_comp, bind_assoc]
    simp only [pure_bind]
    refine (serves_expression bound n c₄ (by omega) (by omega)).bind fun c e ts' _ last value => ?_
    refine tracks_look rfl (tracks_pure ?_)
    rw [List.append_nil]
    refine ⟨by simpa [keyword, named, colon, sign] using IsLet.initialised type value.derived, fun order => ?_⟩
    have order : InOrder (t :: t' :: t'' :: ts ++ u :: ts') := order
    have value := value.spelled order.right.tail
    have same : t :: t' :: t'' :: ts ++ u :: ts' = t :: (t' :: t'' :: ts ++ [u]) ++ ts' := by simp
    rw [join_last _ (same ▸ order) value.ne_nil last, ← same]
    exact .initialised keyword named colon type sign value
  · rw [List.append_nil]
    refine ⟨by simpa [keyword, named, colon] using IsLet.declared type, fun order => ?_⟩
    rw [join_last [t', t''] order type.ne_nil last]
    exact .declared keyword named colon type

theorem serves_returnStatement (bound : Nat) {t : Token} (keyword : t.kind = .keyword .return) :
    Serves pool (.returnStatement t.span) 9 bound (returnStatement t.span)
      fun ts => Forms IsStmt SpellsStmt (t :: ts) := serves_of_body fun n c short fuel => by
  refine tracks_look rfl (tracks_look rfl (tracks_ite (fun _ => tracks_pure ?_) fun _ => ?_))
  · exact ⟨by simpa [keyword] using .ret, fun _ => .ret keyword⟩
  · refine (serves_expression bound n c short fuel).bind fun c e ts _ _ value => tracks_pure ?_
    rw [List.append_nil]
    refine ⟨by simpa [keyword] using IsStmt.retValue value.derived, fun order => ?_⟩
    have value := value.spelled order.tail
    rw [value.span_eq, order.join_from (List.suffix_append [t] ts) value.ne_nil]
    exact .retValue keyword value

theorem serves_test (bound : Nat) (keyword : Keyword) : Serves pool (.test keyword) 1 bound (test keyword)
    fun ts e => ∃ (t : Token) (ts' : List Token) (t' : Token), ts = t :: ts' ++ [t'] ∧
      t.kind = .symbol .leftParen ∧ FormsExpr .expr ts' e ∧ t'.kind = .symbol .rightParen :=
  serves_of_body fun n c short fuel => by
  refine tracks_expecting fun c' t opens _ count => ?_
  refine (serves_expression bound n c' (by omega) (by omega)).bind fun c e ts' _ _ value => ?_
  exact tracks_expecting fun c t' closes _ _ => tracks_pure ⟨t, ts', t', rfl, opens, value, closes⟩

theorem serves_forInit (bound : Nat) : Serves pool .forInit 9 bound forInit (Forms IsForInit SpellsForInit) :=
  serves_of_body fun n c short fuel => by
  refine tracks_look rfl (tracks_ifKeyword (fun keyword count => ?_) ?_)
  · refine (serves_letStatement bound keyword n _ (by omega) (by omega)).mono fun _ _ declared => ?_
    exact ⟨.letIn declared.derived, fun order => .letIn (declared.spelled order)⟩
  · refine ((serves_expression bound n c short fuel).mono fun _ _ value => ?_).map
    exact ⟨.expr value.derived, fun order => .expr (value.spelled order)⟩

section Statements

abbrev FormsBlock : List Token → Block → Prop := Forms IsBlock SpellsBlock

variable {block : Parser Block} (blocks : Serves pool .block 1 bound block FormsBlock)
include blocks

theorem serves_ifChain : (r : Nat) → r ≤ bound →
    Serves pool .ifChain 2 (r + 1) (ifChain block r) (Forms IsChain SpellsChain)
  | 0, _ => serves_of_body fun n c short fuel => by
    cases n with
    | zero => omega
    | succ n => exact tracks_expected_of_end (by omega) fun _ => rfl
  | r + 1, within => serves_of_body fun n c short fuel => by
    refine (serves_test _ .if n c short (by omega)).bind fun c₁ e _ count₁ _ test => ?_
    obtain ⟨t, ts, t', rfl, opens, test, closes⟩ := test
    simp only [List.length_append, List.length_cons] at count₁
    refine (blocks n c₁ (by omega) (by omega)).bind fun c₂ b ts' count₂ _ body => ?_
    refine tracks_ifKeyword (fun keyword count₃ => ?_) (tracks_pure ?_)
    · refine tracks_ifKeyword (fun keyword' count₄ => ?_) ?_
      · refine (serves_ifChain r (by omega) n _ (by omega) (by omega)).bind fun c chain ts'' _ _ others => tracks_pure ?_
        refine ⟨?_, fun order => ?_⟩
        · simpa [opens, closes, keyword, keyword'] using IsChain.withElseIf test.derived body.derived others.derived
        · have same : t :: ts ++ [t'] ++ (ts' ++ c₂.peek :: c₂.advance.peek :: (ts'' ++ [])) =
              t :: ts ++ t' :: ts' ++ c₂.peek :: c₂.advance.peek :: ts'' := by simp
          rw [same] at order ⊢
          exact .withElseIf opens (test.spelled order.left.left.tail) closes (body.spelled order.left.right.tail) keyword
            keyword' (others.spelled order.right.tail.tail)
      · refine (blocks n _ (by omega) (by omega)).bind fun c b' ts'' _ _ last => tracks_pure ?_
        refine ⟨?_, fun order => ?_⟩
        · simpa [opens, closes, keyword] using IsChain.withElse test.derived body.derived last.derived
        · have same : t :: ts ++ [t'] ++ (ts' ++ c₂.peek :: (ts'' ++ [])) = t :: ts ++ t' :: ts' ++ c₂.peek :: ts'' := by simp
          rw [same] at order ⊢
          exact .withElse opens (test.spelled order.left.left.tail) closes (body.spelled order.left.right.tail) keyword
            (last.spelled order.right.tail)
    · have same : t :: ts ++ [t'] ++ (ts' ++ []) = t :: ts ++ t' :: ts' := by simp
      rw [same]
      refine ⟨by simpa [opens, closes] using IsChain.single test.derived body.derived, fun order => ?_⟩
      exact .single opens (test.spelled order.left.tail) closes (body.spelled order.right.tail)

theorem serves_ifStatement {t : Token} (keyword : t.kind = .keyword .if) : Serves pool (.ifStatement t.span) 3 (bound + 1)
    (ifStatement block t.span) fun ts => Forms IsStmt SpellsStmt (t :: ts) := serves_of_body fun n c short fuel => by
  refine tracks_remaining ((serves_ifChain blocks _ (by omega) n c (by omega) fuel).bind ?_)
  refine fun c chain ts _ last branches => tracks_look rfl (tracks_pure ?_)
  rw [List.append_nil]
  refine ⟨by simpa [keyword] using IsStmt.cond branches.derived, fun order => ?_⟩
  have branches := branches.spelled order.tail
  rw [join_last [] order branches.ne_nil last]
  exact .cond keyword branches

theorem serves_whileStatement {t : Token} (keyword : t.kind = .keyword .while) : Serves pool (.whileStatement t.span) 2
    (bound + 1) (whileStatement block t.span) fun ts => Forms IsStmt SpellsStmt (t :: ts) :=
  serves_of_body fun n c short fuel => by
  refine (serves_test _ .while n c short fuel).bind fun c₁ e _ count₁ _ test => ?_
  obtain ⟨t', ts, t'', rfl, opens, test, closes⟩ := test
  simp only [List.length_append, List.length_cons] at count₁
  refine (blocks n c₁ (by omega) (by omega)).bind fun c b ts' _ _ body => tracks_pure ?_
  have same : t :: (t' :: ts ++ [t''] ++ (ts' ++ [])) = t :: t' :: ts ++ t'' :: ts' := by simp
  rw [same]
  refine ⟨by simpa [keyword, opens, closes] using IsStmt.while test.derived body.derived, fun order => ?_⟩
  have body := body.spelled order.right.tail
  rw [body.span_eq, order.join_from ⟨t :: t' :: ts ++ [t''], by simp⟩ body.ne_nil]
  exact .while keyword opens (test.spelled order.left.tail.tail) closes body

theorem serves_forStatement {t : Token} (keyword : t.kind = .keyword .for) : Serves pool (.forStatement t.span) 1
    (bound + 1) (forStatement block t.span) fun ts => Forms IsStmt SpellsStmt (t :: ts) :=
  serves_of_body fun n c short fuel => by
  refine tracks_expecting fun c₁ t' opens _ count₁ => ?_
  refine (serves_forInit bound n c₁ (by omega) (by omega)).bind fun c₂ init ts₁ count₂ _ first => ?_
  refine tracks_expecting fun c₃ u semicolon _ count₃ => ?_
  refine (serves_expression bound n c₃ (by omega) (by omega)).bind fun c₄ e ts₂ count₄ _ test => ?_
  refine tracks_expecting fun c₅ u' semicolon' _ count₅ => ?_
  refine (serves_expression bound n c₅ (by omega) (by omega)).bind fun c₆ increment ts₃ count₆ _ next => ?_
  refine tracks_expecting fun c₇ u'' closes _ count₇ => ?_
  refine (blocks n c₇ (by omega) (by omega)).bind fun c b ts₄ _ _ body => tracks_pure ?_
  have same : t :: t' :: (ts₁ ++ u :: (ts₂ ++ u' :: (ts₃ ++ u'' :: (ts₄ ++ [])))) =
      t :: t' :: ts₁ ++ u :: ts₂ ++ u' :: ts₃ ++ u'' :: ts₄ := by simp
  rw [same]
  refine ⟨?_, fun order => ?_⟩
  · simpa [keyword, opens, semicolon, semicolon', closes] using
      IsStmt.for first.derived test.derived next.derived body.derived
  · have body := body.spelled order.right.tail
    rw [body.span_eq, order.join_from ⟨t :: t' :: ts₁ ++ u :: ts₂ ++ u' :: ts₃ ++ [u''], by simp⟩ body.ne_nil]
    exact .for keyword opens (first.spelled order.left.left.left.tail.tail) semicolon
      (test.spelled order.left.left.right.tail) semicolon' (next.spelled order.left.right.tail) closes body

theorem serves_statement : Serves pool .statement 9 (bound + 1) (statement block) (Forms IsStmt SpellsStmt) :=
  serves_of_body fun n c short fuel => by
  refine tracks_look rfl (tracks_ifKeyword (fun keyword _ => ?_) (tracks_ifKeyword (fun keyword _ => ?_)
    (tracks_ifKeyword (fun keyword _ => ?_) (tracks_ifKeyword (fun keyword _ => ?_)
    (tracks_ifKeyword (fun keyword _ => ?_) ?_)))))
  · refine (serves_letStatement bound keyword n _ (by omega) (by omega)).mono fun _ _ declared => ?_
    exact ⟨.letIn declared.derived, fun order => .letIn (declared.spelled order)⟩
  · exact serves_returnStatement bound keyword n _ (by omega) (by omega)
  · exact serves_ifStatement blocks keyword n _ (by omega) (by omega)
  · exact serves_whileStatement blocks keyword n _ (by omega) (by omega)
  · exact serves_forStatement blocks keyword n _ (by omega) (by omega)
  · refine ((serves_expression _ n c short fuel).mono fun _ _ value => ?_).map
    exact ⟨.expr value.derived, fun order => .expr (value.spelled order)⟩

theorem serves_statements : (r : Nat) → r ≤ bound →
    Serves pool .statements 10 (r + 1) (statements block r) (Forms IsStmts SpellsStmts)
  | 0, _ => serves_of_body fun n c short _ =>
    tracks_of_end (by omega) (fun _ => rfl) (fun _ => rfl) ⟨.nil, fun _ => .nil⟩
  | r + 1, within => serves_of_body fun n c short fuel => by
    refine tracks_look rfl (tracks_look rfl (tracks_ite (fun _ => tracks_pure ⟨.nil, fun _ => .nil⟩) fun _ => ?_))
    refine (serves_statement blocks n c (by omega) fuel).bind fun c₁ s ts count₁ _ first => ?_
    have progress := length_pos_of_kinds first.derived.ne_nil
    refine tracks_optional fun c₂ sep count₂ separator => ?_
    refine (serves_statements r (by omega) n c₂ (by omega) (by omega)).bind fun c rest ts' _ _ others => tracks_pure ?_
    rw [List.append_nil, ← List.append_assoc]
    refine ⟨by simpa using IsStmts.cons first.derived separator others.derived, fun order => ?_⟩
    exact .cons (first.spelled order.left.left) separator (others.spelled order.right)

end Statements

/-- Blocks need no more depth than there are tokens. -/
theorem serves_blockWithin : (depth : Nat) → Serves pool .block 1 (depth + 1) (blockWithin depth) FormsBlock
  | 0 => serves_of_body fun n c short _ => tracks_expected_of_end (by omega) fun _ => rfl
  | depth + 1 => serves_of_body fun n c short fuel => by
    refine tracks_expecting fun c' t opens first count => tracks_look rfl (tracks_remaining ?_)
    refine (serves_statements (serves_blockWithin depth) _ (by omega) n c' (by omega) (by omega)).bind
      fun c stmts ts _ _ inside => ?_
    refine tracks_expecting fun c t' closes last _ => tracks_look rfl (tracks_pure ⟨?_, fun order => ?_⟩)
    · simpa [opens, closes] using IsBlock.braces inside.derived
    · have order : InOrder (t :: ts ++ [t']) := order
      rw [first, last, order.join_token ⟨t :: ts, rfl⟩]
      exact .braces opens (inside.spelled order.tail.left) closes

theorem serves_block (bound : Nat) : Serves pool .block 1 bound block FormsBlock := fun n c _ fuel =>
  tracks_remaining (serves_blockWithin _ n c (Nat.lt_succ_self _) fuel)

theorem serves_params : (r : Nat) →
    Serves pool .params 1 (r + 1) (params r) fun ts ps => Forms IsParams SpellsParams ts ps ∧ ps ≠ []
  | 0 => serves_of_body fun n c short _ => tracks_expected_of_end (by omega) fun _ => rfl
  | r + 1 => serves_of_body fun n c short fuel => by
    refine tracks_named fun c₁ name t named _ count₁ => tracks_expecting fun c₂ t' colon _ count₂ => ?_
    refine (serves_type (r + 2) n c₂ (by omega) (by omega)).bind fun c₃ ty ts count₃ last type => ?_
    have param (order : InOrder (t :: t' :: ts)) : SpellsParam (t :: t' :: ts) ⟨name, ty, t.span.join c₃.last⟩ := by
      rw [join_last [t'] order type.ne_nil last]
      exact .typed named colon type
    refine tracks_look rfl (tracks_ifAccept (fun c₄ u comma _ count₄ => ?_) (tracks_pure ⟨?_, List.cons_ne_nil _ _⟩))
    · refine (serves_params r n c₄ (by omega) (by omega)).bind fun c ps ts' _ _ others => ?_
      refine tracks_pure ⟨?_, List.cons_ne_nil _ _⟩
      obtain ⟨p, rest, rfl⟩ := List.exists_cons_of_ne_nil others.2
      rw [List.append_nil]
      refine ⟨by simpa [named, colon, comma] using IsParams.more type others.1.derived, fun order => ?_⟩
      have order : InOrder (t :: t' :: ts ++ u :: ts') := order
      exact .more (param order.left) comma (others.1.spelled order.right.tail)
    · rw [List.append_nil]
      exact ⟨by simpa [named, colon] using IsParams.one type, fun order => .one (param order)⟩

theorem serves_signature (bound : Nat) : Serves pool .signature 1 bound signature (Forms IsSignature SpellsSignature) :=
  serves_of_body fun n c short fuel => by
  have close {name : String} {t t' : Token} (named : t.kind = .identifier name) (opens : t'.kind = .symbol .leftParen)
      (ps : List Param) {ts : List Token} (params : Forms IsParams SpellsParams ts ps) (c : Cursor)
      (short : c.rest.length < bound) (fuel : 10 * c.rest.length ≤ n) : Tracks pool c
      (do
        step (expect .rightParen .paramsClose)
        let returns ← if ← step (accept .colon) then Rule.run n .type else pure .void
        return (⟨name, t.span, returns, ps, t.span.join (← step lastSpan)⟩ : Signature))
      (do
        expect .rightParen .paramsClose
        let returns ← if ← accept .colon then type else pure .void
        return (⟨name, t.span, returns, ps, t.span.join (← lastSpan)⟩ : Signature))
      fun ts' => Forms IsSignature SpellsSignature (t :: t' :: ts ++ ts') := by
    simp only [pure_bind]
    refine tracks_expecting fun c₁ t'' closes last count₁ => tracks_ifAccept (fun c₂ u colon _ count₂ => ?_)
      (tracks_look rfl (tracks_pure ⟨?_, fun order => ?_⟩))
    · refine (serves_type bound n c₂ (by omega) (by omega)).bind fun c ty ts' _ last type => ?_
      refine tracks_look rfl (tracks_pure ?_)
      rw [List.append_nil]
      refine ⟨?_, fun order => ?_⟩
      · simpa [named, opens, closes, colon] using IsSignature.returning params.derived type
      · have whole : t :: t' :: ts ++ t'' :: u :: ts' = t :: (t' :: ts ++ [t'', u]) ++ ts' := by simp
        rw [join_last _ (whole ▸ order) type.ne_nil last, ← whole]
        exact .returning named opens (params.spelled order.left.tail.tail) closes colon type
    · simpa [named, opens, closes] using IsSignature.void params.derived
    · rw [last, order.join_token ⟨t :: t' :: ts, rfl⟩]
      exact .void named opens (params.spelled order.left.tail.tail) closes
  simp only [pure_bind] at close
  simp only [Rule.body, signature, pure_bind]
  refine tracks_named fun c₁ name t named _ count₁ => tracks_expecting fun c₂ t' opens _ count₂ => tracks_look rfl ?_
  refine tracks_ite (fun _ => ?_) fun _ => tracks_remaining ?_
  · have none : Forms IsParams SpellsParams [] [] := ⟨.none, fun _ => .none⟩
    exact close named opens [] none c₂ (by omega) (by omega)
  · refine (serves_params _ n c₂ (by omega) (by omega)).bind fun c₃ ps ts count₃ _ params => ?_
    exact close named opens ps params.1 c₃ (by omega) (by omega)

theorem serves_fields (struct : String) : (r : Nat) → (seen : List Field) → Serves pool (.fields struct seen) 1 (r + 1)
    (fields struct r seen) fun ts fs => ∃ new, fs = seen ++ new ∧ Forms IsFields SpellsFields ts new ∧
      ((seen.map (·.name)).Nodup → (fs.map (·.name)).Nodup)
  | 0, seen => serves_of_body fun n c short _ =>
    tracks_of_end (by omega) (fun _ => rfl) (fun _ => rfl) ⟨[], by simp, ⟨.nil, fun _ => .nil⟩, id⟩
  | r + 1, seen => serves_of_body fun n c short fuel => by
    simp only [Rule.body, fields]
    refine tracks_look rfl (tracks_look rfl (tracks_ite (fun _ => ?_) fun _ => ?_))
    · exact tracks_pure ⟨[], by simp, ⟨.nil, fun _ => .nil⟩, id⟩
    refine tracks_named fun c₁ name t named known count₁ => ?_
    refine tracks_ite (fun _ => tracks_failing rfl (.inl known)) fun free => tracks_expecting fun c₂ t' colon _ count₂ => ?_
    refine (serves_type (r + 2) n c₂ (by omega) (by omega)).bind fun c₃ ty ts count₃ last type => tracks_look rfl ?_
    have field (order : InOrder (t :: t' :: ts)) : SpellsField (t :: t' :: ts) ⟨name, ty, t.span.join c₃.last⟩ := by
      rw [join_last [t'] order type.ne_nil last]
      exact .typed named colon type
    have grows (distinct : (seen.map (·.name)).Nodup) :
        ((seen ++ [(⟨name, ty, t.span.join c₃.last⟩ : Field)]).map (·.name)).Nodup := by
      rw [List.map_append, List.nodup_append]
      refine ⟨distinct, by simp, ?_⟩
      rintro a member b last rfl
      obtain ⟨field, known, same⟩ := List.mem_map.mp member
      exact free (List.any_eq_true.mpr ⟨field, known, beq_iff_eq.mpr (same.trans (by simpa using last))⟩)
    have more (sep : List Token) (separator : Separates [.semicolon, .comma] sep) (c : Cursor)
        (shorter : c.rest.length ≤ c₃.rest.length) :
        Tracks pool c (Rule.run n (.fields struct (seen ++ [⟨name, ty, t.span.join c₃.last⟩])))
          (fields struct r (seen ++ [⟨name, ty, t.span.join c₃.last⟩]))
          fun ts' fs => ∃ new, fs = seen ++ new ∧ Forms IsFields SpellsFields (t :: t' :: (ts ++ (sep ++ ts'))) new ∧
            ((seen.map (·.name)).Nodup → (fs.map (·.name)).Nodup) := by
      refine (serves_fields struct r _ n c (by omega) (by omega)).mono ?_
      rintro ts' fs ⟨new, rfl, others, distinct⟩
      refine ⟨⟨name, ty, t.span.join c₃.last⟩ :: new, by simp, ?_, fun before => distinct (grows before)⟩
      have same : t :: t' :: (ts ++ (sep ++ ts')) = t :: t' :: ts ++ sep ++ ts' := by simp
      rw [same]
      refine ⟨by simpa [named, colon] using IsFields.cons type separator others.derived, fun order => ?_⟩
      exact .cons (field order.left.left) separator (others.spelled order.right)
    refine tracks_ifAccept (fun c₄ u kind _ count₄ => more [u] ?_ c₄ (by omega))
      (tracks_optional fun c₄ sep count₄ separator => more sep ?_ c₄ (by omega))
    · exact .inr ⟨.semicolon, by simp, by simp [kind]⟩
    · refine separator.imp id ?_
      rintro ⟨s, member, same⟩
      exact ⟨s, List.mem_cons_of_mem _ member, same⟩

abbrev FormsDecl (ts : List Token) (d : Decl) : Prop := Forms IsDecl SpellsDecl ts d ∧ d.Plain

theorem serves_structDecl (bound : Nat) {t : Token} (keyword : t.kind = .keyword .struct) :
    Serves pool (.structDecl t.span) 1 bound (structDecl t.span) fun ts d => FormsDecl (t :: ts) (.struct d) :=
  serves_of_body fun n c short fuel => by
  refine tracks_named fun c₁ name t' named _ count₁ => tracks_expecting fun c₂ t'' opens _ count₂ => ?_
  refine tracks_remaining ((serves_fields name _ [] n c₂ (by omega) (by omega)).bind fun c fs ts _ _ inside => ?_)
  obtain ⟨new, rfl, inside, distinct⟩ := inside
  refine tracks_expecting fun c u closes last _ => tracks_look rfl ?_
  refine tracks_pure ⟨⟨?_, fun order => ?_⟩, distinct List.nodup_nil⟩
  · simpa [keyword, named, opens, closes] using IsDecl.struct inside.derived
  · have order : InOrder (t :: t' :: t'' :: ts ++ [u]) := order
    rw [last, order.join_token ⟨t :: t' :: t'' :: ts, rfl⟩]
    exact .struct keyword named opens (inside.spelled order.left.tail.tail.tail) closes

theorem serves_importDecl (bound : Nat) {t : Token} (keyword : t.kind = .keyword .imports) :
    Serves pool (.importDecl t.span) 1 bound (importDecl t.span) fun ts => FormsDecl (t :: ts) :=
  serves_of_body fun n c short fuel => by
  refine tracks_look rfl ?_
  cases kind : c.peek.kind with
  | string path =>
    refine tracks_next (by simp [kind]) fun _ => tracks_pure ⟨⟨?_, fun order => ?_⟩, trivial⟩
    · simpa [keyword, kind] using .importOf
    rw [order.join_token (List.suffix_append [t] _)]
    exact .importOf keyword kind
  | _ => exact tracks_expected

theorem serves_declaration (bound : Nat) : Serves pool .declaration 1 bound declaration FormsDecl :=
  serves_of_body fun n c short fuel => by
  have external {more : List Token} (keyword : c.peek.kind = .keyword .external)
      (keyword' : more = [] ∨ ∃ t', more = [t'] ∧ t'.kind = .keyword .function) {ts : List Token} {f : Signature}
      (signature : Forms IsSignature SpellsSignature ts f) :
      FormsDecl (c.peek :: more ++ ts) (.external f (c.peek.span.join f.span)) := by
    refine ⟨⟨?_, fun order => ?_⟩, trivial⟩
    · rcases keyword' with rfl | ⟨t', rfl, kind⟩
      · simpa [keyword] using IsDecl.external signature.derived
      · simpa [keyword, kind] using IsDecl.externalFunction signature.derived
    · have signature := signature.spelled order.right
      rw [signature.span_eq, order.join_from ⟨c.peek :: more, rfl⟩ signature.ne_nil]
      exact .external keyword keyword' signature
  simp only [Rule.body, declaration]
  refine tracks_look rfl (tracks_ifKeyword (fun keyword count₁ => ?_) (tracks_ifKeyword (fun keyword count₁ => ?_)
    (tracks_ifKeyword (fun keyword count₁ => ?_) (tracks_ifKeyword (fun keyword count₁ => ?_) tracks_expected))))
  · refine (serves_signature bound n _ (by omega) (by omega)).bind fun c₂ f ts count₂ _ signature => ?_
    refine (serves_block bound n c₂ (by omega) (by omega)).bind fun c' b ts' _ _ body => tracks_pure ?_
    have whole : c.peek :: (ts ++ (ts' ++ [])) = c.peek :: ts ++ ts' := by simp
    rw [whole]
    refine ⟨⟨by simpa [keyword] using IsDecl.function signature.derived body.derived, fun order => ?_⟩, trivial⟩
    have body := body.spelled order.right
    rw [body.span_eq, order.join_from ⟨c.peek :: ts, rfl⟩ body.ne_nil]
    exact .function keyword (signature.spelled order.left.tail) body
  · refine tracks_accepting (by simp) rfl (fun keyword' count₂ => ?_) ?_
    · refine (serves_signature bound n _ (by omega) (by omega)).bind fun c' f ts _ _ signature => tracks_pure ?_
      rw [List.append_nil]
      exact external keyword (.inr ⟨_, rfl, keyword'⟩) signature
    · refine (serves_signature bound n _ (by omega) (by omega)).bind fun c' f ts _ _ signature => tracks_pure ?_
      rw [List.append_nil]
      exact external keyword (.inl rfl) signature
  · exact (serves_structDecl bound keyword n _ (by omega) (by omega)).map
  · exact serves_importDecl bound keyword n _ (by omega) (by omega)

abbrev FormsDocument (ts : List Token) (d : Document) : Prop :=
  Forms IsDocument SpellsDocument ts d ∧ ∀ decl ∈ d, decl.Plain

theorem serves_declarations : (r : Nat) → Serves pool .document 2 (r + 1) (declarations r) FormsDocument
  | 0 => serves_of_body fun n c short _ =>
    tracks_of_end (by omega) (fun _ => rfl) (fun _ => rfl) ⟨⟨.nil, fun _ => .nil⟩, by simp⟩
  | r + 1 => serves_of_body fun n c short fuel => by
    refine tracks_look rfl (tracks_ite (fun _ => tracks_pure ⟨⟨.nil, fun _ => .nil⟩, by simp⟩) fun _ => ?_)
    refine (serves_declaration (r + 2) n c short fuel).bind fun c₁ d ts count₁ _ first => ?_
    obtain ⟨first, plain⟩ := first
    have progress := length_pos_of_kinds first.derived.ne_nil
    refine tracks_optional fun c₂ sep count₂ separator => ?_
    refine (serves_declarations r n c₂ (by omega) (by omega)).bind fun c rest ts' _ _ others => tracks_pure ?_
    rw [List.append_nil, ← List.append_assoc]
    refine ⟨⟨by simpa using IsDocument.cons first.derived separator others.1.derived, fun order => ?_⟩, ?_⟩
    · exact .cons (first.spelled order.left.left) separator (others.1.spelled order.right)
    · exact List.forall_mem_cons.mpr ⟨plain, others.2⟩

theorem serves_document (bound : Nat) : Serves pool .document 2 bound document FormsDocument :=
  fun n c _ fuel => tracks_remaining (serves_declarations _ n c (Nat.lt_succ_self _) fuel)

theorem tracks_document (c : Cursor) :
    Tracks c.rest c (Rule.run (10 * c.rest.length + 2) .document) document FormsDocument :=
  serves_document _ _ c (Nat.lt_succ_self _) (Nat.le_refl _)

/-- What the parser has read as declarations, if it had rounds for all tokens. -/
theorem passed_declarations {n : Nat} {c c' : Cursor} {d : Document} (enough : c.rest.length ≤ n)
    (ran : declarations n c = .ok (d, c')) : ∃ ts, Passed c ts c' ∧ FormsDocument ts d :=
  (serves_declarations n _ c (Nat.lt_succ_of_le enough) (Nat.le_refl _)).passed ran

theorem ensures_declarations (n : Nat) (c : Cursor) (d : Document) (c' : Cursor) (ran : declarations n c = .ok (d, c'))
    (enough : c.rest.length ≤ n := by exact Nat.le_refl _) : ∀ decl ∈ d, decl.Plain := by
  obtain ⟨ts, -, -, plain⟩ := passed_declarations enough ran
  exact plain

end Parser

end StructLang
