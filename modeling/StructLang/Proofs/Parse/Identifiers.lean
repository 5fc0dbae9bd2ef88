import StructLang.Proofs.Parse.Nodes
import StructLang.Proofs.Token.Respacing

namespace StructLang

namespace Lexer

def AreWords (ts : List Token) : Prop := ∀ t ∈ ts, ∀ name, t.kind = .identifier name → IsWord name

theorem areWords_of_lex {text : String} {words : List Token} {last : Token} (lexed : lex text = .ok (words ++ [last])) :
    AreWords words := by
  obtain ⟨words', last', same, -, each⟩ := detached_lexFrom lexed
  obtain ⟨rfl, -⟩ := List.append_inj' same rfl
  intro t member name kind
  obtain ⟨c, tail, -, found⟩ := each t member
  exact (scan_kind (congrArg Scan.piece (found [] (by simp [BlankFirst])))).2 name kind

theorem AreWords.subset {ts ts' : List Token} (words : AreWords ts) (subset : ts' ⊆ ts) : AreWords ts' :=
  fun t member => words t (subset member)

end Lexer

open Lexer

namespace Ty

def builtin : List Ty :=
  [.void, .bool, .int 8, .int 16, .int 32, .int 64, .float 8, .float 16, .float 32, .float 64]

def Over (names : String → Prop) : Ty → Prop
  | .ptr target => target.Over names
  | .struct name => names name
  | .int width => .int width ∈ builtin
  | .float width => .float width ∈ builtin
  | .void => True

end Ty

theorem SpellsType.overWords {ts : List Token} {ty : Ty} (spells : SpellsType ts ty) (words : AreWords ts) :
    ty.Over IsWord := by
  have named (name : String) (written : .identifier name ∈ ts.map (·.kind)) : IsWord name := by
    obtain ⟨t, member, kind⟩ := List.mem_map.mp written
    exact words t member name kind
  rw [SpellsType] at spells
  generalize ts.map (·.kind) = kinds at spells named
  induction spells with
  | name denotes =>
    cases denotes with
    | struct _ => exact named _ List.mem_cons_self
    | _ => simp [Ty.Over, Ty.builtin]
  | ptr _ ih => exact ih fun name written => named name (List.mem_append_left _ written)

namespace Node

/-- The types that a node itself writes down, those of the nodes below it apart. -/
def types : Node → List Ty
  | .signature f => [f.returns]
  | .param p => [p.ty]
  | .field f => [f.ty]
  | .stmt (.letIn _ _ ty _) => [ty]
  | .expr (.struct _ name _) => [.struct name]
  | _ => []

theorem types_withSpan (e : Expr) (span : Span) : (expr (e.withSpan span)).types = (expr e).types := by cases e <;> rfl

end Node

/-- A literal in parentheses is the literal inside. -/
theorem SpellsExpr.overWords : {ts : List Token} → {e : Expr} → SpellsExpr ts e → AreWords ts →
    ∀ ty ∈ (Node.expr e).types, ty.Over IsWord
  | _, _, .struct named _ _ _, words => List.forall_mem_singleton.mpr (words _ List.mem_cons_self _ named)
  | _, _, .group _ inner _, words => by
    rw [Node.types_withSpan]
    exact inner.overWords (words.subset (List.infix_append [_] _ [_]).subset)
  | _, _, .assign _ _ _, _ | _, _, .binary _ _ _, _ | _, _, .unary _ _, _ | _, _, .field _ _ _, _ | _, _, .arrow _ _ _, _
  | _, _, .index _ _ _ _, _ | _, _, .call _ _ _ _, _ | _, _, .int _, _ | _, _, .float _, _ | _, _, .string _, _
  | _, _, .variable _, _ => by simp [Node.types]

theorem Node.ReadFrom.overWords {own : List Token} {n : Node} (read : n.ReadFrom own) (words : AreWords own) :
    ∀ ty ∈ n.types, ty.Over IsWord := by
  have written {ts : List Token} {ty : Ty} (type : SpellsType ts ty) (inside : ts ⊆ own) : ∀ ty' ∈ [ty], ty'.Over IsWord :=
    List.forall_mem_singleton.mpr (type.overWords (words.subset inside))
  cases read with
  | decl | block | init | arrow => simp [types]
  | signature spells =>
    cases spells with
    | void => simp [types, Ty.Over]
    | returning _ _ _ _ _ type => exact written type fun t member => by simp [member]
  | param spells | field spells =>
    cases spells with
    | typed _ _ type => exact written type fun t member => by simp [member]
  | stmt spells =>
    cases spells with
    | letIn declared =>
      cases declared with
      | declared _ _ _ type | initialised _ _ _ type => exact written type fun t member => by simp [member]
    | _ => simp [types]
  | expr spells => exact spells.overWords words

theorem overWords_of_parse {text : String} {d : Document} (parsed : parse text = .ok d) {n : Node} (has : d.HasNode n) :
    ∀ ty ∈ n.types, ty.Over IsWord := by
  obtain ⟨words, last, lexed, -, -, -, spells⟩ := exists_spelling parsed
  obtain ⟨own, inside, read⟩ := spells.exists_own has
  exact read.overWords ((areWords_of_lex lexed).subset inside.subset)

theorem Attached.mem {read d : Document} {decl : Decl} : Attached read d → decl ∈ d →
    decl ∈ read ∨ (Node.decl decl).children = []
  | .keep others, member => by
    rcases List.mem_cons.mp member with rfl | later
    · exact .inl List.mem_cons_self
    · exact (others.mem later).imp_left (List.mem_cons_of_mem _)
  | .attach _ others, member => by
    rcases List.mem_cons.mp member with rfl | later
    · exact .inr rfl
    · exact (others.mem later).imp_left (List.mem_cons_of_mem _)

/-- The nodes of a document with others attached to it are those of its text, and the imports. -/
theorem Attached.hasNode {read d : Document} (attached : Attached read d) {n : Node} (has : d.HasNode n) :
    read.HasNode n ∨ n.types = [] ∧ n.children = [] := by
  induction has with
  | decl declared => exact (attached.mem declared).imp .decl fun none => ⟨rfl, none⟩
  | child _ below ih =>
    rcases ih with has | ⟨_, none⟩
    · exact .inl (.child has below)
    · rw [none] at below
      cases below

structure Document.Over (names : String → Prop) (d : Document) : Prop where
  signatures : ∀ f ∈ Document.signatures d, f.returns.Over names ∧ ∀ p ∈ f.params, p.ty.Over names
  fields : ∀ s ∈ Document.structs d, ∀ field ∈ s.fields, field.ty.Over names
  nodes : ∀ n, d.HasNode n → ∀ ty ∈ n.types, ty.Over names

theorem each_overWords_of_parse {text : String} {d : Document} (parsed : parse text = .ok d) {decl : Decl}
    (member : decl ∈ d) :
    decl.Each (fun f => f.returns.Over IsWord ∧ ∀ p ∈ f.params, p.ty.Over IsWord)
      (fun s => ∀ field ∈ s.fields, field.ty.Over IsWord) fun _ => True := by
  have signature {f : Signature} (below : .signature f ∈ (Node.decl decl).children) :
      f.returns.Over IsWord ∧ ∀ p ∈ f.params, p.ty.Over IsWord := by
    have has : d.HasNode (.signature f) := .child (.decl member) below
    refine ⟨List.forall_mem_singleton.mp (overWords_of_parse parsed has), fun p param => ?_⟩
    exact List.forall_mem_singleton.mp (overWords_of_parse parsed (.child has (List.mem_map_of_mem param)))
  refine ⟨?_, ?_, fun _ _ => trivial⟩
  · cases decl with
    | function | external => exact List.forall_mem_singleton.mpr (signature List.mem_cons_self)
    | imported => exact (plain_of_parse parsed _ member).elim
    | struct | importOf => rintro f ⟨⟩
  · cases decl with
    | struct s =>
      refine List.forall_mem_singleton.mpr fun field declared => ?_
      exact List.forall_mem_singleton.mp
        (overWords_of_parse parsed (.child (.decl member) (List.mem_map_of_mem declared)))
    | imported => exact (plain_of_parse parsed _ member).elim
    | function | external | importOf => rintro s ⟨⟩

theorem Parsed.overWords {d : Document} (parsed : Parsed d) : d.Over IsWord := by
  have each := parsed.each fun parsed decl member => each_overWords_of_parse parsed member
  refine ⟨each.signatures, each.structs, fun n has => ?_⟩
  cases parsed with
  | text parsed attached =>
    rcases attached.hasNode has with own | ⟨none, _⟩
    · exact overWords_of_parse parsed own
    · simp [none]

end StructLang
