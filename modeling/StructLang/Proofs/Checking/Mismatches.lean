import Mathlib
import StructLang.Proofs.Checking.Comparisons
import StructLang.Proofs.Parse.Identifiers

namespace StructLang

open Lexer

theorem isWord_append {s t : String} (first : IsWord s) (second : IsWord t) : IsWord (s ++ t) := by
  intro c member
  rw [String.toList_append, List.mem_append] at member
  exact member.elim (first c) (second c)

theorem isWord_toString (n : Nat) : IsWord (toString n) := by
  intro c member
  rw [Nat.toString_eq_repr, Nat.toList_repr] at member
  have digit := Nat.isDigit_of_mem_toDigits (by decide) (by decide) member
  simp [isIdentRest, Char.isAlphanum, digit]

theorem not_isWord_star (s : String) : ¬IsWord (s ++ "*") := by
  intro word
  have star : isIdentRest '*' = true := word '*' (by simp)
  exact absurd star (by decide)

namespace Ty

/-- A built-in type and a struct that is called like it, or pointers to such types. -/
inductive Clash : Ty → Ty → Prop
  | left {p} (member : p ∈ builtin) : Clash p (.struct p.render)
  | right {p} (member : p ∈ builtin) : Clash (.struct p.render) p
  | ptr {t u} (targets : Clash t u) : Clash (.ptr t) (.ptr u)

variable {t u : Ty}

theorem Clash.render_eq (clash : Clash t u) : t.render = u.render := by
  induction clash with
  | left | right => rfl
  | ptr _ ih => rw [render, render, ih]

/-- Whatever is no pointer is displayed as a word. -/
theorem Over.isWord (made : t.Over IsWord) (plain : t.isPtr = false) : IsWord t.render := by
  cases t with
  | ptr => cases plain
  | int width => exact isWord_append (by simp [IsWord, isIdentRest]) (isWord_toString width)
  | float width => exact isWord_append (by simp [IsWord, isIdentRest]) (isWord_toString width)
  | struct => exact made
  | void => simp [render, IsWord, isIdentRest]

theorem Over.mem_builtin {names : String → Prop} (made : t.Over names) (plain : t.isPtr = false)
    (unnamed : t.structName? = none) : t ∈ builtin := by
  cases t with
  | ptr => cases plain
  | int | float => exact made
  | struct => cases unnamed
  | void => exact List.mem_cons_self

/-- The displays of built-in types differ. -/
theorem render_builtin_inj : ∀ p ∈ builtin, ∀ q ∈ builtin, p.render = q.render → p = q := by
  decide +kernel

theorem eq_or_clash_of_plain (left : t.Over IsWord) (right : u.Over IsWord) (plain : t.isPtr = false)
    (plain' : u.isPtr = false) (same : t.render = u.render) : t = u ∨ t.Clash u := by
  cases name : t.structName? with
  | none =>
    have member := left.mem_builtin plain name
    cases u with
    | struct name' =>
      obtain rfl : t.render = name' := same
      exact .inr (.left member)
    | _ => exact .inl (render_builtin_inj t member _ (right.mem_builtin plain' rfl) same)
  | some =>
    cases t <;> cases name
    cases name' : u.structName? with
    | none =>
      obtain rfl := same
      exact .inr (.right (right.mem_builtin plain' name'))
    | some =>
      cases u <;> cases name'
      exact .inl (congrArg Ty.struct same)

/-- Types that are displayed the same are equal up to a clash of names. The induction strips off one star of both. -/
theorem eq_or_clash (left : t.Over IsWord) (right : u.Over IsWord) (same : t.render = u.render) : t = u ∨ t.Clash u := by
  induction t generalizing u with
  | ptr target ih =>
    cases u with
    | ptr target' =>
      have targets : target.render = target'.render := by simpa [render, ← String.toList_inj] using same
      exact (ih left (u := target') right targets).imp (congrArg Ty.ptr) .ptr
    | _ => exact absurd (same ▸ right.isWord rfl) (not_isWord_star _)
  | _ =>
    cases u with
    | ptr => exact absurd (same ▸ left.isWord rfl) (not_isWord_star _)
    | _ => exact eq_or_clash_of_plain left right rfl rfl same

theorem Over.unspaced (made : t.Over IsWord) : ' ' ∉ t.render.toList := by
  induction t with
  | ptr target ih => simpa [render] using ih made
  | _ =>
    intro member
    exact absurd (made.isWord rfl ' ' member) (by decide)

end Ty

theorem takeWhile_unspaced {front : List Char} (unspaced : ' ' ∉ front) (rest : List Char) :
    (front ++ ' ' :: rest).takeWhile (· != ' ') = front := by
  have all : ∀ c ∈ front, (c != ' ') = true := fun c member => bne_iff_ne.mpr fun blank => unspaced (blank ▸ member)
  rw [List.takeWhile_append_of_pos all, List.takeWhile_cons_of_neg (by simp), List.append_nil]

namespace TypeFault

/-- If there are no blanks in the two displays, they can be read off the message. -/
theorem message_split {A B A' B' : String} (first : ' ' ∉ A.toList) (second : ' ' ∉ B.toList)
    (same : "unmatched types, expected " ++ A ++ " and got " ++ B =
      "unmatched types, expected " ++ A' ++ " and got " ++ B') : A' = A ∧ B' = B := by
  have lists := congrArg String.toList same
  simp only [String.toList_append, List.append_assoc, List.append_cancel_left_eq] at lists
  have blanks := congrArg (List.count ' ') lists
  simp only [List.count_append, List.count_eq_zero.mpr first, List.count_eq_zero.mpr second] at blanks
  have first' : ' ' ∉ A'.toList := List.count_eq_zero.mp (by omega)
  have front : A.toList = A'.toList := by
    rw [← takeWhile_unspaced first ("and got ".toList ++ B.toList),
      ← takeWhile_unspaced first' ("and got ".toList ++ B'.toList)]
    exact congrArg _ lists
  rw [front, List.append_cancel_left_eq, List.append_cancel_left_eq] at lists
  exact ⟨(String.toList_inj.mp front).symm, (String.toList_inj.mp lists).symm⟩

/-- No other message starts like one about a mismatch. -/
theorem message_ne {fault : TypeFault} (other : ∀ expected got, fault ≠ .mismatch expected got) (A B : String) :
    fault.message ≠ "unmatched types, expected " ++ A ++ " and got " ++ B := by
  intro same
  have start : fault.message.toList.take 3 = ['u', 'n', 'm'] := by
    rw [same]
    simp
  unfold message at start
  split at start
  · exact other _ _ rfl
  all_goals simp at start

end TypeFault

namespace Document

variable {d : Document} {ty : Ty} {names : String → Prop}

/-- Whatever names the document gives to structs, its types are made of. -/
theorem Arises.made (given : d.Over names) (arises : d.Arises ty) : ty.Over names := by
  induction arises with
  | returns declared => exact (given.signatures _ declared).1
  | param declared member => exact (given.signatures _ declared).2 _ member
  | field declared member => exact given.fields _ declared _ member
  | letIn has => exact given.nodes _ has _ List.mem_cons_self
  | literal _ has => exact given.nodes _ has _ List.mem_cons_self
  | int | float | string | truth => simp [Ty.Over, Ty.builtin]
  | ptr _ ih => exact ih
  | target _ ih => exact ih

def NamesApart (d : Document) : Prop := ∀ name, d.Arises (.struct name) → ∀ p ∈ Ty.builtin, name ≠ p.render

theorem NamesApart.not_clash (apart : d.NamesApart) {t u : Ty} (left : d.Arises t) (right : d.Arises u) : ¬t.Clash u := by
  intro clash
  induction clash with
  | left member => exact apart _ right _ member rfl
  | right member => exact apart _ left _ member rfl
  | ptr _ ih => exact ih left.target right.target

/-- A report in the words of a mismatch is about one. -/
theorem Tells.mismatch_of_message {r : Diagnostic} (tells : d.Tells r) {A B : String}
    (worded : r.message = "unmatched types, expected " ++ A ++ " and got " ++ B) :
    ∃ expected got, d.Arises expected ∧ d.Arises got ∧ expected ≠ got ∧
      r.message = "unmatched types, expected " ++ expected.render ++ " and got " ++ got.render := by
  cases tells with
  | mismatch left right different => exact ⟨_, _, left, right, different, rfl⟩
  | fault other => exact absurd worded (TypeFault.message_ne other A B)
  | hint =>
    have start := congrArg (fun message => message.toList.take 3) worded
    simp [arrowHint, Diagnostic.note] at start

end Document

/-- A parsed document, with or without its imports, under any options. A report that gives two types as unmatched displays
types that come up in the document and differ. The displays differ as well, unless one of the types is a built-in one and the
other a struct that is called like it, which cannot be if the document keeps such names apart. -/
theorem mismatches_name_two_types {d : Document} (parsed : Parsed d) (o : Strictness) {report : Diagnostic}
    (reported : report ∈ (d.check o).diagnostics.messages) {A B : String}
    (worded : report.message = "unmatched types, expected " ++ A ++ " and got " ++ B) :
    ∃ expected got, d.Arises expected ∧ d.Arises got ∧ expected ≠ got ∧ A = expected.render ∧ B = got.render ∧
      (A = B ↔ expected.Clash got) ∧ (d.NamesApart → A ≠ B) := by
  obtain ⟨expected, got, left, right, different, message⟩ := (d.tells_check o report reported).mismatch_of_message worded
  have leftMade := left.made parsed.overWords
  have rightMade := right.made parsed.overWords
  obtain ⟨rfl, rfl⟩ := TypeFault.message_split leftMade.unspaced rightMade.unspaced (message.symm.trans worded)
  have clash : expected.render = got.render ↔ expected.Clash got :=
    ⟨fun same => (Ty.eq_or_clash leftMade rightMade same).resolve_left different, Ty.Clash.render_eq⟩
  exact ⟨expected, got, left, right, different, rfl, rfl, clash, fun apart same =>
    apart.not_clash left right (clash.mp same)⟩

namespace Comparing

def text : String := "struct P \x7b \x7d function f() \x7b let q: P** = &(P \x7b \x7d < P \x7b \x7d); \x7d"

def literal (start stop : Nat) : Expr := .struct ⟨start, stop⟩ "P" []

def comparison : Expr := .binary ⟨42, 57⟩ .lt (literal 43 48) (literal 51 56)

def value : Expr := .unary ⟨41, 57⟩ .ref comparison

def stmt : Stmt := .letIn ⟨28, 57⟩ "q" (.ptr (.ptr (.struct "P"))) (some value)

def body : Block := ⟨[stmt], ⟨26, 60⟩⟩

def signature : Signature := ⟨"f", ⟨22, 23⟩, .void, [], ⟨22, 25⟩⟩

def struct : Decl := .struct ⟨"P", [], ⟨0, 12⟩⟩

def function : Decl := .function ⟨signature, body, ⟨13, 60⟩⟩

def document : Document := [struct, function]

def nodes : List Node :=
  [.decl struct, .decl function, .signature signature, .block body, .stmt stmt, .expr value, .expr comparison,
    .expr (literal 43 48), .expr (literal 51 56)]

theorem mem_nodes {n : Node} (has : document.HasNode n) : n ∈ nodes := by
  have closed : ∀ n ∈ nodes, ∀ m ∈ n.children, m ∈ nodes := by
    simp [nodes, Node.children, struct, function, signature, body, stmt, value, comparison, literal, Expr.children]
  induction has with
  | decl declared =>
    rcases List.mem_cons.mp declared with rfl | later
    · simp [nodes]
    · cases List.mem_singleton.mp later
      simp [nodes]
  | child _ below ih => exact closed _ ih _ below

theorem namesApart : document.NamesApart := by
  have given : document.Over (· = "P") := by
    have each : ∀ n ∈ nodes, ∀ ty ∈ n.types, ty.Over (· = "P") := by
      simp [nodes, Node.types, struct, function, signature, body, stmt, value, comparison, literal, Ty.Over]
    refine ⟨?_, ?_, fun n has => each n (mem_nodes has)⟩
    · simp [document, Document.signatures, Decl.signatures, struct, function, signature, Ty.Over]
    · simp [document, Document.structs, Decl.structs, struct, function]
  intro name arises p member
  obtain rfl : name = "P" := arises.made given
  revert p
  decide +kernel

end Comparing

open Comparing in
theorem mismatches_name_two_types_comparing :
    parse text = .ok document ∧ document.NamesApart ∧
    ∃ report ∈ (document.check .strict).diagnostics.messages,
      report.message = "unmatched types, expected " ++ "P**" ++ " and got " ++ "i1*" ∧
      ∃ expected got, document.Arises expected ∧ document.Arises got ∧ expected ≠ got ∧ "P**" = expected.render ∧
        "i1*" = got.render ∧ ("P**" = "i1*" ↔ expected.Clash got) ∧ "P**" ≠ "i1*" := by
  have parsed : parse text = .ok document := by cbv
  have reports : (document.check .strict).diagnostics.messages =
      [(TypeFault.mismatch (.ptr (.ptr (.struct "P"))) (.ptr .bool)).at ⟨41, 57⟩] := by decide +kernel
  have reported := List.mem_singleton_self ((TypeFault.mismatch (.ptr (.ptr (.struct "P"))) (.ptr .bool)).at ⟨41, 57⟩)
  rw [← reports] at reported
  have message : ((TypeFault.mismatch (.ptr (.ptr (.struct "P"))) (.ptr .bool)).at ⟨41, 57⟩).message =
      "unmatched types, expected " ++ "P**" ++ " and got " ++ "i1*" := by decide +kernel
  obtain ⟨expected, got, left, right, different, first, second, clash, apart⟩ :=
    mismatches_name_two_types (.text parsed (.refl document)) .strict reported message
  exact ⟨parsed, namesApart, _, reported, message, expected, got, left, right, different, first, second, clash,
    apart namesApart⟩

/-- A truth value, where a struct is declared that is called `i1`. -/
theorem mismatches_name_one_type :
    ∃ d, parse "function f() \x7b let b: i1 = 1 < 2; \x7d" = .ok d ∧
      ∃ report ∈ (d.check .strict).diagnostics.messages,
        report.message = "unmatched types, expected " ++ "i1" ++ " and got " ++ "i1" := by
  let value : Expr := .binary ⟨27, 32⟩ .lt (.int ⟨27, 28⟩ 1) (.int ⟨31, 32⟩ 2)
  let d : Document := [.function ⟨⟨"f", ⟨9, 10⟩, .void, [], ⟨9, 12⟩⟩,
    ⟨[.letIn ⟨15, 32⟩ "b" (.struct "i1") (some value)], ⟨13, 35⟩⟩, ⟨0, 35⟩⟩]
  have parsed : parse "function f() \x7b let b: i1 = 1 < 2; \x7d" = .ok d := by cbv
  refine ⟨d, parsed, (TypeFault.mismatch (.struct "i1") .bool).at ⟨27, 32⟩, ?_, ?_⟩
  · decide +kernel
  · decide +kernel

end StructLang
