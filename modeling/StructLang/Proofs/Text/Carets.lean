import Mathlib
import StructLang.Diagnostic
import StructLang.Proofs.Text.Locations

namespace StructLang

namespace Text

theorem lines_cons {c : Char} {rest line : List Char} {others : List (List Char)} (feed : c ≠ '\n')
    (notEnd : ∀ after, c = '\r' → rest = '\n' :: after → False) (tail : lines rest = line :: others) :
    lines (c :: rest) = (c :: line) :: others := by
  rw [lines, tail]
  · exact feed
  · exact notEnd

/-- The lines of a text up to a line feed do not depend on what follows it, and are as many as the line feeds. -/
def EndsBy (front : List Char) : Prop :=
  ∃ before, before.length = front.count '\n' + 1 ∧ ∀ back, lines (front ++ '\n' :: back) = before ++ lines back

theorem EndsBy.cons {c : Char} {rest : List Char} (feed : c ≠ '\n')
    (notEnd : ∀ after, c = '\r' → rest = '\n' :: after → False) (tail : EndsBy rest) : EndsBy (c :: rest) := by
  obtain ⟨before, counted, split⟩ := tail
  rw [← List.count_cons_of_ne feed] at counted
  rcases before with _ | ⟨line, others⟩
  · cases counted
  -- a carriage return at the end of the front goes with the line feed
  · by_cases carriage : c = '\r' ∧ rest = []
    · obtain ⟨rfl, rfl⟩ := carriage
      exact ⟨[[]], rfl, fun back => by rw [List.cons_append, List.nil_append, lines, List.singleton_append]⟩
    · refine ⟨(c :: line) :: others, counted, fun back => lines_cons feed ?_ (split back)⟩
      intro after same next
      cases rest with
      | nil => exact carriage ⟨same, rfl⟩
      | cons d rest =>
        cases next
        exact notEnd rest same rfl

theorem endsBy (front : List Char) : EndsBy front := by
  fun_induction lines front with
  | case1 => exact ⟨[[]], rfl, fun back => rfl⟩
  | case2 rest ih =>
    obtain ⟨before, counted, split⟩ := ih
    refine ⟨[] :: before, by rw [List.length_cons, counted, List.count_cons_self], fun back => ?_⟩
    rw [List.cons_append, lines, split, List.cons_append]
  | case3 rest ih =>
    obtain ⟨before, counted, split⟩ := ih
    refine ⟨[] :: before, ?_, fun back => ?_⟩
    · rw [List.length_cons, counted, List.count_cons_of_ne (by decide), List.count_cons_self]
    · rw [List.cons_append, List.cons_append, lines, split, List.cons_append]
  | case4 | case5 =>
    rename_i ih
    exact ih.cons ‹_› ‹_›

def firstLine (cs : List Char) : List Char := (lines cs).headD []

theorem firstLine_spec (cs : List Char) : firstLine cs <+: cs ∧ '\n' ∉ firstLine cs := by
  unfold firstLine
  fun_induction lines cs with
  | case1 => exact ⟨List.prefix_refl _, List.not_mem_nil⟩
  | case2 | case3 => exact ⟨List.nil_prefix, List.not_mem_nil⟩
  | case4 c rest feed =>
    exact ⟨List.cons_prefix_cons.mpr ⟨rfl, List.nil_prefix⟩, by simpa using Ne.symm feed⟩
  | case5 c rest feed _ line others some ih =>
    rw [some] at ih
    exact ⟨List.cons_prefix_cons.mpr ⟨rfl, ih.1⟩, List.not_mem_cons_of_ne_of_not_mem (Ne.symm feed) ih.2⟩

/-- Text without a line feed starts no line. -/
theorem startsAfter_noFeed {cs : List Char} (base : Nat) (none : '\n' ∉ cs) : startsAfter base cs = [] := by
  induction cs generalizing base with
  | nil => rfl
  | cons c rest ih =>
    rw [List.mem_cons, not_or] at none
    rw [startsAfter, if_neg (Ne.symm none.1), ih _ none.2]

theorem length_startsAfter (base : Nat) (cs : List Char) : (startsAfter base cs).length = cs.count '\n' := by
  induction cs generalizing base with
  | nil => rfl
  | cons c rest ih =>
    rw [startsAfter]
    split
    · rename_i feed
      rw [feed, List.length_cons, ih, List.count_cons_self]
    · rename_i other
      rw [ih, List.count_cons_of_ne other]

end Text

structure Source.LineAt (source : Source) (number start : Nat) : Prop where
  begins : start = 0 ∨ 0 < start ∧ source.text.toList[start - 1]? = some '\n'
  counted : number = (source.text.toList.take start).count '\n' + 1

namespace Source.LineAt

variable {source : Source} {number start : Nat}

theorem take_start (line : source.LineAt number start) :
    start = 0 ∨ source.text.toList.take start = source.text.toList.take (start - 1) ++ ['\n'] := by
  rcases line.begins with first | ⟨positive, feed⟩
  · exact .inl first
  · have next : start = start - 1 + 1 := by omega
    right
    conv => lhs; rw [next]
    rw [List.take_add_one, feed]
    rfl

theorem lastStart_eq (line : source.LineAt number start) : Text.lastStart (source.text.toList.take start) = start := by
  rcases line.begins with rfl | ⟨positive, feed⟩
  · rfl
  · rcases line.take_start with rfl | front
    · cases positive
    · have inside := (List.getElem?_eq_some_iff.mp feed).1
      rw [front, Text.lastStart_concat, if_pos rfl, List.length_take]
      omega

/-- The text of a line is what stands at its start, up to its end. -/
theorem line_eq (line : source.LineAt number start) :
    source.line number = Text.firstLine (source.text.toList.drop start) := by
  rw [Source.line, line.counted, Nat.add_sub_cancel, List.getD_eq_getElem?_getD]
  rcases line.take_start with rfl | front
  · rw [List.take_zero, List.count_nil, List.drop_zero, Text.firstLine, List.headD_eq_head?_getD, List.head?_eq_getElem?]
  · obtain ⟨before, counted, split⟩ := Text.endsBy (source.text.toList.take (start - 1))
    have whole : source.text.toList =
        source.text.toList.take (start - 1) ++ '\n' :: source.text.toList.drop start := by
      conv => lhs; rw [← List.take_append_drop start source.text.toList, front]
      rw [List.append_assoc, List.singleton_append]
    rw [front, List.count_append, List.count_singleton_self, ← counted]
    conv => lhs; rw [whole, split]
    rw [List.getElem?_append_right (Nat.le_refl _), Nat.sub_self, Text.firstLine, List.headD_eq_head?_getD,
      List.head?_eq_getElem?]

/-- An offset on a line is located by the number of the line and its distance from the start. -/
theorem location_eq (line : source.LineAt number start) {offset : Nat} (from' : start ≤ offset)
    (upTo : offset ≤ start + (source.line number).length) :
    source.location offset = ⟨number, offset - start + 1⟩ := by
  obtain ⟨⟨back, split⟩, noFeed⟩ := Text.firstLine_spec (source.text.toList.drop start)
  rw [line.line_eq] at upTo
  have front : source.text.toList.take offset = source.text.toList.take start ++
      (Text.firstLine (source.text.toList.drop start)).take (offset - start) := by
    have next : offset = start + (offset - start) := by omega
    conv => lhs; rw [next, List.take_add, ← split, List.take_append_of_le_length (by omega)]
  have inLine : '\n' ∉ (Text.firstLine (source.text.toList.drop start)).take (offset - start) :=
    fun member => noFeed (List.mem_of_mem_take member)
  have starts : Text.lineStarts (source.text.toList.take offset) = Text.lineStarts (source.text.toList.take start) := by
    rw [front, Text.lineStarts_append, Text.startsAfter_noFeed _ inLine, List.append_nil]
  have last : Text.lastStart (source.text.toList.take offset) = start := by
    rw [Text.lastStart, starts]
    exact line.lastStart_eq
  rw [source.location_eq, last, starts, line.counted, Text.lineStarts, List.length_cons, Text.length_startsAfter]

theorem getElem?_line (line : source.LineAt number start) {k : Nat} (inside : k < (source.line number).length) :
    (source.line number)[k]? = source.text.toList[start + k]? := by
  obtain ⟨back, split⟩ := (Text.firstLine_spec (source.text.toList.drop start)).1
  rw [line.line_eq] at inside ⊢
  rw [← List.getElem?_drop]
  conv => rhs; rw [← split, List.getElem?_append_left inside]

theorem line_le (line : source.LineAt number start) :
    (source.line number).length ≤ source.text.toList.length - start := by
  have front := (Text.firstLine_spec (source.text.toList.drop start)).1.length_le
  rw [List.length_drop] at front
  rw [line.line_eq]
  exact front

end Source.LineAt

section Slice

variable (source : Source) (span : Span)

theorem Source.toList_slice : (source.slice span).toList = (source.text.toList.drop span.start).take span.size := by
  rw [slice, String.toList_ofList]

theorem Source.getElem?_slice {k : Nat} (inside : k < span.size) :
    (source.slice span).toList[k]? = source.text.toList[span.start + k]? := by
  rw [toList_slice, List.getElem?_take_of_lt inside, List.getElem?_drop]

theorem Source.length_slice (inside : span.stop ≤ source.text.toList.length) : (source.slice span).length = span.size := by
  have size : span.size = span.stop - span.start := rfl
  rw [← String.length_toList, toList_slice, List.length_take, List.length_drop]
  omega

end Slice

/-- What is left of a line without its indentation stands as far to the left as the indentation is long. -/
theorem Text.getElem?_trimStart (cs : List Char) (k : Nat) :
    (trimStart cs)[k]? = cs[(cs.takeWhile isBlank).length + k]? := by
  have split : cs.takeWhile isBlank ++ trimStart cs = cs := List.takeWhile_append_dropWhile
  calc (trimStart cs)[k]?
      = (cs.takeWhile isBlank ++ trimStart cs)[(cs.takeWhile isBlank).length + k]? := by
        rw [List.getElem?_append_right (Nat.le_add_right _ _), Nat.add_sub_cancel_left]
    _ = cs[(cs.takeWhile isBlank).length + k]? := by rw [split]

theorem Text.length_indent (cs : List Char) : cs.length - (trimStart cs).length = (cs.takeWhile isBlank).length := by
  have split : cs.takeWhile isBlank ++ trimStart cs = cs := List.takeWhile_append_dropWhile
  have total := congrArg List.length split
  rw [List.length_append] at total
  omega

/-- A span on a line, behind its indentation, is shown by carets under its characters. -/
theorem carets_stand_under_span (source : Source) (d : Diagnostic) {number start : Nat}
    (line : source.LineAt number start) (nonempty : d.span.start < d.span.stop)
    (inside : start ≤ d.span.start ∧ d.span.stop ≤ start + (source.line number).length)
    (behind : start + ((source.line number).takeWhile Text.isBlank).length ≤ d.span.start) :
    ∃ column, d.render source false =
        d.severity.label ++ ": " ++ source.name ++ ":" ++ toString number ++ ":" ++ toString (d.span.start - start + 1) ++
          "\n" ++ String.ofList (Text.trimStart (source.line number)) ++
          "\n" ++ String.ofList (List.replicate column ' ' ++ List.replicate d.span.size '^') ++
          "  " ++ d.message ++ "\n" ∧
      (source.slice d.span).length = d.span.size ∧
      ∀ k < d.span.size, ∃ c, (source.slice d.span).toList[k]? = some c ∧
        (Text.trimStart (source.line number))[column + k]? = some c := by
  have size : d.span.size = d.span.stop - d.span.start := rfl
  have bound := line.line_le
  refine ⟨d.span.start - start - ((source.line number).takeWhile Text.isBlank).length, ?_, ?_, ?_⟩
  · have place := line.location_eq inside.1 (by omega)
    have width : Nat.max d.span.size 1 = d.span.size := Nat.max_eq_left (by omega)
    have column : d.span.start - start + 1 - ((source.line number).takeWhile Text.isBlank).length - 1 =
        d.span.start - start - ((source.line number).takeWhile Text.isBlank).length := by omega
    simp only [Diagnostic.render, place, Text.length_indent, Diagnostic.underline, Diagnostic.marker, width, column,
      Diagnostic.label, Bool.false_eq_true, if_false, String.append_assoc]
  · exact source.length_slice d.span (by omega)
  · intro k under
    have inText : d.span.start + k < source.text.toList.length := by omega
    refine ⟨source.text.toList[d.span.start + k], ?_, ?_⟩
    · rw [source.getElem?_slice d.span under, List.getElem?_eq_getElem inText]
    · have offset : start + (((source.line number).takeWhile Text.isBlank).length +
          (d.span.start - start - ((source.line number).takeWhile Text.isBlank).length + k)) = d.span.start + k := by omega
      rw [Text.getElem?_trimStart, line.getElem?_line (by omega), offset, List.getElem?_eq_getElem inText]

/-- A line behind a carriage return and a line feed, indented by a tab and a wide blank, with a letter and a tab in front of
what is marked. -/
def indented : Source := ⟨"main.ll", "a\r\n\t\u3000é\t= x;\r\n"⟩

def marked : Diagnostic := .error ⟨7, 10⟩ "no"

theorem carets_stand_under_span_indented :
    indented.LineAt 2 3 ∧ (indented.slice marked.span).toList = ['=', ' ', 'x'] ∧
    marked.render indented false = "error: main.ll:2:5\né\t= x;\n  ^^^  no\n" ∧
    ∃ column, marked.render indented false =
        marked.severity.label ++ ": " ++ indented.name ++ ":" ++ toString 2 ++ ":" ++ toString (marked.span.start - 3 + 1) ++
          "\n" ++ String.ofList (Text.trimStart (indented.line 2)) ++
          "\n" ++ String.ofList (List.replicate column ' ' ++ List.replicate marked.span.size '^') ++
          "  " ++ marked.message ++ "\n" ∧
      (indented.slice marked.span).length = marked.span.size ∧
      ∀ k < marked.span.size, ∃ c, (indented.slice marked.span).toList[k]? = some c ∧
        (Text.trimStart (indented.line 2))[column + k]? = some c := by
  have line : indented.LineAt 2 3 := ⟨by decide, by decide⟩
  exact ⟨line, by decide, by cbv, carets_stand_under_span indented marked line (by decide) (by decide) (by decide)⟩

end StructLang
