import Mathlib.Data.List.Induction
import StructLang.Source
import StructLang.Token.Lexer

namespace StructLang

namespace Text

theorem startsAfter_append (base : Nat) (front back : List Char) :
    startsAfter base (front ++ back) = startsAfter base front ++ startsAfter (base + front.length) back := by
  induction front generalizing base with
  | nil => rfl
  | cons c rest ih =>
    have next : base + 1 + rest.length = base + (c :: rest).length := by rw [List.length_cons]; omega
    simp only [List.cons_append, startsAfter, ih, next]
    split <;> rfl

theorem mem_startsAfter {base n : Nat} {cs : List Char} (member : n ∈ startsAfter base cs) :
    base < n ∧ n ≤ base + cs.length := by
  induction cs generalizing base with
  | nil => cases member
  | cons c rest ih =>
    rw [List.length_cons]
    simp only [startsAfter] at member
    split at member
    · rcases List.mem_cons.mp member with rfl | later
      · omega
      · have := ih later
        omega
    · have := ih member
      omega

theorem lineStarts_append (front back : List Char) :
    lineStarts (front ++ back) = lineStarts front ++ startsAfter front.length back := by
  rw [lineStarts, startsAfter_append, Nat.zero_add]
  rfl

theorem lineStarts_concat (front : List Char) (c : Char) :
    lineStarts (front ++ [c]) = lineStarts front ++ if c = '\n' then [front.length + 1] else [] := by
  rw [lineStarts_append]
  simp only [startsAfter]

theorem mem_lineStarts {cs : List Char} {n : Nat} (member : n ∈ lineStarts cs) : n ≤ cs.length := by
  rcases List.mem_cons.mp member with rfl | later
  · exact Nat.zero_le _
  · have := mem_startsAfter later
    omega

/-- The lines that start at an offset or before it are those of the text in front of it. -/
theorem filter_lineStarts (cs : List Char) (offset : Nat) :
    (lineStarts cs).filter (· ≤ offset) = lineStarts (cs.take offset) := by
  have front : (lineStarts (cs.take offset)).filter (· ≤ offset) = lineStarts (cs.take offset) := by
    refine List.filter_eq_self.mpr fun n member => ?_
    have bound := mem_lineStarts member
    rw [List.length_take] at bound
    exact decide_eq_true (by omega)
  have back : (startsAfter (cs.take offset).length (cs.drop offset)).filter (· ≤ offset) = [] := by
    refine List.filter_eq_nil_iff.mpr fun n member => ?_
    have bound := mem_startsAfter member
    rw [List.length_take, List.length_drop] at bound
    rw [decide_eq_true_iff]
    omega
  conv => lhs; rw [← List.take_append_drop offset cs]
  rw [lineStarts_append, List.filter_append, front, back, List.append_nil]

def lastStart (cs : List Char) : Nat := (lineStarts cs).getLastD 0

theorem lastStart_mem (cs : List Char) : lastStart cs ∈ lineStarts cs := by
  rw [lastStart, lineStarts, List.getLastD_eq_getLast?, List.getLast?_eq_some_getLast (List.cons_ne_nil _ _)]
  exact List.getLast_mem _

theorem lastStart_le (cs : List Char) : lastStart cs ≤ cs.length := mem_lineStarts (lastStart_mem cs)

theorem lastStart_concat (front : List Char) (c : Char) :
    lastStart (front ++ [c]) = if c = '\n' then front.length + 1 else lastStart front := by
  rw [lastStart, lineStarts_concat]
  split
  · simp
  · rw [List.append_nil, lastStart]

end Text

theorem Place.advance_concat (p : Place) (front : List Char) (c : Char) :
    p.advance (front ++ [c]) = (p.advance front).next c := by
  simp only [advance, List.foldl_append, List.foldl_cons, List.foldl_nil]

/-- Counting character by character gives the number of lines begun and the distance from the start of the last one. -/
theorem Place.location_advance (cs : List Char) :
    (start.advance cs).location = ⟨(Text.lineStarts cs).length, cs.length - Text.lastStart cs + 1⟩ := by
  induction cs using List.reverseRecOn with
  | nil => rfl
  | append_singleton front c ih =>
    have bound := Text.lastStart_le front
    rw [advance_concat, Text.lineStarts_concat, Text.lastStart_concat, List.length_append, List.length_append]
    simp only [next, ih]
    split
    · simp
    · simp only [List.length_nil, List.length_singleton, Nat.add_zero, Location.mk.injEq, true_and]
      omega

def Location.Precedes (a b : Location) : Prop := a.line < b.line ∨ a.line = b.line ∧ a.column < b.column

namespace Source

variable (source : Source)

theorem location_eq (offset : Nat) :
    source.location offset = ⟨(Text.lineStarts (source.text.toList.take offset)).length,
      offset - Text.lastStart (source.text.toList.take offset) + 1⟩ := by
  rw [location, Text.filter_lineStarts]
  rfl

theorem location_append {front back : List Char} (split : source.text.toList = front ++ back) :
    source.location front.length = (Place.start.advance front).location := by
  rw [location_eq, split, List.take_left, Place.location_advance]

theorem location_precedes {i j : Nat} (before : i < j) : (source.location i).Precedes (source.location j) := by
  have longer : source.text.toList.take j = source.text.toList.take i ++ (source.text.toList.take j).drop i := by
    conv => lhs; rw [← List.take_append_drop i (source.text.toList.take j)]
    rw [List.take_take, Nat.min_eq_left (Nat.le_of_lt before)]
  have bound : Text.lastStart (source.text.toList.take i) ≤ i :=
    Nat.le_trans (Text.lastStart_le _) (by rw [List.length_take]; omega)
  have starts := Text.lineStarts_append (source.text.toList.take i) ((source.text.toList.take j).drop i)
  rw [location_eq, location_eq, longer]
  -- either a line starts on the way, or both offsets are counted from the same start
  cases new : Text.startsAfter (source.text.toList.take i).length ((source.text.toList.take j).drop i) with
  | nil =>
    rw [new, List.append_nil] at starts
    refine .inr ⟨congrArg List.length starts.symm, ?_⟩
    have same : Text.lastStart (source.text.toList.take i ++ (source.text.toList.take j).drop i) =
        Text.lastStart (source.text.toList.take i) := congrArg (List.getLastD · 0) starts
    change i - _ + 1 < j - _ + 1
    rw [same]
    omega
  | cons n others =>
    refine .inl ?_
    change (Text.lineStarts _).length < (Text.lineStarts _).length
    rw [starts, new, List.length_append, List.length_cons]
    omega

end Source

def Text.Shown (cs : List Char) (i : Nat) (c : Char) : Prop :=
  cs[i]? = some c ∧ c ≠ '\n' ∧ ¬(c = '\r' ∧ cs[i + 1]? = some '\n')

theorem Text.Shown.tail {first c : Char} {rest : List Char} {i : Nat} (shown : Shown (first :: rest) (i + 1) c) :
    Shown rest i c := shown

namespace Place

/-- Counting up to a character that is shown leads to its row and its place in it. Only in the first row does the
column depend on where the counting starts. -/
theorem lines_advance (cs : List Char) (p : Place) {i : Nat} {c : Char} (shown : Text.Shown cs i c) :
    ∃ row col, (Text.lines cs)[row]?.bind (·[col]?) = some c ∧
      (p.advance (cs.take i)).location = ⟨p.location.line + row, (if row = 0 then p.location.column else 1) + col⟩ := by
  fun_induction Text.lines cs generalizing p i with
  | case1 => cases shown.1
  | case2 rest ih =>
    cases i with
    | zero => exact absurd (Option.some.inj shown.1).symm shown.2.1
    | succ j =>
      obtain ⟨row, col, found, location⟩ := ih (p.next '\n') shown.tail
      refine ⟨row + 1, col, found, ?_⟩
      change ((p.next '\n').advance (rest.take j)).location = _
      rw [location, next, if_pos rfl]
      simp only [ite_self, Nat.add_one_ne_zero, if_false, Location.mk.injEq, and_true]
      omega
  | case3 rest ih =>
    rcases i with _ | _ | j
    · exact absurd ⟨(Option.some.inj shown.1).symm, rfl⟩ shown.2.2
    · exact absurd (Option.some.inj shown.1).symm shown.2.1
    · obtain ⟨row, col, found, location⟩ := ih ((p.next '\r').next '\n') shown.tail.tail
      refine ⟨row + 1, col, found, ?_⟩
      change (((p.next '\r').next '\n').advance (rest.take j)).location = _
      rw [location, next, if_pos rfl, next, if_neg (by decide)]
      simp only [ite_self, Nat.add_one_ne_zero, if_false, Location.mk.injEq, and_true]
      omega
  | case4 c' rest other other' none ih =>
    cases i with
    | zero => exact ⟨0, 0, shown.1, rfl⟩
    | succ j =>
      obtain ⟨row, col, found, -⟩ := ih (p.next c') shown.tail
      rw [none] at found
      cases found
  | case5 c' rest other other' line others some ih =>
    cases i with
    | zero => exact ⟨0, 0, shown.1, rfl⟩
    | succ j =>
      obtain ⟨row, col, found, location⟩ := ih (p.next c') shown.tail
      rw [some] at found
      have step : (p.next c').location = ⟨p.location.line, p.location.column + 1⟩ := if_neg other
      rw [step] at location
      cases row with
      | zero =>
        refine ⟨0, col + 1, found, location.trans ?_⟩
        simp only [if_true, Location.mk.injEq, true_and]
        omega
      | succ row => exact ⟨row + 1, col, found, location⟩

end Place

/-- The character at an offset stands in its line and its column. -/
theorem Source.line_location (source : Source) {i : Nat} {c : Char} (shown : Text.Shown source.text.toList i c) :
    (source.line (source.location i).line)[(source.location i).column - 1]? = some c := by
  obtain ⟨row, col, found, location⟩ := Place.lines_advance _ Place.start shown
  have inside : i < source.text.toList.length := (List.getElem?_eq_some_iff.mp shown.1).1
  have front : (source.text.toList.take i).length = i := by rw [List.length_take]; omega
  have here := source.location_append (List.take_append_drop i source.text.toList).symm
  rw [front, location] at here
  obtain ⟨line, inText, inLine⟩ := Option.bind_eq_some_iff.mp found
  have number : (source.location i).line - 1 = row := by rw [here]; exact Nat.add_sub_cancel_left 1 row
  have column : (source.location i).column - 1 = col := by
    rw [here]
    change (if row = 0 then 1 else 1) + col - 1 = col
    rw [ite_self, Nat.add_sub_cancel_left]
  rw [Source.line, number, column, List.getD_eq_getElem?_getD, inText]
  exact inLine

end StructLang
