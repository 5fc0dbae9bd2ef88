import Mathlib
import StructLang.Ir.Text

namespace StructLang

/-- The bytes of an array from a place on, behind those that have been collected. -/
theorem loop_toList (bytes : ByteArray) (i : Nat) (collected : List UInt8) :
    ByteArray.toList.loop bytes i collected = collected.reverse ++ bytes.data.toList.drop i := by
  fun_induction ByteArray.toList.loop bytes i collected with
  | case1 i collected inside ih =>
    have here : bytes.data.toList.drop i = bytes.get! i :: bytes.data.toList.drop (i + 1) := by
      rw [List.drop_eq_getElem_cons (by simpa using inside)]
      congr 1
      simp only [ByteArray.get!, Array.getElem_toList]
      exact (getElem!_pos bytes.data i inside).symm
    rw [ih, here, List.reverse_cons, List.append_assoc, List.singleton_append]
  | case2 i collected outside =>
    rw [List.drop_of_length_le (by simpa using Nat.le_of_not_lt outside), List.append_nil]

theorem toUTF8_inj {text other : String} (same : text.toUTF8.toList = other.toUTF8.toList) : text = other := by
  rw [ByteArray.toList, ByteArray.toList, loop_toList, loop_toList] at same
  exact String.toByteArray_inj.mp (ByteArray.ext (Array.toList_inj.mp same))

namespace Ir

def IsHexDigit (c : Char) : Prop := ('0' ≤ c ∧ c ≤ '9') ∨ ('A' ≤ c ∧ c ≤ 'F')

instance (c : Char) : Decidable (IsHexDigit c) := inferInstanceAs (Decidable (_ ∨ _))

def hexValue? (c : Char) : Option Nat :=
  if '0' ≤ c ∧ c ≤ '9' then some (c.toNat - 48) else if 'A' ≤ c ∧ c ≤ 'F' then some (c.toNat - 55) else none

def StandsForItself (c : Char) : Prop := ' ' ≤ c ∧ c ≤ '~' ∧ c ≠ '"' ∧ c ≠ '\\'

instance (c : Char) : Decidable (StandsForItself c) := inferInstanceAs (Decidable (_ ∧ _))

/-- Reads the inside of a constant: a backslash and two digits are the byte of that number, and a character that stands
for itself is its own byte. Nothing else is read. -/
def unescape? : List Char → Option (List UInt8)
  | [] => some []
  | '\\' :: high :: low :: rest =>
    (hexValue? high).bind fun h => (hexValue? low).bind fun l =>
      (unescape? rest).map (UInt8.ofNat (16 * h + l) :: ·)
  | c :: rest => if StandsForItself c then (unescape? rest).map (UInt8.ofNat c.toNat :: ·) else none

theorem unescape?_cons {c : Char} (plain : StandsForItself c) (rest : List Char) :
    unescape? (c :: rest) = (unescape? rest).map (UInt8.ofNat c.toNat :: ·) := by
  rw [unescape?]
  · exact if_pos plain
  · rintro high low more rfl -
    exact plain.2.2.2 rfl

theorem unescape?_group {high low : Char} {h l : Nat} (first : hexValue? high = some h) (second : hexValue? low = some l)
    (rest : List Char) :
    unescape? ('\\' :: high :: low :: rest) = (unescape? rest).map (UInt8.ofNat (16 * h + l) :: ·) := by
  rw [unescape?, first, second]
  rfl

theorem hexValue?_hexDigit : ∀ n < 16, hexValue? (hexDigit n) = some n := by decide

theorem isHexDigit_hexDigit : ∀ n < 16, IsHexDigit (hexDigit n) := by decide

theorem standsForItself_ofNat : ∀ n < 127, 32 ≤ n → n ≠ 34 → n ≠ 92 →
    StandsForItself (Char.ofNat n) ∧ (Char.ofNat n).toNat = n := by decide

/-- A byte is printed as a character that stands for itself or as a group. -/
theorem escapeByte_cases (byte : UInt8) :
    (∃ c, StandsForItself c ∧ UInt8.ofNat c.toNat = byte ∧ escapeByte byte = [c]) ∨
      ∃ h l, h < 16 ∧ l < 16 ∧ 16 * h + l = byte.toNat ∧ escapeByte byte = ['\\', hexDigit h, hexDigit l] := by
  unfold escapeByte
  split
  · rename_i printable
    obtain ⟨low, high, quote, backslash⟩ := printable
    rw [UInt8.le_iff_toNat_le] at low high
    rw [Ne, ← UInt8.toNat_inj] at quote backslash
    obtain ⟨plain, number⟩ := standsForItself_ofNat byte.toNat (Nat.lt_succ_of_le high) low quote backslash
    exact .inl ⟨_, plain, by rw [number, UInt8.ofNat_toNat], rfl⟩
  · have bound := byte.toNat_lt
    exact .inr ⟨byte.toNat / 16, byte.toNat % 16, by omega, by omega, by omega, rfl⟩

theorem unescape?_escapeByte (byte : UInt8) (rest : List Char) :
    unescape? (escapeByte byte ++ rest) = (unescape? rest).map (byte :: ·) := by
  rcases escapeByte_cases byte with ⟨c, plain, same, printed⟩ | ⟨h, l, high, low, same, printed⟩
  · rw [printed, List.singleton_append, unescape?_cons plain, same]
  · rw [printed]
    change unescape? ('\\' :: hexDigit h :: hexDigit l :: rest) = _
    rw [unescape?_group (hexValue?_hexDigit h high) (hexValue?_hexDigit l low), same, UInt8.ofNat_toNat]

/-- The reader stays in step with the printer. -/
theorem unescape?_flatMap (bytes : List UInt8) (rest : List Char) :
    unescape? (bytes.flatMap escapeByte ++ rest) = (unescape? rest).map (bytes ++ ·) := by
  induction bytes with
  | nil => simp
  | cons byte others ih =>
    rw [List.flatMap_cons, List.append_assoc, unescape?_escapeByte, ih, Option.map_map]
    rfl

theorem unescape?_escape (text : String) : unescape? (escape text) = some text.toUTF8.toList := by
  have read := unescape?_flatMap text.toUTF8.toList []
  rwa [List.append_nil, unescape?, Option.map_some, List.append_nil] at read

theorem escape_inj {text other : String} (same : escape text = escape other) : text = other := by
  have read := unescape?_escape text
  rw [same, unescape?_escape] at read
  exact toUTF8_inj (Option.some.inj read).symm

def Printable (c : Char) : Prop := ' ' ≤ c ∧ c ≤ '~' ∧ c ≠ '"'

theorem printable_hexDigit : ∀ n < 16, Printable (hexDigit n) ∧ hexDigit n ≠ '\\' := by
  unfold Printable
  decide

theorem printable_escapeByte {byte : UInt8} {c : Char} (member : c ∈ escapeByte byte) : Printable c := by
  rcases escapeByte_cases byte with ⟨c', plain, -, printed⟩ | ⟨h, l, high, low, -, printed⟩
  · rw [printed, List.mem_singleton] at member
    rw [member]
    exact ⟨plain.1, plain.2.1, plain.2.2.1⟩
  · rw [printed] at member
    rcases List.mem_cons.mp member with rfl | member
    · unfold Printable
      decide
    rcases List.mem_cons.mp member with rfl | member
    · exact (printable_hexDigit h high).1
    · rw [List.mem_singleton.mp member]
      exact (printable_hexDigit l low).1

theorem printable_escape {text : String} {c : Char} (member : c ∈ escape text) : Printable c := by
  obtain ⟨byte, -, inside⟩ := List.mem_flatMap.mp member
  exact printable_escapeByte inside

def InGroups (cs : List Char) : Prop :=
  ∀ front back, cs = front ++ '\\' :: back → ∃ high low rest, back = high :: low :: rest ∧ IsHexDigit high ∧ IsHexDigit low

theorem inGroups_cons {c : Char} {cs : List Char} (other : c ≠ '\\') (groups : InGroups cs) : InGroups (c :: cs) := by
  intro front back split
  cases front with
  | nil => exact absurd (List.cons.inj split).1 other
  | cons _ front => exact groups front back (List.cons.inj split).2

theorem inGroups_group {h l : Nat} (high : h < 16) (low : l < 16) {cs : List Char} (groups : InGroups cs) :
    InGroups ('\\' :: hexDigit h :: hexDigit l :: cs) := by
  intro front back split
  cases front with
  | nil =>
    obtain ⟨-, rfl⟩ := List.cons.inj split
    exact ⟨_, _, _, rfl, isHexDigit_hexDigit h high, isHexDigit_hexDigit l low⟩
  | cons _ front =>
    have inner := inGroups_cons (printable_hexDigit h high).2 (inGroups_cons (printable_hexDigit l low).2 groups)
    exact inner front back (List.cons.inj split).2

theorem inGroups_flatMap (bytes : List UInt8) : InGroups (bytes.flatMap escapeByte) := by
  induction bytes with
  | nil =>
    intro front back split
    cases front <;> cases split
  | cons byte others ih =>
    rw [List.flatMap_cons]
    rcases escapeByte_cases byte with ⟨c, plain, -, printed⟩ | ⟨h, l, high, low, -, printed⟩
    · rw [printed]
      exact inGroups_cons plain.2.2.2 ih
    · rw [printed]
      exact inGroups_group high low ih

/-- Reads a constant behind the quote that opens it: its bytes up to the next quote, and what follows that. -/
def readConstant? (cs : List Char) : Option (List UInt8 × List Char) :=
  (unescape? (cs.takeWhile (· ≠ '"'))).map fun bytes => (bytes, (cs.dropWhile (· ≠ '"')).tail)

def Global.inside (g : Global) : List Char := escape g.text ++ ['\\', '0', '0']

theorem quote_notMem_inside (g : Global) : '"' ∉ g.inside := by
  intro member
  rcases List.mem_append.mp member with inside | ending
  · exact (printable_escape inside).2.2 rfl
  · revert ending
    decide

theorem unescape?_inside (g : Global) : unescape? g.inside = some (g.text.toUTF8.toList ++ [0]) := by
  rw [Global.inside, escape, unescape?_flatMap]
  rfl

def Global.opening (g : Global) : List Char := ("@" ++ g.name ++ " = constant c").toList

theorem Global.render_toList (g : Global) : g.render.toList = g.opening ++ '"' :: (g.inside ++ ['"', '\n']) := by
  simp [Global.render, Global.opening, Global.inside]

/-- The first quote is the one that closes the constant. -/
theorem readConstant?_inside (g : Global) (rest : List Char) :
    readConstant? (g.inside ++ '"' :: rest) = some (g.text.toUTF8.toList ++ [0], rest) := by
  have other : ∀ c ∈ g.inside, decide (c ≠ '"') = true := by
    intro c member
    rw [decide_eq_true_eq]
    rintro rfl
    exact quote_notMem_inside g member
  rw [readConstant?, List.takeWhile_append_of_pos other, List.takeWhile_cons_of_neg (by simp), List.append_nil,
    List.dropWhile_append_of_pos other, List.dropWhile_cons_of_neg (by simp), unescape?_inside]
  rfl

/-- What stands around the last quote of a text. -/
theorem append_quote_inj {front front' back back' : List Char} (none : '"' ∉ back) (none' : '"' ∉ back')
    (same : front ++ '"' :: back = front' ++ '"' :: back') : front = front' ∧ back = back' := by
  rcases List.append_eq_append_iff.mp same with ⟨mid, rfl, split⟩ | ⟨mid, rfl, split⟩
  · cases mid with
    | nil => exact ⟨by simp, by simpa using split⟩
    | cons c mid =>
      obtain ⟨-, rfl⟩ := List.cons.inj split
      exact absurd (by simp) none
  · cases mid with
    | nil => exact ⟨by simp, by simpa using split.symm⟩
    | cons c mid =>
      obtain ⟨-, rfl⟩ := List.cons.inj split
      exact absurd (by simp) none'

theorem Global.render_inj {g g' : Global} (same : g.render = g'.render) : g = g' := by
  have chars := congrArg String.toList same
  rw [render_toList, render_toList, ← List.cons_append, ← List.cons_append, ← List.append_assoc, ← List.append_assoc] at chars
  obtain ⟨named, inside⟩ := append_quote_inj (quote_notMem_inside g) (quote_notMem_inside g') (List.append_cancel_right chars)
  have name : g.name = g'.name := by
    have text := String.toList_inj.mp named
    simpa using text
  have text : g.text = g'.text := escape_inj (List.append_cancel_right inside)
  cases g
  cases g'
  cases name
  cases text
  rfl

/-- A printed text is made of printable characters without quotes, has a backslash only before two digits, and gives the
bytes of the text again, so different texts are printed differently. In the line of a constant, whatever its name is and
whatever follows, the constant is read up to the first quote behind the one that opens it. -/
theorem printed_constants_are_lossless (text : String) :
    (∀ c ∈ escape text, ' ' ≤ c ∧ c ≤ '~' ∧ c ≠ '"') ∧ InGroups (escape text) ∧
    unescape? (escape text) = some text.toUTF8.toList ∧
    (∀ other, escape text = escape other → text = other) ∧
    (∀ name rest, ∃ behind, (Global.render ⟨name, text⟩).toList ++ rest = Global.opening ⟨name, text⟩ ++ '"' :: behind ∧
      readConstant? behind = some (text.toUTF8.toList ++ [0], '\n' :: rest)) ∧
    ∀ name (g : Global), Global.render ⟨name, text⟩ = g.render → g = ⟨name, text⟩ := by
  refine ⟨fun c member => printable_escape member, inGroups_flatMap _, unescape?_escape text, fun other => escape_inj, ?_, ?_⟩
  · intro name rest
    refine ⟨_, ?_, readConstant?_inside ⟨name, text⟩ ('\n' :: rest)⟩
    rw [Global.render_toList]
    simp
  · exact fun name g same => (Global.render_inj same).symm

/-- A quote, text that looks like a group, a character of two bytes and a control character. -/
theorem printed_constants_are_lossless_lookalike :
    escape "\"\\41é\n" = "\\22\\5C41\\C3\\A9\\0A".toList ∧ InGroups (escape "\"\\41é\n") ∧
      unescape? "\\22\\5C41\\C3\\A9\\0A".toList = some "\"\\41é\n".toUTF8.toList := by
  obtain ⟨-, groups, read, -⟩ := printed_constants_are_lossless "\"\\41é\n"
  have printed : escape "\"\\41é\n" = "\\22\\5C41\\C3\\A9\\0A".toList := by cbv
  exact ⟨printed, groups, printed ▸ read⟩

end Ir

end StructLang
