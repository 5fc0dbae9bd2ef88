import Mathlib
import StructLang.Ir.Text
import StructLang.Proofs.Builder.Changes

namespace StructLang.Ir

structure BlockRequest where
  label : String
  placed : Bool

/-- `Taken asked label` says, in terms of what has been asked for, the last request first, that a block has the label. -/
inductive Taken : List String → String → Prop
  | asked {label before} : Taken (label :: before) label
  | numbered {label before} (taken : Taken before label) : Taken (label :: before) (label ++ toString before.length)
  | earlier {label last before} (taken : Taken before label) : Taken (last :: before) label

/-- A label that was asked for was taken, and with the number of the block it was taken as well. -/
inductive Collides : List String → Prop
  | last {label before} (taken : Taken before label) (again : Taken before (label ++ toString before.length)) :
      Collides (label :: before)
  | earlier {label before} (collides : Collides before) : Collides (label :: before)

theorem Taken.source {asked : List String} {label : String} (taken : Taken asked label) :
    ∃ known ∈ asked, label = known ∨ ∃ k < asked.length, label = known ++ toString k := by
  induction taken with
  | asked => exact ⟨_, List.mem_cons_self, .inl rfl⟩
  | numbered => exact ⟨_, List.mem_cons_self, .inr ⟨_, Nat.lt_succ_self _, rfl⟩⟩
  | earlier _ ih =>
    obtain ⟨known, member, same | ⟨k, before, same⟩⟩ := ih
    · exact ⟨known, List.mem_cons_of_mem _ member, .inl same⟩
    · exact ⟨known, List.mem_cons_of_mem _ member, .inr ⟨k, Nat.lt_succ_of_lt before, same⟩⟩

def trailing (label : String) : List Char := label.toList.reverse.takeWhile (·.isDigit)

def EndsInDigit (label : String) : Prop := ∃ c, label.toList.getLast? = some c ∧ c.isDigit = true

theorem trailing_of_plain {label : String} (plain : ¬ EndsInDigit label) : trailing label = [] := by
  have last := @List.head?_reverse _ label.toList
  unfold trailing
  cases chars : label.toList.reverse with
  | nil => rfl
  | cons c rest =>
    rw [chars, List.head?_cons] at last
    exact List.takeWhile_cons_of_neg fun digit => plain ⟨c, last.symm, digit⟩

theorem trailing_numbered {label : String} (plain : ¬ EndsInDigit label) (k : Nat) :
    trailing (label ++ toString k) = (Nat.toDigits 10 k).reverse := by
  have digits : ∀ c ∈ (Nat.toDigits 10 k).reverse, c.isDigit = true := fun c member =>
    Nat.isDigit_of_mem_toDigits (by omega) (by omega) (List.mem_reverse.mp member)
  have front := trailing_of_plain plain
  unfold trailing at front ⊢
  rw [String.toList_append, Nat.toString_eq_ofList_toDigits, String.toList_ofList, List.reverse_append,
    List.takeWhile_append_of_pos digits, front, List.append_nil]

/-- Without a digit at the end of any label, the number behind a label tells the blocks apart. -/
theorem not_collides_of_plain {asked : List String} (plain : ∀ label ∈ asked, ¬ EndsInDigit label) : ¬ Collides asked := by
  intro collides
  induction collides with
  | earlier _ ih => exact ih fun label member => plain label (List.mem_cons_of_mem _ member)
  | @last label before _ again =>
    have number := trailing_numbered (plain label List.mem_cons_self) before.length
    obtain ⟨known, member, same | ⟨k, less, same⟩⟩ := again.source
    · rw [same, trailing_of_plain (plain known (List.mem_cons_of_mem _ member)), eq_comm, List.reverse_eq_nil_iff] at number
      exact Nat.toDigits_ne_nil number
    · rw [same, trailing_numbered (plain known (List.mem_cons_of_mem _ member)), List.reverse_inj] at number
      have equal : k = before.length := by
        rw [← Nat.ofDigitChars_ten_toDigits (n := k), number, Nat.ofDigitChars_ten_toDigits]
      exact absurd less (equal ▸ Nat.lt_irrefl k)

structure Records (asked labels : List String) : Prop where
  size : labels.length = asked.length
  members : ∀ {label}, label ∈ labels ↔ Taken asked label
  distinct : labels.Nodup ↔ ¬ Collides asked

theorem records_nil : Records [] [] where
  size := rfl
  members := ⟨by rintro ⟨⟩, by rintro ⟨⟩⟩
  distinct := ⟨by rintro - ⟨⟩, fun _ => .nil⟩

/-- One more block. -/
theorem Records.ask {asked labels : List String} (records : Records asked labels) (last : String) :
    Records (last :: asked) (labels ++ [if last ∈ labels then last ++ toString labels.length else last]) := by
  have size := records.size
  have member := @records.members
  refine ⟨by simp [size], ?_, ?_⟩
  · intro label
    rw [List.mem_append, List.mem_singleton, member, size]
    constructor
    · rintro (before | rfl)
      · exact .earlier before
      · split
        · exact .numbered (member.mp ‹_›)
        · exact .asked
    · intro taken
      cases taken with
      | earlier before => exact .inl before
      | numbered before => exact .inr (if_pos (member.mpr before)).symm
      | asked =>
        by_cases before : last ∈ labels
        · exact .inl (member.mp before)
        · exact .inr (if_neg before).symm
  · have step : Collides (last :: asked) ↔ Collides asked ∨ last ∈ labels ∧ last ++ toString labels.length ∈ labels := by
      rw [member, member, size]
      constructor
      · rintro (⟨taken, again⟩ | before)
        · exact .inr ⟨taken, again⟩
        · exact .inl before
      · rintro (before | ⟨taken, again⟩)
        · exact .earlier before
        · exact .last taken again
    rw [step, not_or, ← records.distinct, List.nodup_append_comm, List.singleton_append, List.nodup_cons, and_comm]
    refine and_congr_right fun _ => not_congr ?_
    split <;> simp_all

namespace FunctionBuilder

variable {b : FunctionBuilder}

def request (b : FunctionBuilder) (r : BlockRequest) : FunctionBuilder :=
  if r.placed then (b.attach r.label).2 else (b.create r.label).2

def requestAll (b : FunctionBuilder) (requests : List BlockRequest) : FunctionBuilder := requests.foldl request b

def arenaLabels (b : FunctionBuilder) : List String := b.arena.map (·.label)

theorem freshLabel_eq (b : FunctionBuilder) (label : String) :
    b.freshLabel label = if label ∈ b.arenaLabels then label ++ toString b.arenaLabels.length else label := by
  have taken : (b.arena.any (·.label == label) = true) ↔ label ∈ b.arenaLabels := by
    simp [arenaLabels]
  rw [freshLabel, arenaLabels, List.length_map]
  exact if_congr taken rfl rfl

/-- One request. -/
theorem arenaLabels_request (b : FunctionBuilder) (r : BlockRequest) :
    (b.request r).arenaLabels = b.arenaLabels ++ [b.freshLabel r.label] := by
  have created : (b.create r.label).2.arenaLabels = b.arenaLabels ++ [b.freshLabel r.label] := List.map_append ..
  unfold request
  split
  · rw [← created]
    exact congrArg (List.map _) (arena_append ..)
  · exact created

theorem Regular.request (regular : b.Regular) (r : BlockRequest) : (b.request r).Regular := by
  unfold FunctionBuilder.request
  split
  · refine (regular.create r.label).append ?_
    rw [size_create]
    exact Nat.lt_succ_self _
  · exact regular.create r.label

theorem Regular.requestAll (regular : b.Regular) (requests : List BlockRequest) : (b.requestAll requests).Regular := by
  induction requests generalizing b with
  | nil => exact regular
  | cons r rest ih => exact ih (regular.request r)

theorem records_requestAll {asked : List String} (records : Records asked b.arenaLabels) (requests : List BlockRequest) :
    Records ((requests.map (·.label)).reverse ++ asked) (b.requestAll requests).arenaLabels := by
  induction requests generalizing b asked with
  | nil => exact records
  | cons r rest ih =>
    have next : Records (r.label :: asked) (b.request r).arenaLabels := by
      rw [arenaLabels_request, freshLabel_eq]
      exact records.ask r.label
    rw [List.map_cons, List.reverse_cons, List.append_assoc]
    exact ih next

/-- A block that has a place in the function is found there under its number. -/
theorem Regular.block?_build (regular : b.Regular) {id : Nat} (placed : id ∈ b.attached) :
    b.build.block? id = b.arena[id]? := by
  have find : ∀ ids : List Nat, id ∈ ids → (∀ other ∈ ids, other < b.arena.length) →
      (ids.filterMap (b.arena[·]?)).find? (·.id == id) = b.arena[id]? := by
    intro ids member known
    induction ids with
    | nil => cases member
    | cons other rest ih =>
      have found := List.getElem?_eq_getElem (known other List.mem_cons_self)
      have number := regular.numbered found
      rw [List.filterMap_cons_some found]
      by_cases same : other = id
      · subst same
        rw [List.find?_cons_of_pos (by simpa using number), found]
      · rw [List.find?_cons_of_neg (by simpa [number] using same)]
        refine ih ((List.mem_cons.mp member).resolve_left (Ne.symm same)) ?_
        exact fun other later => known other (List.mem_cons_of_mem _ later)
  exact find b.attached placed fun other member => regular.placed member

theorem Regular.labelOf_build (regular : b.Regular) {id : Nat} (placed : id ∈ b.attached) :
    b.arenaLabels[id]? = some (b.build.labelOf id) := by
  have found := List.getElem?_eq_getElem (regular.placed placed)
  rw [Function.labelOf, regular.block?_build placed, arenaLabels, List.getElem?_map, found]
  rfl

/-- If all labels are different, a label stands for one block. -/
theorem Regular.labelOf_inj (regular : b.Regular) (distinct : b.arenaLabels.Nodup) {id id' : Nat}
    (placed : id ∈ b.attached) (placed' : id' ∈ b.attached) (same : b.build.labelOf id = b.build.labelOf id') :
    id = id' := by
  have found := regular.labelOf_build placed
  have found' := regular.labelOf_build placed'
  rw [same, ← found'] at found
  have known : id < b.arenaLabels.length := by
    rw [arenaLabels, List.length_map]
    exact regular.placed placed
  exact (List.getElem?_inj known distinct).mp found

def ofRequests (name : String) (params : List Param) (returns : Ty) (requests : List BlockRequest) : FunctionBuilder :=
  (start name params returns).requestAll requests

/-- The labels are all different exactly if no request for a label that is taken finds it taken with the number of the
block as well. Requests for labels that do not end in digits never do. If the labels are all different, those that are
printed in branches identify the blocks. -/
theorem labels_are_distinct_iff (name : String) (params : List Param) (returns : Ty) (requests : List BlockRequest) :
    ((ofRequests name params returns requests).arenaLabels.Nodup ↔ ¬ Collides (requests.map (·.label)).reverse) ∧
    ((∀ r ∈ requests, ¬ EndsInDigit r.label) → (ofRequests name params returns requests).arenaLabels.Nodup) ∧
    ((ofRequests name params returns requests).arenaLabels.Nodup →
      ∀ id ∈ (ofRequests name params returns requests).attached,
      ∀ id' ∈ (ofRequests name params returns requests).attached,
      (ofRequests name params returns requests).build.labelOf id =
        (ofRequests name params returns requests).build.labelOf id' → id = id') := by
  have records := records_requestAll (b := start name params returns) records_nil requests
  rw [List.append_nil] at records
  refine ⟨records.distinct, fun plain => ?_, fun distinct id placed id' placed' same => ?_⟩
  · refine records.distinct.mpr (not_collides_of_plain ?_)
    simpa using plain
  · exact ((regular_start name params returns).requestAll requests).labelOf_inj distinct placed placed' same

/-- A number is added twice to one label, and nothing collides. -/
theorem labels_are_distinct_iff_renumbered :
    (ofRequests "f" [] .void [⟨"a", true⟩, ⟨"a", false⟩, ⟨"a1", true⟩]).arenaLabels = ["a", "a1", "a12"] ∧
    ¬ Collides ["a1", "a", "a"] := by
  have labels : (ofRequests "f" [] .void [⟨"a", true⟩, ⟨"a", false⟩, ⟨"a1", true⟩]).arenaLabels = ["a", "a1", "a12"] := by
    decide
  refine ⟨labels, (labels_are_distinct_iff "f" [] .void [⟨"a", true⟩, ⟨"a", false⟩, ⟨"a1", true⟩]).1.mp ?_⟩
  rw [labels]
  decide

/-- The third label is taken and gets the number two, which makes it the second label, so branches to the two blocks are
printed in the same way. -/
theorem labels_collide :
    (ofRequests "f" [] .void [⟨"a", true⟩, ⟨"a2", true⟩, ⟨"a", true⟩]).arenaLabels = ["a", "a2", "a2"] ∧
    ¬ (ofRequests "f" [] .void [⟨"a", true⟩, ⟨"a2", true⟩, ⟨"a", true⟩]).arenaLabels.Nodup ∧
    (ofRequests "f" [] .void [⟨"a", true⟩, ⟨"a2", true⟩, ⟨"a", true⟩]).build.labelOf 1 =
      (ofRequests "f" [] .void [⟨"a", true⟩, ⟨"a2", true⟩, ⟨"a", true⟩]).build.labelOf 2 := by
  decide

end FunctionBuilder

end StructLang.Ir
