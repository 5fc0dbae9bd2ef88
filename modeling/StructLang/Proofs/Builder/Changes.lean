import Mathlib.Data.List.InsertIdx
import Mathlib.Data.List.Flatten
import Mathlib.Data.List.Perm.Basic
import Mathlib.Logic.Relation
import StructLang.Proofs.Builder.Views
import StructLang.Proofs.Ir.Reads

namespace StructLang.Ir.FunctionBuilder

def registers (b : FunctionBuilder) : List Reg := b.arena.flatMap fun block => defs block.instructions

def Numbers (b : FunctionBuilder) (i : Instruction) (next : Nat) : Prop :=
  i.dest? = none ∧ next = b.nextReg ∨ ∃ ty, i.dest? = some ⟨b.nextReg, ty⟩ ∧ next = b.nextReg + 1

inductive Change (b : FunctionBuilder) : FunctionBuilder → Prop
  | create (label : String) : Change b (b.create label).2
  | place {id : Nat} (known : id < b.arena.length) : Change b (b.append id)
  | turn {id : Nat} (known : id < b.arena.length) : Change b (b.switchTo id)
  /-- Only a block without a terminator is written to. -/
  | write {id next : Nat} {block : Block} {i : Instruction} (found : b.arena[id]? = some block)
      (unfinished : block.terminator = none) (numbers : b.Numbers i next) :
      Change b { b.update id fun block => { block with instructions := block.instructions ++ [i] } with nextReg := next }
  | finish {id : Nat} {block : Block} (t : Terminator) (found : b.arena[id]? = some block)
      (unfinished : block.terminator = none) :
      Change b (b.update id fun block => { block with terminator := some t })
  /-- A slot stands behind the slots of the entry, whether the entry has its terminator or not. -/
  | slot {entry : Nat} {others : List Nat} (ty : Ty) (attached : b.attached = entry :: others) :
      Change b { b.update entry fun block =>
          { block with instructions := block.instructions.insertIdx b.entrySlots (.alloca ⟨b.nextReg, .ptr⟩ ty) } with
        nextReg := b.nextReg + 1
        entrySlots := b.entrySlots + 1 }

structure Regular (b : FunctionBuilder) : Prop where
  /-- A block is found under its own number. -/
  numbered : ∀ {id : Nat} {block : Block}, b.arena[id]? = some block → block.id = id
  distinct : b.attached.Nodup
  placed : ∀ {id}, id ∈ b.attached → id < b.arena.length
  current : ∀ {id}, b.current = some id → id < b.arena.length
  once : (b.registers.map (·.id)).Nodup
  below : ∀ {r}, r ∈ b.registers → r.id < b.nextReg
  /-- The entry begins with its slots. -/
  front : ∀ {entry : Nat} {block : Block}, b.attached.head? = some entry → b.arena[entry]? = some block →
    b.entrySlots ≤ block.instructions.length ∧ ∀ i ∈ block.instructions.take b.entrySlots, i.isSlot
  noEntry : b.attached = [] → b.entrySlots = 0

/-- A block with a terminator is left as it is, but for slots that are put behind those of the entry. -/
structure Spares (b b' : FunctionBuilder) : Prop where
  attached : b.attached <+: b'.attached
  slots : b.entrySlots ≤ b'.entrySlots
  finished : ∀ {id : Nat} {block : Block}, b.arena[id]? = some block → block.terminator.isSome →
    ∃ new, (∀ i ∈ new, i.isSlot) ∧
      b'.arena[id]? = some { block with
        instructions := block.instructions.take b.entrySlots ++ new ++ block.instructions.drop b.entrySlots } ∧
      if b'.attached.head? = some id then b'.entrySlots = b.entrySlots + new.length else new = []

variable {b b' b'' : FunctionBuilder}

theorem regular_start (name : String) (params : List Param) (returns : Ty) : (start name params returns).Regular where
  numbered := by rintro id block ⟨⟩
  distinct := .nil
  placed := by rintro id ⟨⟩
  current := by rintro id ⟨⟩
  once := .nil
  below := by rintro r ⟨⟩
  front := by rintro entry block ⟨⟩
  noEntry := fun _ => rfl

theorem Spares.refl (b : FunctionBuilder) : b.Spares b where
  attached := List.prefix_refl _
  slots := Nat.le_refl _
  finished {id block} found _ := by
    refine ⟨[], by simp, ?_, ?_⟩
    · rw [List.append_nil, List.take_append_drop, found]
    · split <;> rfl

section Registers

/-- What is added to one block is added to all that the blocks hold. -/
theorem flatMap_modify_perm {α β : Type} {g : α → List β} {f : α → α} {added : List β} : ∀ {as : List α} {n : Nat} {a : α},
    as[n]? = some a → (g (f a)).Perm (added ++ g a) → ((as.modify n f).flatMap g).Perm (added ++ as.flatMap g)
  | [], _, _, found, _ => by cases found
  | a :: as, 0, _, found, more => by
    cases found
    rw [List.modify_zero_cons, List.flatMap_cons, List.flatMap_cons, ← List.append_assoc]
    exact more.append_right _
  | a :: as, n + 1, _, found, more => by
    rw [List.modify_succ_cons, List.flatMap_cons, List.flatMap_cons]
    have inner : ((as.modify n f).flatMap g).Perm (added ++ as.flatMap g) := flatMap_modify_perm found more
    refine (inner.append_left _).trans ?_
    rw [← List.append_assoc, ← List.append_assoc]
    exact List.perm_append_comm.append_right _

theorem registers_update {id : Nat} {block : Block} {f : Block → Block} {added : List Reg}
    (found : b.arena[id]? = some block) (more : (defs (f block).instructions).Perm (added ++ defs block.instructions)) :
    (b.update id f).registers.Perm (added ++ b.registers) :=
  flatMap_modify_perm found more

theorem defs_singleton (i : Instruction) : defs [i] = i.dest?.toList := by
  cases dest : i.dest? <;> simp [defs, dest]

theorem insertIdx_split {α : Type} {as : List α} {n : Nat} (inside : n ≤ as.length) (a : α) :
    as.insertIdx n a = as.take n ++ a :: as.drop n := by
  have between := insertIdx_between (as.take n) (as.drop n) a
  rwa [List.take_append_drop, List.length_take, Nat.min_eq_left inside] at between

theorem take_insertIdx {α : Type} {as : List α} {n : Nat} (inside : n ≤ as.length) (a : α) :
    (as.insertIdx n a).take (n + 1) = as.take n ++ [a] := by
  have length : (as.take n).length = n := List.length_take_of_le inside
  rw [insertIdx_split inside, List.take_append, length, List.take_of_length_le (by omega), Nat.add_sub_cancel_left]
  rfl

/-- A register that is numbered by the counter is a new one. -/
theorem Regular.registers_next (regular : b.Regular) {rs : List Reg} {i : Instruction} {next : Nat}
    (numbers : b.Numbers i next) (perm : rs.Perm (i.dest?.toList ++ b.registers)) :
    (rs.map (·.id)).Nodup ∧ ∀ r ∈ rs, r.id < next := by
  rcases numbers with ⟨none, rfl⟩ | ⟨ty, dest, rfl⟩
  · rw [none] at perm
    exact ⟨(perm.map _).nodup_iff.mpr regular.once, fun r member => regular.below (perm.mem_iff.mp member)⟩
  · rw [dest] at perm
    constructor
    · refine (perm.map _).nodup_iff.mpr (List.nodup_cons.mpr ⟨?_, regular.once⟩)
      intro member
      obtain ⟨r, written, same⟩ := List.mem_map.mp member
      exact Nat.ne_of_lt (regular.below written) same
    · intro r member
      rcases List.mem_cons.mp (perm.mem_iff.mp member) with rfl | before
      · exact Nat.lt_succ_self _
      · exact Nat.lt_succ_of_lt (regular.below before)

end Registers

section Preserved

variable (regular : b.Regular)
include regular

theorem Regular.create (label : String) : (b.create label).2.Regular where
  numbered {id block} found := by
    rw [getElem?_create] at found
    split at found
    · cases found
      rfl
    · exact regular.numbered found
  distinct := regular.distinct
  placed member := by
    rw [size_create]
    exact Nat.lt_succ_of_lt (regular.placed member)
  current now := by
    rw [size_create]
    exact Nat.lt_succ_of_lt (regular.current now)
  once := by
    have same : (b.create label).2.registers = b.registers := by simp [registers, FunctionBuilder.create, Block.empty]
    rw [same]
    exact regular.once
  below {r} written := by
    have same : (b.create label).2.registers = b.registers := by simp [registers, FunctionBuilder.create, Block.empty]
    rw [same] at written
    exact regular.below written
  front {entry block} first found := by
    have known := regular.placed (List.mem_of_head? first)
    rw [getElem?_create, if_neg (Nat.ne_of_lt known)] at found
    exact regular.front first found
  noEntry := regular.noEntry

theorem Regular.append {id : Nat} (known : id < b.arena.length) : (b.append id).Regular := by
  unfold FunctionBuilder.append
  split
  · exact regular
  · rename_i unplaced
    have unplaced : id ∉ b.attached := by simpa using unplaced
    exact {
      numbered := regular.numbered
      distinct := nodup_concat regular.distinct unplaced
      placed := by
        intro other member
        rcases List.mem_append.mp member with before | last
        · exact regular.placed before
        · rw [List.mem_singleton.mp last]
          exact known
      current := regular.current
      once := regular.once
      below := regular.below
      front := by
        intro entry block first found
        cases attached : b.attached with
        | nil =>
          change b.entrySlots ≤ _ ∧ ∀ i ∈ List.take b.entrySlots _, _
          rw [regular.noEntry attached]
          exact ⟨Nat.zero_le _, by simp⟩
        | cons before others =>
          refine regular.front ?_ found
          rw [attached] at first ⊢
          exact first
      noEntry := by simp }

theorem Regular.switchTo {id : Nat} (known : id < b.arena.length) : (b.switchTo id).Regular :=
  { regular with current := by rintro _ ⟨⟩; exact known }

/-- A change of one block that keeps its number, given that its registers and its slots are in order. -/
theorem Regular.update {id : Nat} (next slots : Nat) {f : Block → Block} (keeps : ∀ block, (f block).id = block.id)
    (registers : ((b.update id f).registers.map (·.id)).Nodup ∧ ∀ r ∈ (b.update id f).registers, r.id < next)
    (front : ∀ {entry : Nat} {block : Block}, b.attached.head? = some entry → b.arena[entry]? = some block →
      slots ≤ (if id = entry then f block else block).instructions.length ∧
        ∀ i ∈ (if id = entry then f block else block).instructions.take slots, i.isSlot)
    (noEntry : b.attached = [] → slots = 0) :
    Regular { b.update id f with nextReg := next, entrySlots := slots } where
  numbered {other block} found := by
    change (b.update id f).arena[other]? = _ at found
    rw [getElem?_update] at found
    split at found
    · obtain ⟨before, there, rfl⟩ := Option.map_eq_some_iff.mp found
      rw [keeps]
      exact regular.numbered there
    · exact regular.numbered found
  distinct := regular.distinct
  placed member := by simpa [FunctionBuilder.update] using regular.placed member
  current now := by simpa [FunctionBuilder.update] using regular.current now
  once := registers.1
  below {r} member := registers.2 r member
  front {entry block} first found := by
    have known := regular.placed (List.mem_of_head? first)
    change (b.update id f).arena[entry]? = _ at found
    have kept := front first (List.getElem?_eq_getElem known)
    rw [getElem?_update, List.getElem?_eq_getElem known] at found
    split at found <;> cases found <;> rename_i here
    · simpa only [if_pos here] using kept
    · simpa only [if_neg here] using kept
  noEntry := noEntry

end Preserved

/-- An instruction behind the others leaves the slots in front of them. -/
theorem Regular.write (regular : b.Regular) {id next : Nat} {block : Block} {i : Instruction}
    (found : b.arena[id]? = some block) (numbers : b.Numbers i next) :
    Regular { b.update id fun block => { block with instructions := block.instructions ++ [i] } with nextReg := next } := by
  refine regular.update next b.entrySlots (fun _ => rfl)
    (regular.registers_next numbers (registers_update found ?_)) ?_ regular.noEntry
  · rw [defs_append, defs_singleton]
    exact List.perm_append_comm
  · intro entry block first there
    obtain ⟨size, slots⟩ := regular.front first there
    split
    · dsimp only
      rw [List.length_append, List.take_append_of_le_length size]
      exact ⟨by omega, slots⟩
    · exact ⟨size, slots⟩

theorem Regular.finish (regular : b.Regular) {id : Nat} {block : Block} (t : Terminator)
    (found : b.arena[id]? = some block) : (b.update id fun block => { block with terminator := some t }).Regular := by
  have perm : (b.update id fun block => { block with terminator := some t }).registers.Perm ([] ++ b.registers) :=
    registers_update found (.refl _)
  refine regular.update b.nextReg b.entrySlots (fun _ => rfl) ⟨(perm.map _).nodup_iff.mpr regular.once, ?_⟩ ?_
    regular.noEntry
  · exact fun r member => regular.below (perm.mem_iff.mp member)
  · intro entry block first there
    have kept := regular.front first there
    split <;> exact kept

/-- A slot behind the slots of the entry is one of those that it begins with. -/
theorem Regular.slot (regular : b.Regular) {entry : Nat} {others : List Nat} (ty : Ty)
    (attached : b.attached = entry :: others) :
    Regular { b.update entry fun block =>
        { block with instructions := block.instructions.insertIdx b.entrySlots (.alloca ⟨b.nextReg, .ptr⟩ ty) } with
      nextReg := b.nextReg + 1
      entrySlots := b.entrySlots + 1 } := by
  have first : b.attached.head? = some entry := by rw [attached]; rfl
  have known : entry < b.arena.length := regular.placed (List.mem_of_head? first)
  have found := List.getElem?_eq_getElem known
  have numbers : b.Numbers (.alloca ⟨b.nextReg, .ptr⟩ ty) (b.nextReg + 1) := .inr ⟨.ptr, rfl, rfl⟩
  refine regular.update (b.nextReg + 1) (b.entrySlots + 1) (fun _ => rfl)
    (regular.registers_next numbers (registers_update found ?_)) ?_ (by simp [attached])
  · exact (List.perm_insertIdx _ _ (regular.front first found).1).filterMap _
  · intro entry' block same there
    cases first.symm.trans same
    obtain ⟨size, slots⟩ := regular.front first there
    rw [if_pos rfl]
    dsimp only
    rw [List.length_insertIdx_of_le_length size, take_insertIdx size]
    refine ⟨by omega, fun i member => ?_⟩
    rcases List.mem_append.mp member with before | last
    · exact slots i before
    · rw [List.mem_singleton.mp last]
      rfl

theorem Change.regular (change : b.Change b') (regular : b.Regular) : b'.Regular := by
  cases change with
  | create label => exact regular.create label
  | place known => exact regular.append known
  | turn known => exact regular.switchTo known
  | write found _ numbers => exact regular.write found numbers
  | finish t found _ => exact regular.finish t found
  | slot ty attached => exact regular.slot ty attached

/-- No block is given up. -/
theorem Change.size_le (change : b.Change b') : b.arena.length ≤ b'.arena.length := by
  cases change <;> simp [FunctionBuilder.switchTo, update]

theorem size_le_of_changes (changes : Relation.ReflTransGen Change b b') : b.arena.length ≤ b'.arena.length := by
  induction changes with
  | refl => exact Nat.le_refl _
  | tail _ change ih => exact Nat.le_trans ih change.size_le

theorem Regular.changes (regular : b.Regular) (changes : Relation.ReflTransGen Change b b') : b'.Regular := by
  induction changes with
  | refl => exact regular
  | tail _ change ih => exact change.regular ih

/-- Where the entry is known, it stays the same. -/
theorem head?_of_grown {front whole : List Nat} (grown : front <+: whole) {id : Nat} (first : front.head? = some id) :
    whole.head? = some id := by
  obtain ⟨back, rfl⟩ := grown
  rw [List.head?_append, first]
  rfl

theorem Spares.entrySlots_of_new_entry (spares : b.Spares b') (regular : b'.Regular) {id : Nat}
    (attached : b'.attached <+: b''.attached) (other : b'.attached.head? ≠ some id) (first : b''.attached.head? = some id) :
    b.entrySlots = 0 ∧ b'.entrySlots = 0 := by
  have none : b'.attached = [] := by
    cases before : b'.attached with
    | nil => rfl
    | cons entry others =>
      rw [before] at attached other
      exact absurd ((head?_of_grown attached rfl).symm.trans first) other
  have zero := regular.noEntry none
  have := spares.slots
  exact ⟨by omega, zero⟩

/-- Where blocks with a terminator do not change, and no slot is new, only the entry may be. -/
theorem Spares.unchanged (spares : b.Spares b') (regular : b'.Regular) (attached : b'.attached <+: b''.attached)
    (slots : b''.entrySlots = b'.entrySlots)
    (same : ∀ {id : Nat} {block : Block}, b'.arena[id]? = some block → block.terminator.isSome →
      b''.arena[id]? = some block) : b.Spares b'' where
  attached := spares.attached.trans attached
  slots := slots ▸ spares.slots
  finished {id block} found finished := by
    obtain ⟨new, each, later, count⟩ := spares.finished found finished
    refine ⟨new, each, same later finished, ?_⟩
    rw [slots]
    by_cases first : b'.attached.head? = some id
    · rw [if_pos first] at count
      rwa [if_pos (head?_of_grown attached first)]
    · rw [if_neg first] at count
      subst count
      split
      · rename_i entry
        obtain ⟨zero, zero'⟩ := spares.entrySlots_of_new_entry regular attached first entry
        rw [zero, zero']
        rfl
      · rfl

theorem getElem?_update_of_finished {id other : Nat} {block target : Block} {f : Block → Block}
    (found : b.arena[id]? = some target) (unfinished : target.terminator = none) (there : b.arena[other]? = some block)
    (finished : block.terminator.isSome) : (b.update id f).arena[other]? = some block := by
  have apart : id ≠ other := by
    rintro rfl
    cases found.symm.trans there
    rw [unfinished] at finished
    cases finished
  rw [getElem?_update, if_neg apart, there]

/-- What has become the entry holds the slots that there were. -/
theorem Regular.entrySlots_le (regular : b.Regular) {entry : Nat} {others : List Nat} {block : Block}
    (grown : b.attached <+: entry :: others) (found : b.arena[entry]? = some block) :
    b.entrySlots ≤ block.instructions.length := by
  cases attached : b.attached with
  | nil =>
    rw [regular.noEntry attached]
    exact Nat.zero_le _
  | cons first rest =>
    rw [attached] at grown
    obtain ⟨rfl, -⟩ := List.cons_prefix_cons.mp grown
    exact (regular.front (by rw [attached]; rfl) found).1

theorem Spares.slot (spares : b.Spares b') (regular : b.Regular) {entry : Nat} {others : List Nat} (ty : Ty)
    (attached : b'.attached = entry :: others) :
    b.Spares { b'.update entry fun block =>
        { block with instructions := block.instructions.insertIdx b'.entrySlots (.alloca ⟨b'.nextReg, .ptr⟩ ty) } with
      nextReg := b'.nextReg + 1
      entrySlots := b'.entrySlots + 1 } where
  attached := spares.attached
  slots := Nat.le_succ_of_le spares.slots
  finished {id block} found finished := by
    obtain ⟨new, each, later, count⟩ := spares.finished found finished
    change ∃ new, _ ∧ (b'.update entry _).arena[id]? = _ ∧ if b'.attached.head? = some id then _ else _
    rw [getElem?_update, later]
    by_cases here : entry = id
    · subst here
      have first : b'.attached.head? = some entry := by rw [attached]; rfl
      have size := regular.entrySlots_le (attached ▸ spares.attached) found
      rw [if_pos first] at count
      refine ⟨new ++ [.alloca ⟨b'.nextReg, .ptr⟩ ty], ?_, ?_, ?_⟩
      · intro i member
        rcases List.mem_append.mp member with before | last
        · exact each i before
        · rw [List.mem_singleton.mp last]
          rfl
      · have place : b'.entrySlots = (block.instructions.take b.entrySlots ++ new).length := by
          rw [List.length_append, List.length_take_of_le size, count]
        rw [if_pos rfl, Option.map_some, place, insertIdx_between, ← List.append_assoc, List.append_assoc _ [_]]
        rfl
      · rw [if_pos first, count, List.length_append]
        rfl
    · have other : b'.attached.head? ≠ some id := by
        rw [attached]
        simpa using here
      rw [if_neg other] at count
      exact ⟨new, each, if_neg here, by rwa [if_neg other]⟩

theorem Spares.change (spares : b.Spares b') (regular : b.Regular) (regular' : b'.Regular) (change : b'.Change b'') :
    b.Spares b'' := by
  cases change with
  | create label =>
    refine spares.unchanged regular' (List.prefix_refl _) rfl fun {id block} found _ => ?_
    have known := (List.getElem?_eq_some_iff.mp found).1
    rw [getElem?_create, if_neg (Nat.ne_of_lt known), found]
  | place known =>
    unfold FunctionBuilder.append
    split
    · exact spares
    · exact spares.unchanged regular' (List.prefix_append _ _) rfl fun found _ => found
  | turn known => exact spares.unchanged regular' (List.prefix_refl _) rfl fun found _ => found
  | write found unfinished _ =>
    exact spares.unchanged regular' (List.prefix_refl _) rfl (getElem?_update_of_finished found unfinished)
  | finish t found unfinished =>
    exact spares.unchanged regular' (List.prefix_refl _) rfl (getElem?_update_of_finished found unfinished)
  | slot ty attached => exact spares.slot regular ty attached

theorem Regular.spares (regular : b.Regular) (changes : Relation.ReflTransGen Change b b') : b.Spares b' := by
  induction changes with
  | refl => exact .refl b
  | tail before change ih => exact ih.change regular (regular.changes before) change

end StructLang.Ir.FunctionBuilder
