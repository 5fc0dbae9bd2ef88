import Mathlib
import StructLang.Proofs.Builder.Finished
import StructLang.Proofs.Lowering.Labels

namespace StructLang

open Ir

namespace Ir

/-- A function as lowering builds it, out of the blocks in `created`. -/
structure Function.Structured (f : Function) (created : List Block) : Prop where
  shaped : ∃ entry others, f.blocks = entry :: others ∧ f.Shaped entry ∧
    (∃ slots code, entry.instructions = slots ++ code ∧ (∀ i ∈ slots, i.isSlot = true) ∧ ∀ i ∈ code, i.isSlot = false) ∧
    ∀ b ∈ others, ∀ i ∈ b.instructions, i.isSlot = false
  checked : f.checkBody = .ok () ∨ ∃ b ∈ f.blocks, f.checkBody = .error (.returnMismatch b.label f.returns)
  labels : (f.blocks.map (·.label)).Nodup
  placed : f.blocks.Perm created
  live : ∀ b ∈ f.blocks, ∀ t, b.terminator = some t → ∀ target ∈ t.successors,
    ∃ b' ∈ f.blocks, b'.id = target ∧ ¬ DeadLabel b'.label

namespace FunctionBuilder

variable {b : FunctionBuilder}

theorem Labelled.labels_nodup (labelled : b.Labelled) : (b.arena.map (·.label)).Nodup := by
  rw [List.Nodup, List.pairwise_map, List.pairwise_iff_getElem]
  intro i j known known' before same
  have first : b.labelOf i = some b.arena[i].label := by rw [labelOf, List.getElem?_eq_getElem known]; rfl
  have second : b.labelOf j = some b.arena[i].label := by rw [labelOf, List.getElem?_eq_getElem known', same]; rfl
  exact Nat.ne_of_lt before (labelled.distinct first second)

theorem isSlot_of_mem_code {id : Nat} {i : Instruction} (member : i ∈ b.code id) : i.isSlot = false := by
  simpa using (List.mem_filter.mp member).2

/-- Only the entry block has slots, and they come first. -/
theorem Finished.slots_first (done : b.Finished) :
    ∃ entry others, b.build.blocks = entry :: others ∧ b.build.Shaped entry ∧
      (∃ slots code, entry.instructions = slots ++ code ∧ (∀ i ∈ slots, i.isSlot = true) ∧
        ∀ i ∈ code, i.isSlot = false) ∧
      ∀ block ∈ others, ∀ i ∈ block.instructions, i.isSlot = false := by
  have laid := done.sound.laid
  obtain ⟨label, others, blocks⟩ := done.entry
  have shaped : b.build.Shaped ⟨0, label, b.instructions 0, b.exit 0⟩ := done.shaped rfl rfl
  refine ⟨_, others, blocks, shaped, ⟨b.slots, b.code 0, laid.front, ?_, ?_⟩, ?_⟩
  · exact fun i member => (List.mem_filter.mp member).2
  · exact fun i member => isSlot_of_mem_code member
  · intro block member i executed
    have other : block.id ≠ 0 := by
      have placed := shaped.placed
      rw [blocks, List.map_cons, List.nodup_cons] at placed
      exact fun entry => placed.1 (List.mem_map.mpr ⟨block, member, entry⟩)
    obtain ⟨name, all⟩ := done.blocks_eq
    have member' : block ∈ b.build.blocks := blocks ▸ List.mem_cons_of_mem _ member
    rw [all] at member'
    obtain ⟨id, -, rfl⟩ := List.mem_map.mp member'
    rw [laid.others other] at executed
    exact isSlot_of_mem_code executed

theorem Finished.live (done : b.Finished) (labelled : b.Labelled) {block : Block} (member : block ∈ b.build.blocks)
    {t : Terminator} (exit : block.terminator = some t) {target : Nat} (branch : target ∈ t.successors) :
    ∃ block' ∈ b.build.blocks, block'.id = target ∧ ¬ DeadLabel block'.label := by
  obtain ⟨name, all⟩ := done.blocks_eq
  have found := member
  rw [all] at found
  obtain ⟨id, -, rfl⟩ := List.mem_map.mp found
  obtain ⟨label, known, alive⟩ := labelled.live exit target branch
  obtain ⟨block', here, rfl⟩ := Option.map_eq_some_iff.mp known
  exact ⟨block', done.blocks_perm.mem_iff.mpr (List.mem_of_getElem? here), done.sound.laid.numbered here, alive⟩

theorem Finished.structured (done : b.Finished) (labelled : b.Labelled) : b.build.Structured b.arena := by
  obtain ⟨entry, others, blocks, formed, slots⟩ := done.slots_first
  exact {
    shaped := ⟨entry, others, blocks, formed, slots⟩
    checked := Function.checkBody_of_shaped blocks rfl formed
    labels := (done.blocks_perm.map _).nodup_iff.mpr labelled.labels_nodup
    placed := done.blocks_perm
    live := fun _ member _ exit _ branch => done.live labelled member exit branch }

end FunctionBuilder

end Ir

theorem Lower.finished_body {scope : Scope} {blockScoping : Bool} {m : ModuleBuilder} {f : FunctionDecl}
    {s : FunctionState} (lowered : body scope blockScoping f (startOf m f) = .ok () s) : s.function.Finished := by
  obtain ⟨done, -⟩ := (written_body scope blockScoping m f).ok lowered
  exact ⟨done.sound, done.complete, done.finished⟩

/-- A body that is lowered, in whatever tables and into whatever module, becomes a well-structured function. -/
theorem lowered_body_is_structured {scope : Scope} {blockScoping : Bool} {m : ModuleBuilder} {f : FunctionDecl}
    {s : FunctionState} (lowered : Lower.body scope blockScoping f (Lower.startOf m f) = .ok () s) :
    s.function.build.Structured s.function.arena :=
  (Lower.finished_body lowered).structured (Lower.labelled_body lowered)

def earlyReturn : FunctionDecl where
  signature := ⟨"f", default, .void, [⟨"n", .int 64, default⟩], default⟩
  body := ⟨[.while default (.variable default "n")
    ⟨[.ret default (some (.variable default "n")),
      .expr (.assign default (.variable default "n") (.int default 1))], default⟩], default⟩
  span := default

theorem lowered_body_is_structured_earlyReturn :
    ∃ s, Lower.body .empty true earlyReturn (Lower.startOf (.start "m") earlyReturn) = .ok () s ∧
      s.function.labels = ["entry", "loop.cond", "loop.body", "dead", "loop.end"] ∧
      s.function.build.Structured s.function.arena := by
  have checked : (match Lower.body .empty true earlyReturn (Lower.startOf (.start "m") earlyReturn) with
      | .ok _ s => decide (s.function.labels = ["entry", "loop.cond", "loop.body", "dead", "loop.end"])
      | .error .. => false) = true := by cbv
  revert checked
  generalize lowered : Lower.body _ _ _ _ = result
  intro checked
  cases result with
  | error e s => cases checked
  | ok _ s => exact ⟨s, rfl, of_decide_eq_true checked, lowered_body_is_structured lowered⟩

end StructLang
