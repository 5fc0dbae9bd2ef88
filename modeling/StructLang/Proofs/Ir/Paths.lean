import StructLang.Proofs.Ir.References

namespace StructLang.Ir

/-- A point on a path: what has been executed on the way, the block, and what is left of it. -/
structure Point where
  executed : List Instruction
  block : Block
  ahead : List Instruction

namespace Point

def atStart (executed : List Instruction) (b : Block) : Point := ⟨executed, b, b.instructions⟩

def CanRead (f : Function) (p : Point) (v : Value) : Prop :=
  v.Known f.params.length fun r => r.id ∈ writes p.executed

structure Safe (m : Module) (f : Function) (p : Point) : Prop where
  reads : ∀ {i rest}, p.ahead = i :: rest → ∀ v, i.Reads v → p.CanRead f v
  calls : ∀ {dest callee args rest}, p.ahead = .call dest callee args :: rest →
    ∃ g, m.function? callee = some g ∧ g.params.length = args.length
  exit : p.ahead = [] → ∃ t, p.block.terminator = some t ∧ (∀ v ∈ t.operands, p.CanRead f v) ∧
    ∀ target ∈ t.successors, ∃ b ∈ f.blocks, b.id = target

end Point

namespace Function

variable (f : Function)

inductive Step : Point → Point → Prop
  | execute {executed b i ahead} : Step ⟨executed, b, i :: ahead⟩ ⟨executed ++ [i], b, ahead⟩
  | branch {executed b t} (b' : Block) : b.terminator = some t → b'.id ∈ t.successors → b' ∈ f.blocks →
    Step ⟨executed, b, []⟩ (.atStart executed b')

inductive Reached : Point → Prop
  | start {entry rest} : f.blocks = entry :: rest → Reached (.atStart [] entry)
  | next {p q} : Reached p → f.Step p q → Reached q

/-- What is known of a point on a path: the instructions of its block up to the point have been executed,
and outside the entry block all of the entry block. -/
structure OnPath (entry : Block) (p : Point) : Prop where
  inside : p.block ∈ f.blocks
  here : ∃ passed, p.block.instructions = passed ++ p.ahead ∧ writes passed ⊆ writes p.executed
  entered : p.block ≠ entry → writes entry.instructions ⊆ writes p.executed

variable {f} {entry : Block} {p q : Point}

theorem OnPath.start {rest : List Block} (blocks : f.blocks = entry :: rest) : f.OnPath entry (.atStart [] entry) where
  inside := blocks ▸ List.mem_cons_self
  here := ⟨[], rfl, List.nil_subset _⟩
  entered other := absurd rfl other

/-- At the end of any block all of the entry block has been executed. -/
theorem OnPath.left (onPath : f.OnPath entry p) (done : p.ahead = []) :
    writes entry.instructions ⊆ writes p.executed := by
  by_cases block : p.block = entry
  · obtain ⟨passed, instructions, executed⟩ := onPath.here
    rw [done, List.append_nil, block] at instructions
    rwa [instructions]
  · exact onPath.entered block

theorem OnPath.step (onPath : f.OnPath entry p) (step : f.Step p q) : f.OnPath entry q := by
  cases step with
  | @execute executed b i ahead =>
    have more : writes executed ⊆ writes (executed ++ [i]) := by
      rw [writes_append]
      exact List.subset_append_left _ _
    obtain ⟨passed, instructions, written⟩ := onPath.here
    refine ⟨onPath.inside, ⟨passed ++ [i], ?_, ?_⟩, fun other => List.Subset.trans (onPath.entered other) more⟩
    · rw [List.append_assoc]
      exact instructions
    · rw [writes_append, List.append_subset]
      refine ⟨List.Subset.trans written more, ?_⟩
      rw [writes_append]
      exact List.subset_append_right _ _
  | branch b' exit target inside =>
    have left := onPath.left rfl
    exact ⟨inside, ⟨[], rfl, List.nil_subset _⟩, fun _ => left⟩

theorem OnPath.reached {rest : List Block} (blocks : f.blocks = entry :: rest) (reached : f.Reached p) :
    f.OnPath entry p := by
  induction reached with
  | start blocks' =>
    cases blocks.symm.trans blocks'
    exact .start blocks
  | next _ step ih => exact ih.step step

/-- An instruction reads what its block could read at the start, or has written before it. -/
theorem visible_at {params : Nat} {front back : List Instruction} {i : Instruction} : ∀ {visible : List Nat},
    Visible params visible (front ++ i :: back) →
      ∀ v ∈ i.operands, v.Known params fun r => r.id ∈ writes front ∨ r.id ∈ visible := by
  induction front with
  | nil => exact fun formed v read => (formed.1 v read).mono fun r => .inr
  | cons j front ih =>
    intro visible formed v read
    refine (ih formed.2 v read).mono fun r seen => ?_
    change r.id ∈ writes ([j] ++ front) ∨ _
    rw [writes_append]
    simp only [List.mem_append, or_assoc] at seen ⊢
    exact or_left_comm.mp seen

/-- What a block could read at its start has been written. -/
theorem OnPath.entryVisible (onPath : f.OnPath entry p) : entryVisible entry p.block ⊆ writes p.executed := by
  unfold Function.entryVisible
  split
  · exact List.nil_subset _
  · rename_i other
    exact onPath.entered fun same => other (congrArg Block.id same)

theorem OnPath.reads (formed : f.WellFormed entry) (onPath : f.OnPath entry p) {i : Instruction}
    {rest : List Instruction} (next : p.ahead = i :: rest) : ∀ v, i.Reads v → p.CanRead f v := by
  intro v read
  obtain ⟨passed, instructions, written⟩ := onPath.here
  have visible := (formed.blocks _ onPath.inside).reads
  rw [instructions, next] at visible
  refine (visible_at visible v (Instruction.mem_operands_iff.mpr read)).mono fun r seen => ?_
  rcases seen with here | before
  · exact written here
  · exact onPath.entryVisible before

theorem OnPath.exit (formed : f.WellFormed entry) (onPath : f.OnPath entry p) (done : p.ahead = []) :
    ∃ t, p.block.terminator = some t ∧ (∀ v ∈ t.operands, p.CanRead f v) ∧
      ∀ target ∈ t.successors, ∃ b ∈ f.blocks, b.id = target := by
  obtain ⟨t, found, exit⟩ := (formed.blocks _ onPath.inside).exit
  obtain ⟨passed, instructions, written⟩ := onPath.here
  rw [done, List.append_nil] at instructions
  refine ⟨t, found, fun v read => (exit.reads v read).mono fun r seen => ?_, fun target branch => ?_⟩
  · rcases List.mem_append.mp seen with here | before
    · exact written (instructions ▸ here)
    · exact onPath.entryVisible before
  · exact List.mem_map.mp (exit.inside target branch)

theorem OnPath.ahead_subset (onPath : f.OnPath entry p) : p.ahead ⊆ p.block.instructions := by
  obtain ⟨passed, instructions, -⟩ := onPath.here
  rw [instructions]
  exact List.subset_append_right _ _

/-- A function with a body that passes the check has an entry block and is well formed. -/
theorem wellFormed_of_checkBody (checked : f.checkBody = .ok ()) (definition : f.isDeclaration = false) :
    ∃ entry rest, f.blocks = entry :: rest ∧ f.WellFormed entry := by
  cases blocks : f.blocks with
  | nil =>
    simp only [checkBody, definition, blocks] at checked
    cases checked
  | cons entry rest => exact ⟨entry, rest, rfl, (f.checkBody_ok_iff blocks definition).mp checked⟩

end Function

/-- Every path through a function of a module that passes the check can be gone to its end. -/
theorem valid_paths_are_safe {m : Module} (valid : m.validate = .ok ()) {f : Function} (member : f ∈ m.functions)
    (definition : f.isDeclaration = false) :
    (∃ entry, f.blocks.head? = some entry ∧ f.Reached (.atStart [] entry)) ∧ ∀ p, f.Reached p → p.Safe m f := by
  have checked := Module.checkFunction_of_validate valid member
  obtain ⟨entry, rest, blocks, formed⟩ :=
    Function.wellFormed_of_checkBody (Module.checkBody_of_checkFunction checked) definition
  refine ⟨⟨entry, by rw [blocks]; rfl, .start blocks⟩, fun p reached => ?_⟩
  have onPath := Function.OnPath.reached blocks reached
  refine ⟨onPath.reads formed, fun next => ?_, onPath.exit formed⟩
  have executed := onPath.ahead_subset (next ▸ List.mem_cons_self)
  obtain ⟨before, after, use⟩ := Module.checkUse_of_checkFunction checked onPath.inside executed
  exact Module.callee_of_checkUse use

namespace Retry

def entry : Block :=
  ⟨0, "entry", [.alloca ⟨0, .ptr⟩ (.int 64), .store (.arg 0 (.int 64)) (.reg ⟨0, .ptr⟩)], some (.br 1)⟩

def again : Block :=
  ⟨1, "again", [.load ⟨1, .int 64⟩ (.int 64) (.reg ⟨0, .ptr⟩), .call (some ⟨2, .int 64⟩) "retry" [.reg ⟨1, .int 64⟩],
    .icmp ⟨3, .int 1⟩ .sgt (.reg ⟨2, .int 64⟩) (.int 0 64)], some (.condBr (.reg ⟨3, .int 1⟩) 0 2)⟩

def done : Block :=
  ⟨2, "done", [.load ⟨4, .int 64⟩ (.int 64) (.reg ⟨0, .ptr⟩)], some (.ret (some (.reg ⟨4, .int 64⟩)))⟩

def function : Function := ⟨"retry", [⟨"n", .int 64⟩], .int 64, [entry, again, done], false⟩

def module : Module := ⟨"retry", [], [], [function]⟩

def point : Point :=
  ⟨entry.instructions ++ again.instructions ++ entry.instructions ++ again.instructions.take 1, again,
    again.instructions.drop 1⟩

theorem reached_point : function.Reached point := by
  have first : function.Reached ⟨entry.instructions, entry, []⟩ :=
    .next (.next (.start rfl) .execute) .execute
  have around : function.Reached ⟨entry.instructions ++ again.instructions, again, []⟩ :=
    .next (.next (.next (.next first (.branch again rfl (by decide) (by decide))) .execute) .execute) .execute
  have back : function.Reached ⟨entry.instructions ++ again.instructions ++ entry.instructions, entry, []⟩ :=
    .next (.next (.next around (.branch entry rfl (by decide) (by decide))) .execute) .execute
  exact .next (.next back (.branch again rfl (by decide) (by decide))) .execute

end Retry

theorem valid_paths_are_safe_retry :
    Retry.module.validate = .ok () ∧ Retry.function ∈ Retry.module.functions ∧
      Retry.function.isDeclaration = false ∧ Retry.function.Reached Retry.point ∧
      Retry.point.Safe Retry.module Retry.function := by
  have valid : Retry.module.validate = .ok () := rfl
  have member : Retry.function ∈ Retry.module.functions := List.mem_singleton_self _
  exact ⟨valid, member, rfl, Retry.reached_point,
    (valid_paths_are_safe valid member rfl).2 Retry.point Retry.reached_point⟩

end StructLang.Ir
