import StructLang.Proofs.Ir.WellFormed

namespace StructLang.Ir.Function

variable (f : Function)

structure ExitShaped (visible : List Nat) (t : Terminator) : Prop where
  reads : ∀ v ∈ t.operands, v.Known f.params.length fun r => r.id ∈ visible
  typed : t.conditionTyped
  inside : ∀ target ∈ t.successors, target ∈ f.blocks.map (·.id)

structure BlockShaped (entry b : Block) : Prop where
  reads : Visible f.params.length (entryVisible entry b) b.instructions
  exit : ∃ t, b.terminator = some t ∧ f.ExitShaped (writes b.instructions ++ entryVisible entry b) t

structure Shaped (entry : Block) : Prop where
  placed : (f.blocks.map (·.id)).Nodup
  once : (writes (f.blocks.flatMap (·.instructions))).Nodup
  blocks : ∀ b ∈ f.blocks, f.BlockShaped entry b

def ReturnsFit : Prop :=
  ∀ b ∈ f.blocks, ∀ value, b.terminator = some (.ret value) → (value.isSome = true ↔ f.returns ≠ .void)

theorem wellFormed_iff_shaped {entry : Block} : f.WellFormed entry ↔ f.Shaped entry ∧ f.ReturnsFit := by
  constructor
  · rintro ⟨placed, once, formed⟩
    refine ⟨⟨placed, once, fun b member => ?_⟩, fun b member value returned => ?_⟩
    · obtain ⟨reads, t, found, exit⟩ := formed b member
      exact ⟨reads, t, found, exit.reads, exit.typed, exit.inside⟩
    · obtain ⟨-, t, found, exit⟩ := formed b member
      exact exit.returns (Option.some.inj (found.symm.trans returned))
  · rintro ⟨⟨placed, once, shaped⟩, fit⟩
    refine ⟨placed, once, fun b member => ?_⟩
    obtain ⟨reads, t, found, exit⟩ := shaped b member
    refine ⟨reads, t, found, exit.reads, ?_, exit.typed, exit.inside⟩
    rintro value rfl
    exact fit b member value found

variable {f} {entry : Block}

theorem checkTerminator_of_shaped {visible : List Nat} {t : Terminator} (label : String)
    (shaped : f.ExitShaped visible t) :
    f.checkTerminator label visible t = .ok () ∨
      f.checkTerminator label visible t = .error (.returnMismatch label f.returns) := by
  cases t with
  | ret value =>
    have reads : value.toList.forM (f.checkOperand label visible) = .ok () :=
      (f.checkOperands_ok_iff label visible _).mpr shaped.reads
    rw [checkTerminator, reads]
    simp only [bind, Except.bind]
    split
    · exact .inr rfl
    · exact .inl rfl
  | _ => exact .inl ((f.checkTerminator_ok_iff label visible _).mpr ⟨shaped.reads, by rintro _ ⟨⟩, shaped.typed⟩)

/-- A block is passed, or fails for its return. -/
theorem checkBlock_of_shaped {b : Block} {before : List Nat} (shaped : f.BlockShaped entry b)
    (once : ((writes b.instructions).reverse ++ before).Nodup) :
    f.checkBlock entry before b = .ok ((writes b.instructions).reverse ++ before) ∨
      f.checkBlock entry before b = .error (.returnMismatch b.label f.returns) := by
  obtain ⟨reads, t, found, exit⟩ := shaped
  have passed : b.instructions.foldlM (f.checkInstruction b.label) ⟨before, entryVisible entry b⟩ =
      .ok (Definitions.after ⟨before, entryVisible entry b⟩ b.instructions) :=
    (f.checkInstructions_ok_iff (List.nodup_append.mp once).2.1).mpr ⟨reads, rfl, once⟩
  have visible : f.ExitShaped (Definitions.after ⟨before, entryVisible entry b⟩ b.instructions).visible t := by
    refine ⟨fun v read => (exit.reads v read).mono fun r => ?_, exit.typed, exit.inside⟩
    simp [Definitions.after]
  simp only [checkBlock, entryVisible_eq, passed, found, bind, Except.bind]
  rcases checkTerminator_of_shaped b.label visible with ok | error
  · simp only [ok, (f.checkTargets_ok_iff b.label t).mpr exit.inside]
    exact .inl rfl
  · rw [error]
    exact .inr rfl

theorem checkBlocks_of_shaped {bs : List Block} : ∀ {before : List Nat}, (∀ b ∈ bs, f.BlockShaped entry b) →
    ((writes (bs.flatMap (·.instructions))).reverse ++ before).Nodup →
    (∃ after, bs.foldlM (f.checkBlock entry) before = .ok after) ∨
      ∃ b ∈ bs, bs.foldlM (f.checkBlock entry) before = .error (.returnMismatch b.label f.returns) := by
  induction bs with
  | nil => exact fun _ _ => .inl ⟨_, rfl⟩
  | cons b rest ih =>
    intro before shaped once
    simp only [List.flatMap_cons, writes_append, List.reverse_append, List.append_assoc] at once
    have once' := (List.nodup_append.mp once).2.1
    rw [List.foldlM_cons]
    rcases checkBlock_of_shaped (shaped b List.mem_cons_self) once' with ok | error
    · rw [ok]
      rcases ih (fun b member => shaped b (List.mem_cons_of_mem _ member)) once with passed | ⟨b', member, error⟩
      · exact .inl passed
      · exact .inr ⟨b', List.mem_cons_of_mem _ member, error⟩
    · rw [error]
      exact .inr ⟨b, List.mem_cons_self, rfl⟩

theorem checkBody_of_shaped {rest : List Block} (blocks : f.blocks = entry :: rest) (definition : f.isDeclaration = false)
    (shaped : f.Shaped entry) :
    f.checkBody = .ok () ∨ ∃ b ∈ f.blocks, f.checkBody = .error (.returnMismatch b.label f.returns) := by
  have placed : checkPlacement [] f.blocks = .ok () := by
    rw [checkPlacement_ok_iff List.nodup_nil, List.append_nil, (List.reverse_perm _).nodup_iff]
    exact shaped.placed
  have once : ((writes (f.blocks.flatMap Block.instructions)).reverse ++ []).Nodup := by
    rw [List.append_nil, (List.reverse_perm _).nodup_iff]
    exact shaped.once
  have body : f.checkBody = (f.blocks.foldlM (f.checkBlock entry) [] >>= fun _ => .ok ()) := by
    simp only [checkBody, definition, blocks] at placed ⊢
    rw [placed]
    rfl
  rw [body]
  rcases checkBlocks_of_shaped shaped.blocks once with ⟨after, ok⟩ | ⟨b, member, error⟩
  · rw [ok]
    exact .inl rfl
  · rw [error]
    exact .inr ⟨b, member, rfl⟩

end StructLang.Ir.Function
