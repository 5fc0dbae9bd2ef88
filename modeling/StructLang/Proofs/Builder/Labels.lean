import StructLang.Proofs.Builder.Constructs

namespace StructLang.Ir

def digits (label : String) : List Char := label.toList.filter (·.isDigit)

theorem digits_append (front back : String) : digits (front ++ back) = digits front ++ digits back := by
  simp [digits]

theorem digits_toString (n : Nat) : digits (toString n) = Nat.toDigits 10 n := by
  rw [digits, Nat.toString_eq_ofList_toDigits, String.toList_ofList]
  refine List.filter_eq_self.mpr fun c member => ?_
  exact Nat.isDigit_of_mem_toDigits (by omega) (by omega) member

def DeadLabel (label : String) : Prop := "dead".toList <+: label.toList

structure TargetLabel (label : String) : Prop where
  plain : digits label = []
  other : ∀ c, label.toList.head? = some c → c ≠ 'd'
  nonempty : label.toList ≠ []

theorem TargetLabel.of_head {label : String} (plain : digits label = []) {c : Char} (first : label.toList.head? = some c)
    (other : c ≠ 'd') : TargetLabel label where
  plain := plain
  other c' found := by
    cases first.symm.trans found
    exact other
  nonempty empty := by
    rw [empty] at first
    cases first

theorem TargetLabel.live {label : String} (target : TargetLabel label) (back : String) :
    ¬ DeadLabel (label ++ back) := by
  intro dead
  unfold DeadLabel at dead
  rw [String.toList_append] at dead
  cases chars : label.toList with
  | nil => exact target.nonempty chars
  | cons c rest =>
    rw [chars, List.cons_append] at dead
    have first := (List.cons_prefix_cons.mp dead).1
    exact target.other c (by rw [chars]; rfl) first.symm

namespace FunctionBuilder

variable (b : FunctionBuilder)

def labelOf (id : Nat) : Option String := b.arena[id]?.map (·.label)

def Live (id : Nat) : Prop := ∃ label, b.labelOf id = some label ∧ ¬ DeadLabel label

structure Labelled : Prop where
  numbered : ∀ {id label}, b.labelOf id = some label → digits label = [] ∨ digits label = Nat.toDigits 10 id
  distinct : ∀ {id id' label}, b.labelOf id = some label → b.labelOf id' = some label → id = id'
  live : ∀ {id t}, b.exit id = some t → ∀ target ∈ t.successors, b.Live target

structure Tidies (b b' : FunctionBuilder) : Prop where
  kept : ∀ {id label}, b.labelOf id = some label → b'.labelOf id = some label
  labelled : b.Labelled → b'.Labelled

variable {b} {b' b'' : FunctionBuilder}

theorem Tidies.refl (b : FunctionBuilder) : b.Tidies b := ⟨id, id⟩

theorem Tidies.trans (first : b.Tidies b') (second : b'.Tidies b'') : b.Tidies b'' :=
  ⟨fun found => second.kept (first.kept found), fun labelled => second.labelled (first.labelled labelled)⟩

theorem Live.kept {id : Nat} (live : b.Live id) (tidies : b.Tidies b') : b'.Live id := by
  obtain ⟨label, found, alive⟩ := live
  exact ⟨label, tidies.kept found, alive⟩

/-- A step that changes neither labels nor exits. -/
theorem Tidies.same (labels : ∀ id, b'.labelOf id = b.labelOf id) (exits : ∀ id, b'.exit id = b.exit id) :
    b.Tidies b' where
  kept found := by rwa [labels]
  labelled labelled := {
    numbered := fun found => labelled.numbered (labels _ ▸ found)
    distinct := fun found found' => labelled.distinct (labels _ ▸ found) (labels _ ▸ found')
    live := fun exit target branch => by
      obtain ⟨label, found, alive⟩ := labelled.live (exits _ ▸ exit) target branch
      exact ⟨label, by rwa [labels], alive⟩ }

theorem labelOf_create (b : FunctionBuilder) (label : String) (id : Nat) :
    (b.create label).2.labelOf id = if id = b.arena.length then some (b.freshLabel label) else b.labelOf id := by
  rw [labelOf, getElem?_create]
  split <;> rfl

theorem labelOf_lt {id : Nat} {label : String} (found : b.labelOf id = some label) : id < b.arena.length := by
  refine Nat.lt_of_not_le fun new => ?_
  rw [labelOf, List.getElem?_eq_none new] at found
  cases found

theorem freshLabel_cases (b : FunctionBuilder) (label : String) :
    (b.freshLabel label = label ∧ ∀ id, b.labelOf id ≠ some label) ∨
      b.freshLabel label = label ++ toString b.arena.length := by
  unfold freshLabel
  split
  · exact .inr rfl
  · rename_i free
    refine .inl ⟨rfl, fun id found => free ?_⟩
    obtain ⟨block, known, same⟩ := Option.map_eq_some_iff.mp found
    exact List.any_eq_true.mpr ⟨block, List.mem_of_getElem? known, by simpa using same⟩

/-- A new block gets a label that no other block has. -/
theorem Labelled.fresh (labelled : b.Labelled) {label : String} (plain : digits label = []) (id : Nat) :
    b.labelOf id ≠ some (b.freshLabel label) := by
  rcases b.freshLabel_cases label with ⟨same, free⟩ | taken
  · rw [same]
    exact free id
  · intro found
    have number : digits (b.freshLabel label) = Nat.toDigits 10 b.arena.length := by
      rw [taken, digits_append, plain, digits_toString, List.nil_append]
    rcases labelled.numbered found with none | some
    · rw [number] at none
      exact Nat.toDigits_ne_nil none
    · rw [number] at some
      have equal : b.arena.length = id := by
        rw [← Nat.ofDigitChars_ten_toDigits (n := b.arena.length), some, Nat.ofDigitChars_ten_toDigits]
      exact Nat.lt_irrefl _ (equal ▸ labelOf_lt found)

theorem Tidies.create (b : FunctionBuilder) {label : String} (plain : digits label = []) :
    b.Tidies (b.create label).2 := by
  have kept {id : Nat} {name : String} (found : b.labelOf id = some name) :
      (b.create label).2.labelOf id = some name := by
    rw [labelOf_create, if_neg (Nat.ne_of_lt (labelOf_lt found)), found]
  refine ⟨kept, fun labelled => ⟨?_, ?_, ?_⟩⟩
  · intro id name found
    rw [labelOf_create] at found
    split at found
    · rename_i new
      cases found
      rcases b.freshLabel_cases label with ⟨same, -⟩ | taken
      · rw [same]
        exact .inl plain
      · rw [taken, digits_append, plain, digits_toString, new]
        exact .inr rfl
    · exact labelled.numbered found
  · intro id id' name found found'
    rw [labelOf_create] at found found'
    split at found <;> split at found'
    · omega
    · exact absurd (found'.trans found.symm) (labelled.fresh plain id')
    · exact absurd (found.trans found'.symm) (labelled.fresh plain id)
    · exact labelled.distinct found found'
  · intro id t exit target branch
    rw [exit_create] at exit
    obtain ⟨name, found, alive⟩ := labelled.live exit target branch
    exact ⟨name, kept found, alive⟩

theorem Live.created (b : FunctionBuilder) {label : String} (target : TargetLabel label) :
    (b.create label).2.Live b.arena.length := by
  refine ⟨b.freshLabel label, by rw [labelOf_create, if_pos rfl], ?_⟩
  rcases b.freshLabel_cases label with ⟨same, -⟩ | taken
  · rw [same, ← String.append_empty (s := label)]
    exact target.live ""
  · rw [taken]
    exact target.live _

theorem Tidies.append (b : FunctionBuilder) (id : Nat) : b.Tidies (b.append id) :=
  .same (fun _ => by simp [labelOf]) fun _ => exit_append ..

theorem Tidies.switchTo (b : FunctionBuilder) (id : Nat) : b.Tidies (b.switchTo id) :=
  .same (fun _ => rfl) fun _ => rfl

theorem Tidies.bump (b : FunctionBuilder) (n : Nat) : b.Tidies { b with nextReg := n } :=
  .same (fun _ => rfl) fun _ => rfl

theorem Tidies.attach (b : FunctionBuilder) {label : String} (plain : digits label = []) :
    b.Tidies (b.attach label).2 :=
  (create b plain).trans (append _ _)

theorem Live.attached (b : FunctionBuilder) {label : String} (target : TargetLabel label) :
    (b.attach label).2.Live b.arena.length :=
  (created b target).kept (.append _ _)

theorem Tidies.ensureOpen (b : FunctionBuilder) : b.Tidies b.ensureOpen.2 := by
  have dead : b.Tidies (ensureOpen.openDead b).2 := (attach b (by decide : digits "dead" = [])).trans (switchTo _ _)
  unfold FunctionBuilder.ensureOpen
  split
  · split
    · exact dead
    · exact refl b
  · exact dead

theorem labelOf_update (b : FunctionBuilder) (id other : Nat) {f : Block → Block}
    (label : ∀ block, (f block).label = block.label) : (b.update id f).labelOf other = b.labelOf other := by
  rw [labelOf, labelOf, getElem?_update]
  split
  · rw [Option.map_map]
    exact congrArg (b.arena[other]?.map ·) (funext label)
  · rfl

theorem Tidies.emit (b : FunctionBuilder) (i : Instruction) : b.Tidies (b.emit i) :=
  (ensureOpen b).trans (.same (fun _ => labelOf_update _ _ _ fun _ => rfl) fun _ => exit_update _ _ _ fun _ => rfl)

theorem Tidies.alloca (b : FunctionBuilder) (ty : Ty) : b.Tidies (b.alloca ty).2 := by
  unfold FunctionBuilder.alloca
  simp only [newReg]
  split
  · exact (bump b _).trans (emit _ _)
  · exact .same (fun _ => labelOf_update b _ _ fun _ => rfl) fun _ => exit_update b _ _ fun _ => rfl

theorem exit_terminated (b : FunctionBuilder) {id other : Nat} {t exit : Terminator}
    (found : (b.update id fun block => { block with terminator := some t }).exit other = some exit) :
    exit = t ∨ b.exit other = some exit := by
  rw [FunctionBuilder.exit, getElem?_update] at found
  split at found
  · cases known : b.arena[other]? with
    | none => rw [known] at found; cases found
    | some block =>
      rw [known] at found
      exact .inl (Option.some.inj found).symm
  · exact .inr found

theorem Tidies.terminate {t : Terminator} (live : ∀ target ∈ t.successors, b.Live target) :
    b.Tidies (b.terminate t) := by
  have opened := ensureOpen b
  have labels (id : Nat) : (b.terminate t).labelOf id = b.ensureOpen.2.labelOf id :=
    labelOf_update _ _ _ fun _ => rfl
  refine opened.trans ⟨fun found => (labels _).trans found, fun labelled => ⟨?_, ?_, ?_⟩⟩
  · exact fun found => labelled.numbered (labels _ ▸ found)
  · exact fun found found' => labelled.distinct (labels _ ▸ found) (labels _ ▸ found')
  · intro id exit found target branch
    have before : b.ensureOpen.2.Live target := by
      rcases exit_terminated _ found with rfl | earlier
      · exact (live target branch).kept opened
      · exact labelled.live earlier target branch
    obtain ⟨label, found, alive⟩ := before
    exact ⟨label, (labels _).trans found, alive⟩

theorem Tidies.jump {id : Nat} (live : b.Live id) : b.Tidies (b.terminate (.br id)) :=
  terminate (by simpa [Terminator.successors] using live)

theorem Tidies.choose (cond : Value) {onTrue onFalse : Nat} (live : b.Live onTrue) (live' : b.Live onFalse) :
    b.Tidies (b.terminate (.condBr cond onTrue onFalse)) :=
  terminate (by simpa [Terminator.successors] using ⟨live, live'⟩)

/-- Into the test of a loop, with the block of its body and the one where it ends. -/
theorem Tidies.enterLoop (b : FunctionBuilder) :
    b.Tidies b.enterLoop ∧ b.enterLoop.Live b.arena.length ∧ b.enterLoop.Live (b.arena.length + 1) ∧
      b.enterLoop.Live (b.arena.length + 2) := by
  have test : TargetLabel "loop.cond" := .of_head (c := 'l') (by decide) (by decide) (by decide)
  have body : TargetLabel "loop.body" := .of_head (c := 'l') (by decide) (by decide) (by decide)
  have stop : TargetLabel "loop.end" := .of_head (c := 'l') (by decide) (by decide) (by decide)
  have first := attach b test.plain
  have second := attach (b.attach "loop.cond").2 body.plain
  have third := create ((b.attach "loop.cond").2.attach "loop.body").2 stop.plain
  have testLive := ((Live.attached b test).kept second).kept third
  have bodyLive := (Live.attached (b.attach "loop.cond").2 body).kept third
  have stopLive := Live.created ((b.attach "loop.cond").2.attach "loop.body").2 stop
  have entered := (jump testLive).trans (switchTo _ b.arena.length)
  simp only [size_attach] at bodyLive stopLive
  exact ⟨first.trans (second.trans (third.trans entered)), testLive.kept entered, bodyLive.kept entered,
    stopLive.kept entered⟩

theorem Tidies.enterBranch (b : FunctionBuilder) (cond : Value) : b.Tidies (b.enterBranch cond) := by
  have onTrue : TargetLabel "if.then" := .of_head (c := 'i') (by decide) (by decide) (by decide)
  have onFalse : TargetLabel "if.else" := .of_head (c := 'i') (by decide) (by decide) (by decide)
  have first := attach b onTrue.plain
  have second := create (b.attach "if.then").2 onFalse.plain
  have trueLive := (Live.attached b onTrue).kept second
  have falseLive := Live.created (b.attach "if.then").2 onFalse
  simp only [size_attach] at falseLive
  exact first.trans (second.trans ((choose cond trueLive falseLive).trans (switchTo _ b.arena.length)))

end FunctionBuilder

end StructLang.Ir
