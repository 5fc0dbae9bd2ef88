import StructLang.Proofs.Loading.Flattening

namespace StructLang

open FileTree

/-- `Blocked t loaded active targets`: of the files `targets`, which are imported one after the other, some are
skipped since they are loaded already, and the next one fails before a file has been loaded for it. -/
inductive Blocked (t : FileTree) (loaded : List Path) : List Path → List Path → Prop
  | skip {active target rest} (present : t.has target = true) (idle : target ∉ active) (done : target ∈ loaded)
      (others : Blocked t loaded active rest) : Blocked t loaded active (target :: rest)
  | absent {active target rest} (absent : t.has target = false) : Blocked t loaded active (target :: rest)
  | circular {active target rest} (busy : target ∈ active) : Blocked t loaded active (target :: rest)
  | unread {active target rest} (new : target ∉ loaded) (unread : t.document? target = none) :
      Blocked t loaded active (target :: rest)
  | inside {active target rest imports} (new : target ∉ loaded) (found : t.imports? target = some imports)
      (inside : Blocked t loaded (active ++ [target]) imports) : Blocked t loaded active (target :: rest)

theorem FileTree.imports?_of_document {t : FileTree} {p : Path} {d : Document} (found : t.document? p = some d) :
    t.imports? p = some (importsFrom (t.baseAt p) d) := by
  rw [imports?, found, Option.map_some]

section

variable {t : FileTree} {active loaded rest : List Path} {target : Path} {read : Document}

/-- A file that is opened blocks the imports only from inside. -/
theorem Blocked.of_opened (blocked : Blocked t loaded active (target :: rest)) (idle : target ∉ active)
    (new : target ∉ loaded) (found : t.document? target = some read) :
    Blocked t loaded (active ++ [target]) (importsFrom (t.baseAt target) read) := by
  cases blocked with
  | skip _ _ done => exact absurd done new
  | absent absent =>
    rw [has_of_document found] at absent
    cases absent
  | circular busy => exact absurd busy idle
  | unread _ unread => cases found.symm.trans unread
  | inside _ found' inside =>
    cases (imports?_of_document found).symm.trans found'
    exact inside

/-- A file that is skipped blocks nothing. -/
theorem Blocked.of_skipped (blocked : Blocked t loaded active (target :: rest)) (present : t.has target = true)
    (idle : target ∉ active) (done : target ∈ loaded) : Blocked t loaded active rest := by
  cases blocked with
  | skip _ _ _ others => exact others
  | absent absent => cases present.symm.trans absent
  | circular busy => exact absurd busy idle
  | unread new => exact absurd done new
  | inside new => exact absurd done new

end

mutual

/-- Where imports are blocked, one that succeeds has been skipped. -/
theorem Loads.blocked {t : FileTree} {active loaded between rest : List Path} {target : Path} {d : Document} :
    Loads t active target loaded d between → Blocked t loaded active (target :: rest) →
      between = loaded ∧ Blocked t loaded active rest
  | .again present idle done, blocked => ⟨rfl, blocked.of_skipped present idle done⟩
  | .opened idle new found inside, blocked => absurd (blocked.of_opened idle new found) inside.not_blocked

theorem Expands.not_blocked {t : FileTree} {active loaded loaded' : List Path} {base : Path} {read d : Document} :
    Expands t active base read loaded d loaded' → ¬Blocked t loaded active (importsFrom base read)
  | .nil => by rintro ⟨⟩
  | .keep other others => by
    rw [importsFrom_cons_of_none other]
    exact others.not_blocked
  | .attach named first others => by
    have free := others.not_blocked
    rw [importsFrom_cons_of_some named]
    intro blocked
    obtain ⟨same, later⟩ := first.blocked blocked
    exact free (same ▸ later)

end

/-- An import that adds no file has been skipped. -/
theorem Loads.skipped {t : FileTree} {active loaded loaded' : List Path} {target : Path} {d : Document}
    (loads : Loads t active target loaded d loaded') (same : loaded' = loaded) :
    t.has target = true ∧ target ∉ active ∧ target ∈ loaded := by
  cases loads with
  | again present idle done => exact ⟨present, idle, done⟩
  | opened idle new => exact absurd (same ▸ List.mem_insert_self) new

mutual

/-- An import that fails adds no file exactly if it is blocked. -/
theorem Fails.unchanged_iff {t : FileTree} {active loaded loaded' rest : List Path} {target : Path} {e : LoadError} :
    Fails t active target loaded e loaded' → (loaded' = loaded ↔ Blocked t loaded active (target :: rest))
  | .missing absent => iff_of_true rfl (.absent absent)
  | .circular _ busy => iff_of_true rfl (.circular busy)
  | .unreadable _ _ new failed => by
    have unread : t.document? target = none := by rw [document?, failed, Except.toOption, Option.bind_none]
    exact iff_of_true rfl (.unread new unread)
  | .faulty _ new text failed => by
    have unread : t.document? target = none := by
      rw [document?, text, Except.toOption, Option.bind_some, failed, Except.toOption]
    exact iff_of_true rfl (.unread new unread)
  | .inside idle new found inside => by
    rw [inside.unchanged_iff]
    constructor
    · intro blocked
      exact .inside new (imports?_of_document found) blocked
    · intro blocked
      exact blocked.of_opened idle new found

theorem Stops.unchanged_iff {t : FileTree} {active loaded loaded' : List Path} {base : Path} {read : Document}
    {e : LoadError} :
    Stops t active base read loaded e loaded' → (loaded' = loaded ↔ Blocked t loaded active (importsFrom base read))
  | .keep other others => by
    rw [importsFrom_cons_of_none other]
    exact others.unchanged_iff
  | .here named first => by
    rw [importsFrom_cons_of_some named]
    exact first.unchanged_iff
  | .later named first others => by
    have onward := others.unchanged_iff
    rw [importsFrom_cons_of_some named]
    constructor
    · intro same
      -- Files are only added, so that none has been added halfway either.
      have halfway := first.suffix.eq_of_length_le (same ▸ others.suffix.length_le)
      obtain ⟨present, idle, done⟩ := first.skipped halfway.symm
      rw [← halfway] at onward
      exact .skip present idle done (onward.mp same)
    · intro blocked
      obtain ⟨same, later⟩ := first.blocked blocked
      rw [same] at onward
      exact onward.mpr later

end

namespace Load

variable {t : FileTree} {active : List Path} {text : String} {origin : Option String} {e : LoadError}
  {l l' : Loader.At active}

theorem suffix_countRoot (root : Option Path) (loaded : List Path) : loaded <:+ countRoot root loaded := by
  cases root with
  | none => exact List.suffix_refl _
  | some p => exact List.suffix_insert p loaded

theorem countRoot_eq_self_iff {root : Option Path} {loaded : List Path} :
    countRoot root loaded = loaded ↔ ∀ p, root = some p → p ∈ loaded := by
  cases root with
  | none => simp [countRoot]
  | some p =>
    rw [countRoot, Option.elim_some]
    constructor
    · rintro same _ ⟨⟩
      rw [← same]
      exact List.mem_insert_self
    · intro member
      exact List.insert_of_mem (member p rfl)

/-- Loading a text fails without a trace: the file that it comes from counts as loaded already, and the text is
faulty or its imports are blocked. -/
def Traceless (t : FileTree) (l : Loader.At active) (text : String) (origin : Option String) : Prop :=
  (∀ root, rootOf t origin = some root → root ∈ l.loaded) ∧
  ∀ read, parse text = .ok read →
    Blocked t l.loaded (active ++ (rootOf t origin).toList) (importsFrom (baseOf t origin) read)

theorem loader_eq_iff : l' = l ↔ l'.loaded = l.loaded := by
  obtain ⟨⟨loaded, files⟩, here⟩ := l
  obtain ⟨⟨loaded', files'⟩, here'⟩ := l'
  have same : files' = files := here'.trans here.symm
  simp [same]

/-- The files that are loaded when a text fails: those from before, and more unless it is traceless. -/
theorem source_error (failed : source t text origin l = .error e l') :
    l.loaded <:+ l'.loaded ∧ (l' = l ↔ Traceless t l text origin) := by
  have ends := ends_source t text origin l
  have counted := suffix_countRoot (rootOf t origin) l.loaded
  rw [failed] at ends
  rw [loader_eq_iff, Traceless, ← countRoot_eq_self_iff]
  rcases ends with ⟨fault, parsed, -, same⟩ | ⟨read, parsed, stops⟩
  · rw [parsed, same]
    exact ⟨counted, fun unchanged => ⟨unchanged, by rintro _ ⟨⟩⟩, fun traceless => traceless.1⟩
  · have added := stops.suffix
    have blocked := stops.unchanged_iff
    refine ⟨counted.trans added, ?_, ?_⟩
    · intro unchanged
      have first : countRoot (rootOf t origin) l.loaded = l.loaded :=
        (counted.eq_of_length_le (unchanged ▸ added.length_le)).symm
      rw [first] at blocked
      refine ⟨first, ?_⟩
      intro read' parsed'
      cases parsed.symm.trans parsed'
      exact blocked.mp unchanged
    · rintro ⟨first, imports⟩
      rw [first] at blocked
      exact blocked.mpr (imports read parsed)

theorem Traceless.fails (traceless : Traceless t l text origin) : ∃ e l', source t text origin l = .error e l' := by
  have ends := ends_source t text origin l
  rw [countRoot_eq_self_iff.mpr traceless.1] at ends
  cases ran : source t text origin l with
  | error e l' => exact ⟨e, l', rfl⟩
  | ok d l' =>
    rw [ran] at ends
    obtain ⟨read, parsed, expands⟩ := ends
    exact absurd (traceless.2 read parsed) expands.not_blocked

/-- A file that cannot be read leaves no trace; any other is loaded as its text. -/
theorem file_error {path : String} (failed : file t path l = .error e l') :
    l.loaded <:+ l'.loaded ∧ (l' = l ↔ ∀ text, t.read path = .ok text → Traceless t l text (some path)) := by
  unfold file at failed
  rcases error_or_ok (t.read path) with ⟨fault, unread⟩ | ⟨content, opened⟩
  · rw [bind_of_error (ofExcept_of_error unread)] at failed
    cases failed
    exact ⟨List.suffix_refl _, iff_of_true rfl (by simp [unread])⟩
  · rw [bind_of_ok (ofExcept_of_ok opened)] at failed
    simpa [opened] using source_error failed

end Load

/-- A load that fails has nothing more active than before and forgets no file that was loaded. It leaves the
loader as it was exactly if it is traceless. -/
theorem failed_load_keeps_loader_iff {t : FileTree} {active : List Path} (l : Loader.At active) :
    (∀ text origin e l', Load.source t text origin l = .error e l' →
      l'.active = l.active ∧ l.loaded <:+ l'.loaded ∧ (l' = l ↔ Load.Traceless t l text origin)) ∧
    ∀ path e l', Load.file t path l = .error e l' →
      l'.active = l.active ∧ l.loaded <:+ l'.loaded ∧
      (l' = l ↔ ∀ text, t.read path = .ok text → Load.Traceless t l text (some path)) := by
  have active_eq (l' : Loader.At active) : l'.active = l.active := l'.active_eq.trans l.active_eq.symm
  constructor
  · intro text origin e l' failed
    exact ⟨active_eq l', Load.source_error failed⟩
  · intro path e l' failed
    exact ⟨active_eq l', Load.file_error failed⟩

def gapTree : FileTree where
  files := [(⟨["a.ll"]⟩, .text "extern f()"), (⟨["gap.ll"]⟩, .text "import \"a.ll\" import \"gone.ll\"")]
  directories := []
  current := .root

/-- Once `a.ll` is loaded, an import of `gap.ll` fails without a trace. -/
theorem failed_load_keeps_loader_iff_gap :
    ∃ l : Loader.At [], l.loaded = [⟨["a.ll"]⟩] ∧ ∃ e, Load.source gapTree "import \"gap.ll\"" none l = .error e l := by
  let l : Loader.At [] := Loader.At.fresh.mark ⟨["a.ll"]⟩
  have parsed : parse "import \"gap.ll\"" = .ok [.importOf "gap.ll" ⟨0, 15⟩] := by cbv
  have target : importsFrom (Load.baseOf gapTree none) [.importOf "gap.ll" ⟨0, 15⟩] = [⟨["gap.ll"]⟩] := by cbv
  have gap : gapTree.imports? ⟨["gap.ll"]⟩ = some [⟨["a.ll"]⟩, ⟨["gone.ll"]⟩] := by cbv
  have present : gapTree.has ⟨["a.ll"]⟩ = true := by cbv
  have absent : gapTree.has ⟨["gone.ll"]⟩ = false := by cbv
  have blocked : Blocked gapTree l.loaded [] [⟨["gap.ll"]⟩] := by
    apply Blocked.inside (by decide) gap
    exact .skip present (by decide) (by decide) (.absent absent)
  have traceless : Load.Traceless gapTree l "import \"gap.ll\"" none := by
    constructor
    · rintro _ ⟨⟩
    · intro read parsed'
      cases parsed.symm.trans parsed'
      rw [target]
      exact blocked
  obtain ⟨e, l', failed⟩ := traceless.fails
  have kept : l' = l := ((failed_load_keeps_loader_iff l).1 _ _ e l' failed).2.2.mpr traceless
  exact ⟨l, rfl, e, kept ▸ failed⟩

/-- An import that succeeds before another one fails is lost: a text that is corrected to import `a.ll` alone
holds nothing, though with nothing loaded before it holds the function of `a.ll`. -/
theorem failed_load_hides_declarations :
    ∃ e l, Load.source gapTree "import \"a.ll\" import \"gone.ll\"" none .fresh = .error e l ∧
      (∃ d l', Load.source gapTree "import \"a.ll\"" none l = .ok d l' ∧ Document.flatten d = []) ∧
      ∃ d l', Load.source gapTree "import \"a.ll\"" none .fresh = .ok d l' ∧ ∃ f, Document.flatten d = [f] := by
  have text {l : Loader.At []} {text : String} {read : Document} (parsed : parse text = .ok read) :
      Load.source gapTree text none l = Load.expand (Load.importAt gapTree []) .root read l :=
    Load.bind_of_ok (Load.ofExcept_of_ok parsed)
  have both : parse "import \"a.ll\" import \"gone.ll\"" =
      .ok [.importOf "a.ll" ⟨0, 13⟩, .importOf "gone.ll" ⟨14, 30⟩] := by cbv
  have one : parse "import \"a.ll\"" = .ok [.importOf "a.ll" ⟨0, 13⟩] := by cbv
  let f : Decl := .external ⟨"f", ⟨7, 8⟩, .void, [], ⟨7, 10⟩⟩ ⟨0, 10⟩
  have found : gapTree.document? ⟨["a.ll"]⟩ = some [f] := by cbv
  have toA : Path.root.resolve "a.ll" = ⟨["a.ll"]⟩ := by cbv
  have absent : gapTree.has (Path.root.resolve "gone.ll") = false := by cbv
  have opened : Loads gapTree [] (Path.root.resolve "a.ll") [] [f] [⟨["a.ll"]⟩] := by
    rw [toA]
    exact .opened (by decide) (by decide) found (.keep rfl .nil)
  have again : Loads gapTree [] (Path.root.resolve "a.ll") [⟨["a.ll"]⟩] [] [⟨["a.ll"]⟩] := by
    rw [toA]
    exact .again (has_of_document found) (by decide) (by decide)
  have alone {loaded loaded' : List Path} {d : Document}
      (loads : Loads gapTree [] (Path.root.resolve "a.ll") loaded d loaded') :
      Expands gapTree [] .root [.importOf "a.ll" ⟨0, 13⟩] loaded [.imported "a.ll" ⟨0, 13⟩ d] loaded' :=
    .attach rfl loads .nil
  obtain ⟨l, ran, after⟩ := Load.importAt_of_loads opened .fresh rfl
  obtain ⟨l', emptied, -⟩ := Load.expand_of_expands (alone again) l after
  obtain ⟨l'', filled, -⟩ := Load.expand_of_expands (alone opened) .fresh rfl
  have failed : Load.source gapTree "import \"a.ll\" import \"gone.ll\"" none .fresh =
      .error (.importing (.notFound (Path.root.resolve "gone.ll"))) l := by
    rw [text both]
    apply (Load.bind_of_ok ran).trans
    exact Load.bind_of_error (Load.bind_of_error (Load.importAt_of_absent absent))
  exact ⟨_, l, failed, ⟨_, l', (text one).trans emptied, rfl⟩, ⟨_, l'', (text one).trans filled, f, rfl⟩⟩

end StructLang
