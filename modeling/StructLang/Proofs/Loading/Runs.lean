import StructLang.Imports

namespace StructLang

def FileTree.document? (t : FileTree) (p : Path) : Option Document :=
  (t.readAt p).toOption.bind fun content => (parse content).toOption

mutual

/-- `Loads t active target loaded document loaded'`: while the files `active` are being loaded, an import of
`target` gives `document`. -/
inductive Loads (t : FileTree) : List Path → Path → List Path → Document → List Path → Prop
  | again {active target loaded} (present : t.has target = true) (idle : target ∉ active)
      (done : target ∈ loaded) : Loads t active target loaded [] loaded
  | opened {active target loaded read document loaded'} (idle : target ∉ active) (new : target ∉ loaded)
      (found : t.document? target = some read)
      (inside : Expands t (active ++ [target]) (t.baseAt target) read loaded document loaded') :
      Loads t active target loaded document (loaded'.insert target)

inductive Expands (t : FileTree) : List Path → Path → Document → List Path → Document → List Path → Prop
  | nil {active base loaded} : Expands t active base [] loaded [] loaded
  | keep {active base d rest loaded rest' loaded'} (other : d.importPath? = none)
      (others : Expands t active base rest loaded rest' loaded') :
      Expands t active base (d :: rest) loaded (d :: rest') loaded'
  | attach {active base d rest path loaded document between rest' loaded'} (named : d.importPath? = some path)
      (first : Loads t active (base.resolve path) loaded document between)
      (others : Expands t active base rest between rest' loaded') :
      Expands t active base (d :: rest) loaded (d.attach document :: rest') loaded'

end

mutual

inductive Fails (t : FileTree) : List Path → Path → List Path → LoadError → List Path → Prop
  | missing {active target loaded} (absent : t.has target = false) :
      Fails t active target loaded (.importing (.notFound target)) loaded
  | circular {active target loaded} (present : t.has target = true) (busy : target ∈ active) :
      Fails t active target loaded (.importing (.circular (active ++ [target]))) loaded
  | unreadable {active target loaded e} (present : t.has target = true) (idle : target ∉ active)
      (new : target ∉ loaded) (read : t.readAt target = .error e) :
      Fails t active target loaded (.importing (.unreadable target e)) loaded
  | faulty {active target loaded content e} (idle : target ∉ active) (new : target ∉ loaded)
      (read : t.readAt target = .ok content) (parsed : parse content = .error e) :
      Fails t active target loaded (.importing (.faulty target e)) loaded
  | inside {active target loaded read e loaded'} (idle : target ∉ active) (new : target ∉ loaded)
      (found : t.document? target = some read)
      (inside : Stops t (active ++ [target]) (t.baseAt target) read loaded e loaded') :
      Fails t active target loaded e loaded'

inductive Stops (t : FileTree) : List Path → Path → Document → List Path → LoadError → List Path → Prop
  | keep {active base d rest loaded e loaded'} (other : d.importPath? = none)
      (others : Stops t active base rest loaded e loaded') : Stops t active base (d :: rest) loaded e loaded'
  | here {active base d rest path loaded e loaded'} (named : d.importPath? = some path)
      (first : Fails t active (base.resolve path) loaded e loaded') :
      Stops t active base (d :: rest) loaded e loaded'
  | later {active base d rest path loaded document between e loaded'} (named : d.importPath? = some path)
      (first : Loads t active (base.resolve path) loaded document between)
      (others : Stops t active base rest between e loaded') : Stops t active base (d :: rest) loaded e loaded'

end

theorem toOption_eq_some_iff {ε α : Type} {r : Except ε α} {a : α} : r.toOption = some a ↔ r = .ok a := by
  cases r <;> simp [Except.toOption]

theorem FileTree.document?_eq_some_iff {t : FileTree} {p : Path} {d : Document} :
    t.document? p = some d ↔ ∃ content, t.readAt p = .ok content ∧ parse content = .ok d := by
  simp only [document?, Option.bind_eq_some_iff, toOption_eq_some_iff]

theorem FileTree.has_of_document {t : FileTree} {p : Path} {d : Document} (found : t.document? p = some d) :
    t.has p = true := by
  obtain ⟨content, read, -⟩ := document?_eq_some_iff.mp found
  simp [has, file?_of_readAt read]

theorem FileTree.walk_eq_ok {t : FileTree} {text : String} {p : Path} (found : t.walk text = .ok p) :
    p = t.current.resolve text := by
  have along (parts : List String) (start p : Path) (walked : t.walkFrom start parts = .ok p) :
      p = parts.foldl Path.follow start := by
    induction parts generalizing start with
    | nil =>
      cases walked
      rfl
    | cons part rest ih =>
      rw [walkFrom, List.foldlM_cons] at walked
      cases entered : t.enter start part with
      | error e =>
        rw [entered] at walked
        cases walked
      | ok q =>
        rw [entered] at walked
        have there : q = start.follow part := by
          unfold enter at entered
          split at entered
          · cases entered
          · split at entered
            · cases entered
              rfl
            · cases entered
        rw [List.foldl_cons, ← there]
        exact ih q walked
  unfold walk at found
  split at found
  · cases found
  · exact along _ _ _ found

namespace Load

variable {active : List Path}

def Ends (good : Document → List Path → Prop) (bad : LoadError → List Path → Prop) :
    EStateM.Result LoadError (Loader.At active) Document → Prop
  | .ok d l => good d l.loaded
  | .error e l => bad e l.loaded

def Follows (x : Load active Document) (good : List Path → Document → List Path → Prop)
    (bad : List Path → LoadError → List Path → Prop) : Prop :=
  ∀ l : Loader.At active, Ends (good l.loaded) (bad l.loaded) (x l)

section

variable {α β ε : Type} {l l' : Loader.At active} {x : Load active α} {f : α → Load active β}

theorem bind_of_ok {a : α} (ran : x l = .ok a l') : (x >>= f) l = f a l' := by
  change EStateM.bind x f l = _
  rw [EStateM.bind, ran]

theorem bind_of_error {e : LoadError} (ran : x l = .error e l') : (x >>= f) l = .error e l' := by
  change EStateM.bind x f l = _
  rw [EStateM.bind, ran]

theorem error_or_ok (r : Except ε α) : (∃ e, r = .error e) ∨ ∃ a, r = .ok a := by
  cases r with
  | error e => exact .inl ⟨e, rfl⟩
  | ok a => exact .inr ⟨a, rfl⟩

theorem ofExcept_of_ok {error : ε → LoadError} {r : Except ε α} {a : α} (same : r = .ok a) :
    ofExcept error r l = .ok ⟨a, same⟩ l := by
  subst same
  rfl

theorem ofExcept_of_error {error : ε → LoadError} {r : Except ε α} {e : ε} (same : r = .error e) :
    ofExcept error r l = .error (error e) l := by
  subst same
  rfl

theorem within_of_ok {p : Path} {y : Load (active ++ [p]) α} {a : α} {inner : Loader.At (active ++ [p])}
    (ran : y (l.push p) = .ok a inner) : within p y l = .ok a inner.pop := by
  rw [within, ran]

theorem within_of_error {p : Path} {y : Load (active ++ [p]) α} {e : LoadError} {inner : Loader.At (active ++ [p])}
    (ran : y (l.push p) = .error e inner) : within p y l = .error e inner.pop := by
  rw [within, ran]

end

theorem follows_expand {t : FileTree} {load : Path → Load active Document}
    (loads : ∀ target, Follows (load target) (Loads t active target) (Fails t active target)) (base : Path)
    (d : Document) : Follows (expand load base d) (Expands t active base d) (Stops t active base d) := by
  induction d with
  | nil => exact fun _ => .nil
  | cons d rest ih =>
    intro l
    rw [expand]
    cases named : d.importPath? with
    | none =>
      dsimp only
      have others := ih l
      cases run : expand load base rest l with
      | ok rest' l' =>
        rw [run] at others
        rw [bind_of_ok run]
        exact Expands.keep named others
      | error e l' =>
        rw [run] at others
        rw [bind_of_error run]
        exact Stops.keep named others
    | some path =>
      have first := loads (base.resolve path) l
      dsimp only
      cases run : load (base.resolve path) l with
      | error e l' =>
        rw [run] at first
        rw [bind_of_error run]
        exact Stops.here named first
      | ok document l' =>
        rw [run] at first
        rw [bind_of_ok run]
        have others := ih l'
        cases run : expand load base rest l' with
        | ok rest' l'' =>
          rw [run] at others
          rw [bind_of_ok run]
          exact Expands.attach named first others
        | error e l'' =>
          rw [run] at others
          rw [bind_of_error run]
          exact Stops.later named first others

theorem follows_importAt (t : FileTree) (active : List Path) (target : Path) :
    Follows (importAt t active target) (Loads t active target) (Fails t active target) := by
  induction idle : t.idle active using Nat.strongRecOn generalizing active target with
  | ind n ih =>
    intro l
    have start : (get : Load active (Loader.At active)) l = .ok l l := rfl
    rw [importAt, bind_of_ok start]
    split
    · rename_i absent
      exact Fails.missing (by simpa using absent)
    rename_i present
    have present : t.has target = true := by simpa using present
    split
    · rename_i busy
      rw [l.active_eq] at busy ⊢
      exact Fails.circular present busy
    rename_i unused
    rw [l.active_eq] at unused
    split
    · rename_i done
      exact Loads.again present unused done
    rename_i new
    rcases error_or_ok (t.readAt target) with ⟨e, read⟩ | ⟨content, read⟩
    · rw [bind_of_error (ofExcept_of_error read)]
      exact Fails.unreadable present unused new read
    rw [bind_of_ok (ofExcept_of_ok read)]
    dsimp only
    rcases error_or_ok (parse content) with ⟨e, parsed⟩ | ⟨d, parsed⟩
    · rw [bind_of_error (within_of_error (bind_of_error (ofExcept_of_error parsed)))]
      exact Fails.faulty unused new read parsed
    have found := FileTree.document?_eq_some_iff.mpr ⟨content, read, parsed⟩
    have fewer : t.idle (active ++ [target]) < n := idle ▸ FileTree.idle_lt read unused
    have inside := follows_expand (fun q => ih _ fewer (active ++ [target]) q rfl) (t.baseAt target) d (l.push target)
    cases run : expand (importAt t (active ++ [target])) (t.baseAt target) d (l.push target) with
    | error e inner =>
      rw [run] at inside
      rw [bind_of_error (within_of_error ((bind_of_ok (ofExcept_of_ok parsed)).trans run))]
      exact Fails.inside unused new found inside
    | ok document inner =>
      rw [run] at inside
      rw [bind_of_ok (within_of_ok ((bind_of_ok (ofExcept_of_ok parsed)).trans run))]
      exact Loads.opened unused new found inside

theorem importAt_of_absent {t : FileTree} {target : Path} {l : Loader.At active} (absent : t.has target = false) :
    importAt t active target l = .error (.importing (.notFound target)) l := by
  have start : (get : Load active (Loader.At active)) l = .ok l l := rfl
  rw [importAt, bind_of_ok start, if_pos (by simp [absent])]
  rfl

theorem importAt_of_loaded {t : FileTree} {target : Path} {l : Loader.At active} (present : t.has target = true)
    (idle : target ∉ active) (done : target ∈ l.loaded) : importAt t active target l = .ok [] l := by
  have start : (get : Load active (Loader.At active)) l = .ok l l := rfl
  have unused : target ∉ l.active := by rwa [l.active_eq]
  rw [importAt, bind_of_ok start, if_neg (by simp [present]), dif_neg unused, if_pos done]
  rfl

theorem importAt_of_new {t : FileTree} {target : Path} {l : Loader.At active} {inner : Loader.At (active ++ [target])}
    {read d : Document} (idle : target ∉ active) (new : target ∉ l.loaded) (found : t.document? target = some read)
    (ran : expand (importAt t (active ++ [target])) (t.baseAt target) read (l.push target) = .ok d inner) :
    importAt t active target l = .ok d (inner.pop.mark target) := by
  have start : (get : Load active (Loader.At active)) l = .ok l l := rfl
  have unused : target ∉ l.active := by rwa [l.active_eq]
  obtain ⟨content, text, parsed⟩ := FileTree.document?_eq_some_iff.mp found
  rw [importAt, bind_of_ok start, if_neg (by simp [FileTree.has_of_document found]), dif_neg unused, if_neg new,
    bind_of_ok (ofExcept_of_ok text)]
  exact bind_of_ok (within_of_ok ((bind_of_ok (ofExcept_of_ok parsed)).trans ran))

mutual

/-- What `Loads` describes is a run. -/
theorem importAt_of_loads {t : FileTree} {active loaded loaded' : List Path} {target : Path} {d : Document} :
    Loads t active target loaded d loaded' → ∀ l : Loader.At active, l.loaded = loaded →
      ∃ l', importAt t active target l = .ok d l' ∧ l'.loaded = loaded'
  | .again present idle done, l, same => ⟨l, importAt_of_loaded present idle (same ▸ done), same⟩
  | .opened idle new found inside, l, same => by
    obtain ⟨inner, ran, rfl⟩ := expand_of_expands inside (l.push _) same
    exact ⟨_, importAt_of_new idle (same ▸ new) found ran, rfl⟩

theorem expand_of_expands {t : FileTree} {active loaded loaded' : List Path} {base : Path} {read d : Document} :
    Expands t active base read loaded d loaded' → ∀ l : Loader.At active, l.loaded = loaded →
      ∃ l', expand (importAt t active) base read l = .ok d l' ∧ l'.loaded = loaded'
  | .nil, l, same => ⟨l, rfl, same⟩
  | .keep other others, l, same => by
    obtain ⟨l', ran, after⟩ := expand_of_expands others l same
    refine ⟨l', ?_, after⟩
    rw [expand, other]
    exact bind_of_ok ran
  | .attach named first others, l, same => by
    obtain ⟨between, ran, same⟩ := importAt_of_loads first l same
    obtain ⟨l', ran', after⟩ := expand_of_expands others between same
    refine ⟨l', ?_, after⟩
    rw [expand, named]
    exact (bind_of_ok ran).trans (bind_of_ok ran')

end

def countRoot (root : Option Path) (loaded : List Path) : List Path := root.elim loaded loaded.insert

/-- A text that is faulty is not loaded; for any other the imports are. -/
theorem ends_document (t : FileTree) (base : Path) (text : String) (l : Loader.At active) :
    Ends (fun d loaded => ∃ read, parse text = .ok read ∧ Expands t active base read l.loaded d loaded)
      (fun e loaded => (∃ fault, parse text = .error fault ∧ e = .read fault ∧ loaded = l.loaded) ∨
        ∃ read, parse text = .ok read ∧ Stops t active base read l.loaded e loaded)
      (document t base text l) := by
  unfold document
  rcases error_or_ok (parse text) with ⟨fault, parsed⟩ | ⟨read, parsed⟩
  · rw [bind_of_error (ofExcept_of_error parsed)]
    exact .inl ⟨fault, parsed, rfl, rfl⟩
  · have inside := follows_expand (follows_importAt t active) base read l
    rw [bind_of_ok (ofExcept_of_ok parsed)]
    dsimp only
    cases run : expand (importAt t active) base read l with
    | error e l' =>
      rw [run] at inside
      exact .inr ⟨read, parsed, inside⟩
    | ok d l' =>
      rw [run] at inside
      exact ⟨read, parsed, inside⟩

/-- The same of a text that may come from a file: that file is active, and counts as loaded at once. -/
theorem ends_source (t : FileTree) (text : String) (origin : Option String) (l : Loader.At active) :
    Ends (fun d loaded => ∃ read, parse text = .ok read ∧
        Expands t (active ++ (rootOf t origin).toList) (baseOf t origin) read (countRoot (rootOf t origin) l.loaded) d loaded)
      (fun e loaded => (∃ fault, parse text = .error fault ∧ e = .read fault ∧
          loaded = countRoot (rootOf t origin) l.loaded) ∨
        ∃ read, parse text = .ok read ∧
          Stops t (active ++ (rootOf t origin).toList) (baseOf t origin) read (countRoot (rootOf t origin) l.loaded) e loaded)
      (source t text origin l) := by
  unfold source
  cases from' : rootOf t origin with
  | none =>
    have inside := ends_document t (baseOf t origin) text l
    simp only [Option.toList_none, List.append_nil]
    exact inside
  | some root =>
    have marked : (modify (·.mark root) : Load active PUnit) l = .ok ⟨⟩ (l.mark root) := rfl
    have inside := ends_document t (baseOf t origin) text ((l.mark root).push root)
    dsimp only
    rw [bind_of_ok marked]
    cases run : document t (baseOf t origin) text ((l.mark root).push root) with
    | error e l' =>
      rw [run] at inside
      rw [within_of_error run]
      exact inside
    | ok d l' =>
      rw [run] at inside
      rw [within_of_ok run]
      exact inside

/-- A file that is read first, with nothing loaded before it. -/
theorem ends_file_fresh {t : FileTree} {path : String} {root : Path} {read : Document} (found : t.walk path = .ok root)
    (document : t.document? root = some read) :
    Ends (Expands t [root] (t.baseAt root) read [root]) (Stops t [root] (t.baseAt root) read [root])
      (file t path .fresh) := by
  obtain ⟨content, text, parsed⟩ := FileTree.document?_eq_some_iff.mp document
  have opened : t.read path = .ok content := by
    rw [FileTree.read, found]
    exact text
  have origin : rootOf t (some path) = some root := by rw [rootOf, Option.bind_some, found, Except.toOption]
  have base : baseOf t (some path) = t.baseAt root := by
    rw [baseOf, Option.map_some, Option.getD_some, ← FileTree.walk_eq_ok found]
  have inside := ends_source t content (some path) .fresh
  have start : countRoot (some root) [] = [root] := rfl
  rw [origin, base, parsed] at inside
  unfold file
  rw [bind_of_ok (ofExcept_of_ok opened)]
  dsimp only
  cases run : source t content (some path) .fresh with
  | ok d l =>
    rw [run] at inside
    obtain ⟨_, same, expands⟩ := inside
    cases same
    exact expands
  | error e l =>
    rw [run] at inside
    rcases inside with ⟨_, same, _⟩ | ⟨_, same, stops⟩
    · cases same
    · cases same
      exact stops

end Load

end StructLang
