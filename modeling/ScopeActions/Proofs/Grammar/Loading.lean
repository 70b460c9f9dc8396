import ScopeActions.Bundled
import ScopeActions.Proofs.Grammar.History
/-!
# Loading files

In any history the file at a path is loaded at most once. An attempt that is refused changes nothing, and one that
succeeds brings in the grammar of the file and nothing else (`LoadedGrammars.loadFile_once`). So it is with any reader of
JSON, and with another one at each attempt.
-/

namespace ScopeActions.LoadedGrammars

variable {l l' : LoadedGrammars} {read : JsonReader} {fs : FileSystem} {path : String} {e : GrammarError} {g : Grammar}
  {steps : List GrammarStep}

/-- The path is one of a file whose text is this grammar, which has a scope. -/
structure Loadable (read : JsonReader) (fs : FileSystem) (path : String) (g : Grammar) : Prop where
  extension : (Path.ofText path).extension? = some "json"
  decoded : ∃ text, fs.readText path = .ok text ∧ (read text).bind Grammar.ofJson? = some g
  scopeName : g.scopeName ≠ ""

/-- What stands in the way of loading a file. Each reason supposes that those before it do not hold. -/
inductive Refuses (read : JsonReader) (fs : FileSystem) (path : String) : GrammarError → Prop
  | unsupportedFormat : (Path.ofText path).extension? ≠ some "json" → Refuses read fs path (.unsupportedFormat path)
  | io {e : IoError} : (Path.ofText path).extension? = some "json" → fs.readText path = .error e →
      Refuses read fs path (.io path e)
  | json {text : String} : (Path.ofText path).extension? = some "json" → fs.readText path = .ok text →
      (read text).bind Grammar.ofJson? = none → Refuses read fs path (.json path)
  | missingScopeName {text : String} {g : Grammar} : (Path.ofText path).extension? = some "json" →
      fs.readText path = .ok text → (read text).bind Grammar.ofJson? = some g → g.scopeName = "" →
      Refuses read fs path (.missingScopeName path)

/-- The second set is the first with the grammar of a file brought in: in place of the one with its scope if there is one,
and else at the end. -/
structure Gains (l : LoadedGrammars) (path : String) (g : Grammar) (l' : LoadedGrammars) : Prop where
  scopes : l'.scopes = if g.scopeName ∈ l.scopes then l.scopes else l.scopes ++ [g.scopeName]
  loaded : Assoc.keys l'.pristine =
    if g.scopeName ∈ Assoc.keys l.pristine then Assoc.keys l.pristine else Assoc.keys l.pristine ++ [g.scopeName]
  get? : ∀ s, l'.get? s = if g.scopeName = s then some g else l.get? s
  pristine? : ∀ s, l'.pristine? s = if g.scopeName = s then some g else l.pristine? s
  paths : l'.paths = l.paths ++ [pathKey path]

/-- An attempt of the history at this path gave a scope. -/
def HasLoaded (steps : List GrammarStep) (path : String) : Prop :=
  ∃ before read fs p scope l', before ++ [.loadFile read fs p] <+: steps ∧ pathKey p = pathKey path ∧
    (after before).loadFile read fs p = (.ok (some scope), l')

/-! ## One attempt -/

theorem loadable_or_refuses (read : JsonReader) (fs : FileSystem) (path : String) :
    (∃ g, Loadable read fs path g) ∨ ∃ e, Refuses read fs path e := by
  by_cases hext : (Path.ofText path).extension? = some "json"
  · cases htext : fs.readText path with
    | error e => exact .inr ⟨_, .io hext htext⟩
    | ok text =>
      cases hg : (read text).bind Grammar.ofJson? with
      | none => exact .inr ⟨_, .json hext htext hg⟩
      | some g =>
        by_cases hscope : g.scopeName = ""
        · exact .inr ⟨_, .missingScopeName hext htext hg hscope⟩
        · exact .inl ⟨g, hext, ⟨text, htext, hg⟩, hscope⟩
  · exact .inr ⟨_, .unsupportedFormat hext⟩

theorem loadFile_of_loaded (hext : (Path.ofText path).extension? = some "json") (h : pathKey path ∈ l.paths) :
    l.loadFile read fs path = (.ok none, l) := by
  have hcontains : l.paths.contains (pathKey path) = true := List.contains_iff_mem.2 h
  rw [loadFile, if_neg (not_not_intro hext), if_pos hcontains]

theorem loadFile_of_new (hext : (Path.ofText path).extension? = some "json") (h : pathKey path ∉ l.paths) :
    l.loadFile read fs path =
      match readGrammar read fs path with
      | .error e => (.error e, l)
      | .ok g => (.ok (some g.scopeName), ({ l with paths := l.paths ++ [pathKey path] }.insert g).2) := by
  have hcontains : ¬l.paths.contains (pathKey path) = true := mt List.contains_iff_mem.1 h
  exact (if_neg (not_not_intro hext)).trans (if_neg hcontains)

theorem Loadable.readGrammar (h : Loadable read fs path g) : readGrammar read fs path = .ok g := by
  obtain ⟨text, htext, hg⟩ := h.decoded
  simp [LoadedGrammars.readGrammar, htext, hg, h.scopeName]

/-- An attempt that is refused leaves the set as it is. -/
theorem loadFile_of_refuses (h : Refuses read fs path e) (hnew : pathKey path ∉ l.paths) :
    l.loadFile read fs path = (.error e, l) := by
  cases h with
  | unsupportedFormat hext => rw [loadFile, if_pos hext]
  | io hext htext => simp [loadFile_of_new hext hnew, readGrammar, htext]
  | json hext htext hg => simp [loadFile_of_new hext hnew, readGrammar, htext, hg]
  | missingScopeName hext htext hg hscope => simp [loadFile_of_new hext hnew, readGrammar, htext, hg, hscope]

theorem loadFile_of_loadable (h : Loadable read fs path g) (hnew : pathKey path ∉ l.paths) :
    l.loadFile read fs path = (.ok (some g.scopeName), ({ l with paths := l.paths ++ [pathKey path] }.insert g).2) := by
  rw [loadFile_of_new h.extension hnew, h.readGrammar]

theorem gains_insert (l : LoadedGrammars) (path : String) (g : Grammar) :
    l.Gains path g ({ l with paths := l.paths ++ [pathKey path] }.insert g).2 where
  scopes := Assoc.keys_put ..
  loaded := Assoc.keys_put ..
  get? := Assoc.get?_put _ _ _
  pristine? := Assoc.get?_put _ _ _
  paths := rfl

/-! ## Histories -/

theorem extension_of_loadFile {scope : Option String} (h : l.loadFile read fs path = (.ok scope, l')) :
    (Path.ofText path).extension? = some "json" := by
  by_contra hext
  rw [loadFile, if_pos hext] at h
  cases h

/-- Only an attempt that gives a scope adds to the paths. -/
theorem mem_paths_step (l : LoadedGrammars) (s : GrammarStep) (k : Bool × Path) :
    k ∈ (l.step s).paths ↔ k ∈ l.paths ∨
      ∃ read fs p scope l', s = .loadFile read fs p ∧ pathKey p = k ∧ l.loadFile read fs p = (.ok (some scope), l') := by
  cases s with
  | loadFile read fs p =>
    rcases l.loadFile_cases read fs p with ⟨e, h⟩ | h | ⟨g, -, h⟩
    · simp [step, h]
    · simp [step, h]
    · simp [step, h, LoadedGrammars.insert, eq_comm]
  | insert g hg => simp [step, LoadedGrammars.insert]
  | prune keep => simp [step, prune]
  | pruneFrom scope keep => by_cases hs : l.contains scope = true <;> simp [step, pruneFrom, hs]
  | reset => simp [step, reset]

theorem hasLoaded_concat (steps : List GrammarStep) (s : GrammarStep) (path : String) :
    HasLoaded (steps ++ [s]) path ↔ HasLoaded steps path ∨
      ∃ read fs p scope l', s = .loadFile read fs p ∧ pathKey p = pathKey path ∧
        (after steps).loadFile read fs p = (.ok (some scope), l') := by
  unfold HasLoaded
  constructor
  · rintro ⟨before, read, fs, p, scope, l', hprefix, hkey, h⟩
    rcases List.prefix_concat_iff.1 hprefix with heq | hprefix
    · obtain ⟨rfl, hs⟩ := List.append_inj' heq rfl
      exact .inr ⟨read, fs, p, scope, l', (List.cons.inj hs).1.symm, hkey, h⟩
    · exact .inl ⟨before, read, fs, p, scope, l', hprefix, hkey, h⟩
  · rintro (⟨before, read, fs, p, scope, l', hprefix, hkey, h⟩ | ⟨read, fs, p, scope, l', rfl, hkey, h⟩)
    · exact ⟨before, read, fs, p, scope, l', hprefix.trans (List.prefix_append _ _), hkey, h⟩
    · exact ⟨steps, read, fs, p, scope, l', List.prefix_rfl, hkey, h⟩

/-- The paths of a set are those at which an attempt gave a scope. -/
theorem mem_paths_after (steps : List GrammarStep) (path : String) :
    pathKey path ∈ (after steps).paths ↔ HasLoaded steps path := by
  induction steps using List.reverseRecOn with
  | nil =>
    refine iff_of_false List.not_mem_nil ?_
    rintro ⟨before, read, fs, p, -, -, hprefix, -⟩
    exact absurd (List.prefix_nil.1 hprefix) (List.concat_ne_nil _ _)
  | append_singleton steps s ih => rw [after_concat, mem_paths_step, hasLoaded_concat, ih]

theorem HasLoaded.extension (h : HasLoaded steps path) : (Path.ofText path).extension? = some "json" := by
  obtain ⟨before, read, fs, p, scope, l', -, hkey, h⟩ := h
  exact (congrArg (·.2.extension?) hkey).symm.trans (extension_of_loadFile h)

/-- In any history, an attempt to load a file has one of three results. Where the file was loaded before, it gives nothing
and leaves the set as it is, whatever the file holds by then. Else it is refused for the first reason that stands against
it, and all is as it was: the set, the files that have been loaded and what later attempts at them give. Or the file is a
grammar, which is brought in under its scope. -/
theorem loadFile_once (steps : List GrammarStep) (read : JsonReader) (fs : FileSystem) (path : String) :
    let l := after steps
    let later := after (steps ++ [.loadFile read fs path])
    (HasLoaded steps path ∧ l.loadFile read fs path = (.ok none, l) ∧ later = l) ∨
      ¬HasLoaded steps path ∧
        ((∃ e, Refuses read fs path e ∧ l.loadFile read fs path = (.error e, l) ∧ later = l ∧
            ∀ read' fs' p g, pathKey p = pathKey path → Loadable read' fs' p g →
              ∃ l', later.loadFile read' fs' p = (.ok (some g.scopeName), l') ∧ l.Gains p g l') ∨
          ∃ g l', Loadable read fs path g ∧ l.loadFile read fs path = (.ok (some g.scopeName), l') ∧ l.Gains path g l' ∧
            later = l') := by
  intro l later
  have hlater : later = l.step (.loadFile read fs path) := after_concat steps _
  by_cases hloaded : HasLoaded steps path
  · have hresult : l.loadFile read fs path = (.ok none, l) :=
      loadFile_of_loaded hloaded.extension ((mem_paths_after steps path).2 hloaded)
    exact .inl ⟨hloaded, hresult, by rw [hlater, step, hresult]⟩
  · refine .inr ⟨hloaded, ?_⟩
    have hnew : pathKey path ∉ l.paths := mt (mem_paths_after steps path).1 hloaded
    rcases loadable_or_refuses read fs path with ⟨g, hg⟩ | ⟨e, he⟩
    · have hresult := loadFile_of_loadable hg hnew
      exact .inr ⟨g, _, hg, hresult, gains_insert l path g, by rw [hlater, step, hresult]⟩
    · have hresult := loadFile_of_refuses he hnew
      have hsame : later = l := by rw [hlater, step, hresult]
      refine .inl ⟨e, he, hresult, hsame, fun read' fs' p g hkey hg => ?_⟩
      rw [hsame]
      exact ⟨_, loadFile_of_loadable hg (hkey ▸ hnew), gains_insert l p g⟩

/-- A file system whose files all have this text. -/
def holding (text : String) : FileSystem := fun _ => .ok (.file text.toUTF8)

theorem readText_holding (text path : String) : (holding text).readText path = .ok text := by
  have hvalid : text.toUTF8.IsValidUTF8 := text.isValidUTF8
  rw [FileSystem.readText, FileSystem.readBytes, holding]
  dsimp only
  rw [String.fromUTF8?, dif_pos hvalid]
  rfl

/-- The text of a grammar that has a scope and nothing else. -/
def bareText : String := "\x7b\"scopeName\":\"n\"\x7d"

theorem loadable_bare : Loadable Libraries.bundled.json (holding bareText) "d//n.json" { scopeName := "n" } where
  extension := by decide +kernel
  decoded := by
    have hchars : bareText.toList =
        ['\x7b', '"', 's', 'c', 'o', 'p', 'e', 'N', 'a', 'm', 'e', '"', ':', '"', 'n', '"', '\x7d'] := by decide +kernel
    have hparse : Libraries.bundled.json bareText = some (.obj [("scopeName", .str "n")]) := by
      simp [Libraries.bundled, Json.parse?, Json.parseWithin?, hchars, Json.readValue, Json.readFields, Json.skipSpace,
        Json.isSpace, Json.readString, Json.maxDepth]
    refine ⟨bareText, readText_holding bareText _, ?_⟩
    rw [hparse]
    simp [Grammar.ofJson?, Grammar.single?, Json.str?, Grammar.typedFields, Rule.ofFields?_nil]
  scopeName := by decide

/-- A file that is empty at first is loaded when it holds a grammar. -/
theorem loadFile_once_retried :
    let read := Libraries.bundled.json
    pathKey "d//n.json" = pathKey "d/n.json" ∧ Loadable read (holding bareText) "d//n.json" { scopeName := "n" } ∧
    ∃ l', (after [.loadFile read (holding "") "d/n.json"]).loadFile read (holding bareText) "d//n.json" =
        (.ok (some "n"), l') ∧
      l'.scopes = ["n"] := by
  intro read
  have hkey : pathKey "d//n.json" = pathKey "d/n.json" := by decide +kernel
  refine ⟨hkey, loadable_bare, ?_⟩
  rcases loadFile_once [] read (holding "") "d/n.json" with ⟨hloaded, -⟩ | ⟨-, ⟨_, -, -, -, hretry⟩ | ⟨g, _, hg, -⟩⟩
  · exact absurd ((mem_paths_after [] _).2 hloaded) List.not_mem_nil
  · obtain ⟨l', hresult, hgains⟩ := hretry _ _ _ _ hkey loadable_bare
    exact ⟨l', hresult, hgains.scopes⟩
  · obtain ⟨text, htext, hdecoded⟩ := hg.decoded
    obtain rfl : "" = text := Except.ok.inj ((readText_holding "" _).symm.trans htext)
    have hparse : read "" = none := by decide +kernel
    rw [hparse] at hdecoded
    cases hdecoded

end ScopeActions.LoadedGrammars
