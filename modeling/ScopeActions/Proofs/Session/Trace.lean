import ScopeActions.Bundled
import ScopeActions.Proofs.Dispatch.Run
import ScopeActions.Session
/-!
# Traced runs

A traced run stores the name of the document, and the texts of each scope that it collects (`Session.gathered`). It
succeeds in turn and side by side, and stores the same whatever the order of turns (`Session.trace_gathers`).
-/

namespace ScopeActions

/-! ## Runs -/

namespace CommandM

theorem run_ofExcept_ok {δ α : Type} (wrap : δ → CommandError) (a : α) (out : Output) :
    (ofExcept wrap (.ok a)).run.run out = (.ok a, out) :=
  rfl

theorem run_writeLine (line : String) (out : Output) :
    (writeLine line).run.run out = (.ok (), { out with text := out.text ++ line ++ "\n" }) :=
  rfl

theorem run_modify (f : Output → Output) (out : Output) : (modify f : CommandM Unit).run.run out = (.ok (), f out) :=
  rfl

end CommandM

namespace Session

/-- A run of actions that keep to an invariant succeeds, and leads where some order of turns does. -/
theorem runTrace_keeps {I : World Unit → Prop} (d : Dispatcher Unit) (document : Document) (stream : TokenStream)
    (j : Journal Unit) (hj : I j.world) (hlength : document.lines.length ≤ stream.records.length)
    (hphases : ∀ phase ∈ Dispatcher.phases, ∀ l ∈ d.phaseLaunches phase [document.name], l.task.Keeps I (.ok ()))
    (hlines : ∀ p ∈ document.lines.zip stream.records, ∀ n, ∀ l ∈ d.lineLaunches p.1 p.2 n (some document),
      l.task.Keeps I (.ok ())) :
    ∃ j', (runTrace d stream document).run.run j = (.ok (), j') ∧
      d.RunReaches document (document.lines.zip stream.records) j.world j'.world := by
  have hrecords : stream.tokenizer.all? 0 document.lines = some (stream.records.take document.lines.length) := by
    rw [stream.all?_tokenizer 0 document.lines (by omega), List.drop_zero]
  have hzip : document.lines.zip (stream.records.take document.lines.length) = document.lines.zip stream.records := by
    rw [@List.zip_eq_zip_take_min _ _ document.lines stream.records, Nat.min_eq_left hlength, List.take_length]
  have hinitialize := hphases "initialize" (by simp [Dispatcher.phases])
  have hrun := hphases "run" (by simp [Dispatcher.phases])
  have hfinalize := hphases "finalize" (by simp [Dispatcher.phases])
  obtain ⟨j₁, hrun₁, hreach₁⟩ := Batch.run_keeps (d.mode d.options.parallel) hj hinitialize
  have hj₁ := hreach₁.keeps hj hinitialize
  obtain ⟨j₂, hrun₂, hreach₂⟩ := Batch.run_keeps (d.mode d.options.parallel) hj₁ hrun
  have hj₂ := hreach₂.keeps hj₁ hrun
  obtain ⟨tally, j₃, hrun₃, hreach₃⟩ :=
    Dispatcher.runLines_keeps stream.tokenizer 0 hj₂ hrecords (hzip.symm ▸ hlines)
  rw [hzip] at hreach₃
  have hj₃ := hreach₃.keeps hj₂ hlines
  obtain ⟨j₄, hrun₄, hreach₄⟩ := Batch.run_keeps (d.mode d.options.parallel) hj₃ hfinalize
  refine ⟨j₄, ?_, _, _, _, hreach₁, hreach₂, hreach₃, hreach₄⟩
  rw [runTrace, run_bind, Dispatcher.runPhase_eq, hrun₁]
  dsimp only
  rw [run_bind, Dispatcher.runPhase_eq, hrun₂]
  dsimp only
  rw [run_bind, Dispatcher.runDocument, show stream.tokenizer.start = 0 from rfl, hrun₃]
  dsimp only
  rw [run_bind, Dispatcher.runPhase_eq, hrun₄]
  rfl

/-! ## What is gathered -/

/-- What a run gathers from lines with their tokens: the name of the document, and for each collected scope that occurs
the texts of its tokens, those of each line once for every time that the scope is to be collected. -/
def gathered (collect : List String) (document : Document) (lines : List (String × List Token)) : Store :=
  let occurring := collect.filter fun s => lines.any fun p => p.2.any fun t => t.scopes.contains s
  SortedMap.ofList (("files", .strings [document.name]) :: occurring.map fun s =>
    (s, .strings (lines.flatMap fun p => (List.replicate (collect.count s) (Bucket.textsOf s p.1 p.2)).flatten)))

variable {collect : List String}

/-- What is gathered are the blocks of the run. -/
theorem holds_gathered (document : Document) (lines : List (String × List Token)) (hfiles : "files" ∉ collect) :
    (gathered collect document lines).Holds (Dispatcher.runBlocks collect document lines) := by
  refine ⟨SortedMap.increasing_ofList _, fun k => ?_⟩
  -- no collector appends to the structure of the files
  have hfile : (lines.flatMap fun p => Dispatcher.lineBlocks collect p.1 p.2 "files") = [] := by
    simp [Dispatcher.lineBlocks_eq_nil, hfiles]
  unfold gathered
  rw [SortedMap.get?_ofList (f := fun k => .strings (Dispatcher.runBlocks collect document lines k).flatten)]
  · rw [← ite_not]
    refine if_congr ?_ rfl rfl
    by_cases hk : k = "files"
    · simp [Dispatcher.runBlocks, hk]
    · by_cases hc : k ∈ collect
      · simp [Dispatcher.runBlocks, hk, Dispatcher.lineBlocks_eq_nil, hc]
      · simp [Dispatcher.runBlocks, hk, Dispatcher.lineBlocks_eq_nil, hc]
  · intro b hb
    rcases List.mem_cons.1 hb with rfl | hb
    · simp [Dispatcher.runBlocks, hfile]
    · obtain ⟨k, hk, rfl⟩ := List.mem_map.1 hb
      have hne : k ≠ "files" := by
        rintro rfl
        exact hfiles (List.mem_filter.1 hk).1
      simp only [Dispatcher.runBlocks, if_neg hne, List.nil_append, Dispatcher.flatten_lineBlocks]

/-! ## Commands -/

variable {s : Session} {libraries : Libraries} {config : Config} {tracing : Bool} {files : FileSystem} {home : String}
  {schedule : Schedule}

theorem start_eq_ok (h : start libraries config tracing files home schedule = .ok s) :
    Collector.startRegistry = .ok s.registry := by
  unfold start at h
  cases hl : loadGrammars libraries.json files {} (config.grammarFiles home) with
  | error e =>
    rw [hl] at h
    cases h
  | ok grammars =>
    rw [hl] at h
    cases hr : Collector.startRegistry (ε := Unit) with
    | error e =>
      rw [hr] at h
      cases h
    | ok registry =>
      rw [hr] at h
      cases h
      rfl

theorem exists_withCollectors (hcollect : Collector.Collectable collect) (r : Actions Unit) :
    ∃ registry, Collector.withCollectors r collect = (.ok (), registry) := by
  rcases r.registerAll_cases (collect.map fun scope => (scope, Collector.collectorSource, Collector.collector)) with
    ⟨registry, hregistry, -⟩ | ⟨a, ha, cause, -, hcause, -⟩
  · exact ⟨registry, hregistry⟩
  · obtain ⟨c, hc, rfl⟩ := List.mem_map.1 ha
    obtain ⟨-, k, rfl, -⟩ := hcollect c hc
    rw [Scope.parse_text] at hcause
    cases hcause

theorem run_dispatcher
    (htrace : s.tracing = true → ∃ filters, s.config.compileTrace s.libraries.patterns = .ok filters)
    (registry : Actions Unit) : ∃ d, (∀ out, (s.dispatcher registry).run.run out = (.ok d, out)) ∧
      d.registry = registry ∧ d.options = .ofConfig s.config := by
  unfold dispatcher
  cases ht : s.tracing with
  | false => exact ⟨_, fun _ => rfl, rfl, rfl⟩
  | true =>
    obtain ⟨filters, hfilters⟩ := htrace ht
    rw [hfilters]
    exact ⟨_, fun _ => rfl, rfl, rfl⟩

/-- What a trace writes of pruning before it runs. -/
def pruneText (s : Session) (prune : Bool) : String :=
  if prune || s.config.prune then (s.grammars.prune s.actionScopes).1.toJson.pretty ++ "\n" else ""

theorem run_trace {raw tokens : String} {registry : Actions Unit} {document : Document} {stream : TokenStream}
    {d : Dispatcher Unit} {j : Journal Unit} (prune : Bool) (out : Output)
    (hregistry : Collector.withCollectors s.registry collect = (.ok (), registry))
    (hdocument : Document.load s.files (s.config.resolvePath s.home raw) = .ok document)
    (hstream : TokenStream.ofFile s.libraries.tokens s.files (s.config.resolvePath s.home tokens) = .ok stream)
    (hd : ∀ out, (s.dispatcher registry).run.run out = (.ok d, out))
    (hrun : (runTrace d stream document).run.run { world := { other := () } } = (.ok (), j)) :
    (s.trace raw tokens collect prune).run.run out = (.ok (), {
      text := out.text ++ pruneText { s with registry } prune ++ (Store.snapshot j.world.structures).pretty ++ "\n"
      events := out.events ++ j.events }) := by
  rw [trace, hregistry, run_bind, CommandM.run_ofExcept_ok]
  dsimp only
  cases hp : prune || s.config.prune with
  | false =>
    rw [if_neg nofun]
    simp only [run_bind, readDocument, hdocument, hstream, CommandM.run_ofExcept_ok, hd, hrun, CommandM.run_modify,
      CommandM.run_writeLine]
    simp [pruneText, hp]
  | true =>
    rw [if_pos rfl]
    simp only [run_bind, readDocument, hdocument, hstream, CommandM.run_ofExcept_ok, hd, hrun, CommandM.run_modify,
      CommandM.run_writeLine]
    simp [pruneText, hp, String.append_assoc]

/-- A traced run under the exact policy succeeds, in turn and side by side, and writes what is gathered from the lines
of the document with their tokens. No order of turns stores anything else. -/
theorem trace_gathers {raw tokens : String} {document : Document} {stream : TokenStream} (prune : Bool) (out : Output)
    (hs : start libraries config tracing files home schedule = .ok s) (hexact : s.config.resolution = .exact)
    (hdocument : Document.load s.files (s.config.resolvePath s.home raw) = .ok document)
    (hstream : TokenStream.ofFile s.libraries.tokens s.files (s.config.resolvePath s.home tokens) = .ok stream)
    (hlength : document.lines.length ≤ stream.records.length)
    (hfree : ∀ record ∈ stream.records, ∀ t ∈ record, "run.tmgt.files" ∉ t.scopes)
    (hcollect : Collector.Collectable collect)
    (htrace : s.tracing = true → ∃ filters, s.config.compileTrace s.libraries.patterns = .ok filters) :
    let lines := document.lines.zip stream.records
    let store := gathered collect document lines
    ∃ registry, Collector.withCollectors s.registry collect = (.ok (), registry) ∧
      (∃ events, (s.trace raw tokens collect prune).run.run out = (.ok (), {
        text := out.text ++ pruneText { s with registry } prune ++ (Store.snapshot store).pretty ++ "\n"
        events := out.events ++ events })) ∧
      ∀ d : Dispatcher Unit, d.registry = registry → d.options.resolution = .exact →
        (∃ w, d.RunReaches document lines { other := () } w) ∧
          ∀ w, d.RunReaches document lines { other := () } w → w.structures = store := by
  intro lines store
  obtain ⟨registry, hregistry⟩ := exists_withCollectors hcollect s.registry
  obtain ⟨log, hlog, hentries⟩ := Collector.exists_log (start_eq_ok hs) hregistry
  have hlines : ∀ p ∈ lines, ∀ t ∈ p.2, "run.tmgt.files" ∉ t.scopes := fun p hp => hfree p.2 (List.of_mem_zip hp).2
  have hruns : ∀ d : Dispatcher Unit, d.registry = registry → d.options.resolution = .exact →
      ∃ j, (runTrace d stream document).run.run { world := { other := () } } = (.ok (), j) ∧
        d.RunReaches document lines { other := () } j.world := by
    rintro d rfl hd
    refine runTrace_keeps (I := World.Listed) d document stream { world := { other := () } } ⟨_, Store.holds_empty⟩ hlength ?_ ?_
    · exact fun _ hp _ hl => Dispatcher.keeps_of_mem_phaseLaunches hlog hentries hcollect hp hl
    · exact fun p hp n l hl => (Dispatcher.adds_of_mem_lineLaunches hd hlog hentries (hlines p hp) hl).keeps
  have horder : ∀ d : Dispatcher Unit, d.registry = registry → d.options.resolution = .exact →
      ∀ w, d.RunReaches document lines { other := () } w → w.structures = store := by
    rintro d rfl hd w hw
    refine (hw.holds hd hlog hentries hcollect hlines Store.holds_empty).unique (holds_gathered _ _ ?_)
    exact fun hfiles => (hcollect _ hfiles).1 rfl
  refine ⟨registry, hregistry, ?_, fun d hr hd => ⟨?_, horder d hr hd⟩⟩
  · obtain ⟨d, hd, hr, hoptions⟩ := run_dispatcher htrace registry
    have hdexact : d.options.resolution = .exact := by
      rw [hoptions]
      exact hexact
    obtain ⟨j, hrun, hreaches⟩ := hruns d hr hdexact
    have hstore : j.world.structures = store := horder d hr hdexact _ hreaches
    exact ⟨j.events, hstore ▸ run_trace prune out hregistry hdocument hstream hd hrun⟩
  · obtain ⟨j, -, hreaches⟩ := hruns d hr hd
    exact ⟨_, hreaches⟩

/-- A file with two words on its only line, and the tokens of that. -/
def twoWords : FileSystem :=
  .ofOpened [("d", .ok (.file "a b".toUTF8)), ("t", .ok (.file "[[0, 1, [\"w\"]], [2, 3, [\"w\", \"v\"]]]".toUTF8))]

/-- A traced session over these files, which runs actions side by side. -/
def wording : Session where
  config := { parallel := true }
  registry := Collector.startRegistry.toOption.getD .empty
  tracing := true
  libraries := .bundled
  files := twoWords
  home := ""

theorem trace_gathers_wording : start .bundled { parallel := true } true twoWords "" .roundRobin = .ok wording ∧ ∃ events,
    (wording.trace "d" "t" ["w", "v", "w", "x"] false).run.run {} = (.ok (), {
      text := (Json.obj [("files", .strings ["d"]), ("v", .strings ["b"]), ("w", .strings ["a", "b", "a", "b"])]).pretty ++ "\n"
      events }) := by
  have hs : start .bundled { parallel := true } true twoWords "" .roundRobin = .ok wording := rfl
  have hdocument : Document.load wording.files (wording.config.resolvePath wording.home "d") = .ok (.ofFile "d" "a b") := by
    decide +kernel
  have hstream : TokenStream.ofFile wording.libraries.tokens wording.files (wording.config.resolvePath wording.home "t") =
      .ok ⟨[[⟨0, 1, ["w"]⟩, ⟨2, 3, ["w", "v"]⟩]]⟩ := by
    decide +kernel
  have hcollect : Collector.Collectable ["w", "v", "w", "x"] := by
    intro c hc
    simp only [List.mem_cons, List.not_mem_nil, or_false] at hc
    rcases hc with rfl | rfl | rfl | rfl
    · exact ⟨by decide, (Scope.parse? "w").get rfl, rfl, by decide⟩
    · exact ⟨by decide, (Scope.parse? "v").get rfl, rfl, by decide⟩
    · exact ⟨by decide, (Scope.parse? "w").get rfl, rfl, by decide⟩
    · exact ⟨by decide, (Scope.parse? "x").get rfl, rfl, by decide⟩
  obtain ⟨registry, -, ⟨events, hrun⟩, -⟩ :=
    trace_gathers false {} hs rfl hdocument hstream (by decide) (by decide) hcollect fun _ => ⟨_, rfl⟩
  have hgathered : gathered ["w", "v", "w", "x"] (.ofFile "d" "a b")
      ((Document.ofFile "d" "a b").lines.zip [[⟨0, 1, ["w"]⟩, ⟨2, 3, ["w", "v"]⟩]]) =
      [("files", .strings ["d"]), ("v", .strings ["b"]), ("w", .strings ["a", "b", "a", "b"])] := by
    rfl
  have hprune : pruneText { wording with registry } false = "" := rfl
  rw [hgathered, hprune] at hrun
  refine ⟨hs, events, ?_⟩
  simpa [Store.snapshot] using hrun

end Session

end ScopeActions
