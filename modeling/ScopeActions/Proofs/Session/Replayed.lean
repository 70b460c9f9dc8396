import ScopeActions.Proofs.Grammar.Choice
import ScopeActions.Proofs.Registry.Attempt
import ScopeActions.Proofs.Session.Trace
/-!
# Replays with and without pruning

A trace replays recorded tokens, so the grammars have no part in what it runs. With pruning it writes the report of the
pass first; all else is the same as without (`Session.trace_pruning`).
-/

namespace ScopeActions

/-! ## What a command gives out -/

namespace CommandM

variable {α β : Type} {x : CommandM α}

/-- The result does not depend on what was given out before, which stays, and neither does what the command gives out
after it. -/
def Appends (x : CommandM α) : Prop :=
  ∃ r text events, ∀ out, x.run.run out = (r, { text := out.text ++ text, events := out.events ++ events })

theorem appends_of_silent (r : Except CommandError α) (h : ∀ out, x.run.run out = (r, out)) : Appends x := by
  refine ⟨r, "", [], fun out => ?_⟩
  rw [h, String.append_empty, List.append_nil]

theorem appends_ofExcept {δ : Type} (wrap : δ → CommandError) (e : Except δ α) : Appends (ofExcept wrap e) := by
  cases e with
  | error e => exact appends_of_silent (.error (wrap e)) fun _ => rfl
  | ok a => exact appends_of_silent (.ok a) fun _ => rfl

theorem appends_writeLine (line : String) : Appends (writeLine line) := by
  refine ⟨.ok (), line ++ "\n", [], fun out => ?_⟩
  rw [run_writeLine, List.append_nil, String.append_assoc]

theorem Appends.bind {f : α → CommandM β} (h : Appends x) (hf : ∀ a, Appends (f a)) : Appends (x >>= f) := by
  obtain ⟨r, text, events, hx⟩ := h
  cases r with
  | error e =>
    refine ⟨.error e, text, events, fun out => ?_⟩
    rw [run_bind, hx]
  | ok a =>
    obtain ⟨r, text', events', hfa⟩ := hf a
    refine ⟨r, text ++ text', events ++ events', fun out => ?_⟩
    rw [run_bind, hx]
    dsimp only
    rw [hfa, String.append_assoc, List.append_assoc]

end CommandM

namespace Session

variable {s : Session} {collect : List String}

/-! ## Replays -/

/-- The session with this setting for pruning. -/
def pruning (s : Session) (setting : Bool) : Session :=
  { s with config := { s.config with prune := setting } }

/-- What a trace does once the collectors are registered and the grammars pruned. -/
def replay (s : Session) (raw tokens : String) (registry : Actions Unit) : CommandM Unit := do
  let document ← s.readDocument raw
  let path := s.config.resolvePath s.home tokens
  let stream ← CommandM.ofExcept .replay (TokenStream.ofFile s.libraries.tokens s.files path)
  let d ← s.dispatcher registry
  let (outcome, journal) := (runTrace d stream document).run.run { world := { other := () } }
  modify fun o => { o with events := o.events ++ journal.events }
  match outcome with
  | .ok () => CommandM.writeLine (Store.snapshot journal.world.structures).pretty
  | .error (.failed e) => throw (.dispatch e)
  | .error (.panicked p) => throw (.panicked p)

theorem trace_eq (s : Session) (raw tokens : String) (collect : List String) (prune : Bool) :
    s.trace raw tokens collect prune = (do
      let (registered, registry) := Collector.withCollectors s.registry collect
      CommandM.ofExcept .registry registered
      if prune || s.config.prune then
        CommandM.writeLine (s.grammars.prune { s with registry }.actionScopes).1.toJson.pretty
      s.replay raw tokens registry) :=
  rfl

/-- With its collectors registered, a trace writes of pruning what it has to, and then replays. -/
theorem run_trace_replay {registry : Actions Unit}
    (hregistry : Collector.withCollectors s.registry collect = (.ok (), registry)) (raw tokens : String) (prune : Bool) (out : Output) :
    (s.trace raw tokens collect prune).run.run out =
      (s.replay raw tokens registry).run.run { out with text := out.text ++ pruneText { s with registry } prune } := by
  rw [trace_eq, hregistry]
  dsimp only
  rw [run_bind, CommandM.run_ofExcept_ok]
  dsimp only
  unfold pruneText
  cases prune || s.config.prune with
  | false =>
    rw [if_neg nofun, if_neg nofun, String.append_empty]
  | true =>
    rw [if_pos rfl, if_pos rfl, run_bind, CommandM.run_writeLine, String.append_assoc]

theorem appends_replay (s : Session) (raw tokens : String) (registry : Actions Unit) :
    (s.replay raw tokens registry).Appends := by
  unfold replay
  apply (CommandM.appends_ofExcept _ _).bind
  intro document
  apply (CommandM.appends_ofExcept _ _).bind
  intro stream
  have hdispatcher : (s.dispatcher registry).Appends := by
    unfold dispatcher
    cases s.tracing with
    | false => exact CommandM.appends_of_silent _ fun _ => rfl
    | true => exact (CommandM.appends_ofExcept _ _).bind fun _ => CommandM.appends_of_silent _ fun _ => rfl
  apply hdispatcher.bind
  intro d
  rcases (runTrace d stream document).run.run { world := { other := () } } with ⟨outcome, journal⟩
  have htold : (modify fun o => { o with events := o.events ++ journal.events } : CommandM Unit).Appends := by
    refine ⟨.ok (), "", journal.events, fun out => ?_⟩
    rw [CommandM.run_modify, String.append_empty]
  apply htold.bind
  intro _
  rcases outcome with ⟨e⟩ | ⟨⟨⟩⟩
  · cases e <;> exact CommandM.appends_of_silent _ fun _ => rfl
  · exact CommandM.appends_writeLine _

/-- Collectors are registered on well-formed scopes, and only on these. -/
theorem withCollectors_cases (r : Actions Unit) (collect : List String) :
    (∃ registry, Collector.withCollectors r collect = (.ok (), registry) ∧ ∀ c ∈ collect, ¬Scope.Malformed c) ∨
      ∃ e registry, Collector.withCollectors r collect = (.error e, registry) ∧ e.scope ∈ collect ∧
        Scope.Malformed e.scope := by
  rcases r.registerAll_cases (collect.map fun scope => (scope, Collector.collectorSource, Collector.collector)) with
    ⟨registry, hregistry, hscopes⟩ | ⟨a, ha, cause, registry, hcause, hregistry⟩
  · refine .inl ⟨registry, hregistry, fun c hc => ?_⟩
    obtain ⟨k, hk⟩ := hscopes _ (List.mem_map_of_mem hc)
    obtain rfl : k.text = c := hk
    exact Scope.not_malformed_text k
  · obtain ⟨c, hc, rfl⟩ := List.mem_map.1 ha
    exact .inr ⟨_, registry, hregistry, hc, (Scope.fault_of_parse hcause).1⟩

/-- A trace with pruning ends as one without, and tells the same. What it writes is the report of the pass over the
grammars, with the actions registered, and then what is written without; nothing is written where a scope to collect is
malformed. The grammar chosen for the document is the same in the grammars that the pass leaves. -/
theorem trace_pruning (s : Session) (raw tokens : String) (collect : List String) (prune setting : Bool)
    (hon : (prune || setting) = true) (out : Output) :
    let on := ((s.pruning setting).trace raw tokens collect prune).run.run out
    let off := ((s.pruning false).trace raw tokens collect false).run.run out
    on.1 = off.1 ∧ on.2.events = off.2.events ∧
    ((∃ c ∈ collect, Scope.Malformed c) →
      on.2 = out ∧ off.2 = out ∧ ∃ e, on.1 = .error (.registry e) ∧ e.scope ∈ collect ∧ Scope.Malformed e.scope) ∧
    ((∀ c ∈ collect, ¬Scope.Malformed c) →
      ∃ registry text, Collector.withCollectors s.registry collect = (.ok (), registry) ∧
        let pruned := s.grammars.prune { s with registry }.actionScopes
        off.2.text = out.text ++ text ∧ on.2.text = out.text ++ (pruned.1.toJson.pretty ++ "\n") ++ text ∧
        ∀ engine path firstLine, pruned.2.choose engine path firstLine = s.grammars.choose engine path firstLine) := by
  intro on off
  rcases withCollectors_cases s.registry collect with ⟨registry, hregistry, hwell⟩ | ⟨e, registry, he, hmem, hmal⟩
  · obtain ⟨r, text, events, hreplay⟩ := s.appends_replay raw tokens registry
    have hoff : off = (r, { text := out.text ++ text, events := out.events ++ events }) := by
      have hnone : pruneText { s.pruning false with registry } false = "" := rfl
      have hrun := run_trace_replay (s := s.pruning false) hregistry raw tokens false out
      rw [hnone, String.append_empty] at hrun
      exact hrun.trans (hreplay out)
    have hon' : on = (r, {
        text := out.text ++ ((s.grammars.prune { s with registry }.actionScopes).1.toJson.pretty ++ "\n") ++ text
        events := out.events ++ events }) := by
      have hreport : pruneText { s.pruning setting with registry } prune =
          (s.grammars.prune { s with registry }.actionScopes).1.toJson.pretty ++ "\n" := if_pos hon
      have hrun := run_trace_replay (s := s.pruning setting) hregistry raw tokens prune out
      rw [hreport] at hrun
      -- a replay does not look at the setting for pruning
      exact hrun.trans (hreplay _)
    rw [hon', hoff]
    refine ⟨rfl, rfl, ?_, fun _ => ⟨registry, text, hregistry, rfl, rfl, ?_⟩⟩
    · rintro ⟨c, hc, hmal⟩
      exact absurd hmal (hwell c hc)
    · exact fun engine path firstLine => s.grammars.choose_prune _ engine path firstLine
  · have herror : ∀ (t : Session) flag, t.registry = s.registry →
        (t.trace raw tokens collect flag).run.run out = (.error (.registry e), out) := by
      intro t flag ht
      rw [trace_eq, ht, he]
      rfl
    have hon' : on = (.error (.registry e), out) := herror _ _ rfl
    have hoff : off = (.error (.registry e), out) := herror _ _ rfl
    rw [hon', hoff]
    refine ⟨rfl, rfl, fun _ => ⟨rfl, rfl, e, rfl, hmem, hmal⟩, fun hwell => absurd hmal (hwell _ hmem)⟩

/-- With grammars loaded, the report comes first; with a malformed scope, nothing does. -/
theorem trace_pruning_wording :
    let s : Session := { wording with grammars := (({} : LoadedGrammars).insert (.ofPatterns "x" [.blank])).2 }
    let on := ((s.pruning true).trace "d" "t" ["w"] false).run.run {}
    let off := ((s.pruning false).trace "d" "t" ["w"] false).run.run {}
    on.1 = off.1 ∧
    (∃ registry, Collector.withCollectors s.registry ["w"] = (.ok (), registry) ∧
      on.2.text = (s.grammars.prune { s with registry }.actionScopes).1.toJson.pretty ++ "\n" ++ off.2.text) ∧
    (((s.pruning true).trace "d" "t" ["w", "a..b"] false).run.run {}).2 = {} := by
  intro s on off
  have hwell : ∀ c ∈ ["w"], ¬Scope.Malformed c := by decide +kernel
  obtain ⟨hresult, -, -, hreport⟩ := trace_pruning s "d" "t" ["w"] false true rfl {}
  obtain ⟨registry, text, hregistry, hoff, hon, -⟩ := hreport hwell
  obtain ⟨-, -, hnothing, -⟩ := trace_pruning s "d" "t" ["w", "a..b"] false true rfl {}
  refine ⟨hresult, ⟨registry, hregistry, ?_⟩, (hnothing ⟨"a..b", by simp, by decide +kernel⟩).1⟩
  change off.2.text = "" ++ text at hoff
  change on.2.text = "" ++ _ ++ text at hon
  rw [hon, hoff, String.empty_append, String.empty_append]

end Session

end ScopeActions
