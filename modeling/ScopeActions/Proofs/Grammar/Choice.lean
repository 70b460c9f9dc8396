import ScopeActions.Bundled
import ScopeActions.Proofs.Grammar.History
/-!
# The choice of a grammar

The grammar for a document is the first that claims its first line, or else the first that claims its path. It stays the
same when grammars are pruned and reset (`LoadedGrammars.choose_steady`). Which patterns compile and what they match is
left to the engine.
-/

namespace ScopeActions

/-! ## What grammars say about documents -/

/-- What a grammar says about the documents that it is for. -/
def Grammar.documents (g : Grammar) : List String × Option String :=
  (g.fileTypes, g.firstLineMatch)

/-- A walk leaves what the grammar says about documents. -/
theorem Grammar.documents_inquiry (keep : ScopeSet) (loaded : List String) (o : String → Bool) (g : Grammar) :
    ((g.inquiry keep loaded).value o).grammar.documents = g.documents := by
  unfold inquiry
  cases h : g.root.patterns with
  | none => rw [pruneRules_none _ _ h, Inquiry.value_pure]
  | some ps =>
    have h : g.root.patterns.isSome := by rw [h]; rfl
    rw [pruneRules_some _ _ h, Inquiry.value_bind, Inquiry.value_bind, Inquiry.value_bind, Inquiry.value_pure]
    rcases g with ⟨_, _, _, _, _, _, _, _, _⟩
    rfl

/-- The scopes of the grammars, with what each says about documents. -/
def LoadedGrammars.documents (gs : Assoc Grammar) : List (String × List String × Option String) :=
  gs.map fun b => (b.1, b.2.documents)

theorem PrunePass.invariant_documents (gs : Assoc Grammar) (keep : ScopeSet) :
    Invariant keep fun p => LoadedGrammars.documents p.grammars = LoadedGrammars.documents gs where
  diagnosed _ _ h := h
  enter _ _ h := h
  finish p q s g hs hq _ h := by
    have hg : Assoc.get? q.grammars s = some g :=
      (hq.grammar s (.inl (PrunePass.mem_visited_enter p s))).trans hs.loaded
    exact (Assoc.map_put hg (g.documents_inquiry keep _ _)).trans h

/-- A pass leaves the grammars in their order, and what they say about documents. -/
theorem PrunePass.documents_run (gs : Assoc Grammar) (keep : ScopeSet) (scopes : List String) :
    LoadedGrammars.documents (run gs keep scopes).grammars = LoadedGrammars.documents gs :=
  (invariant_documents gs keep).runs (runs_run gs keep scopes) (sound_start gs) rfl

namespace LoadedGrammars

variable {l l' : LoadedGrammars}

/-- The choice goes by what the grammars say about documents. -/
theorem choose_eq (l : LoadedGrammars) (engine : LineEngine) (path firstLine : String) :
    l.choose engine path firstLine =
      (((documents l.current).find? fun d => matchesFirstLine engine { firstLineMatch := d.2.2 } firstLine).or
        ((documents l.current).find? fun d => matchesPath { fileTypes := d.2.1 } path)).map (·.1) := by
  unfold choose documents
  rw [List.find?_map, List.find?_map, Option.map_or, Option.map_or, Option.map_map, Option.map_map]
  rfl

theorem choose_congr (h : documents l'.current = documents l.current) (engine : LineEngine) (path firstLine : String) :
    l'.choose engine path firstLine = l.choose engine path firstLine := by
  rw [choose_eq, choose_eq, h]

/-- Pruning does not change which grammar is chosen for a document. -/
theorem choose_prune (l : LoadedGrammars) (keep : ScopeSet) (engine : LineEngine) (path firstLine : String) :
    (l.prune keep).2.choose engine path firstLine = l.choose engine path firstLine :=
  choose_congr (PrunePass.documents_run l.current keep l.scopes) engine path firstLine

/-! ## Histories -/

theorem documents_put (gs : Assoc Grammar) (scope : String) (g : Grammar) :
    documents (Assoc.put gs scope g) =
      (Assoc.put (documents gs) scope g.documents : Assoc (List String × Option String)) := by
  induction gs with
  | nil => rfl
  | cons b gs ih =>
    by_cases hb : b.1 = scope
    · simp [documents, Assoc.put, hb]
    · simpa [documents, Assoc.put, hb] using ih

/-- The grammars say about documents what they said when they were loaded. -/
def Settled (l : LoadedGrammars) : Prop :=
  documents l.current = documents l.pristine

theorem Settled.step (h : l.Settled) (s : GrammarStep) : (l.step s).Settled := by
  rcases l.step_cases s with ⟨g, paths, -, -, hs⟩ | ⟨-, hs | hs | ⟨keep, scopes, hs⟩⟩
  · rw [hs, Settled, LoadedGrammars.insert, documents_put, documents_put]
    exact congrArg (Assoc.put · _ _) h
  · rwa [hs]
  · rw [hs]
    rfl
  · rw [hs]
    exact (PrunePass.documents_run l.current keep scopes).trans h

/-- A step that can bring no grammar in leaves what the grammars say about documents. -/
theorem Settled.documents_step (h : l.Settled) {s : GrammarStep} (hs : s.inserts = false) :
    documents (l.step s).current = documents l.current := by
  cases s with
  | insert => cases hs
  | loadFile => cases hs
  | prune keep => exact PrunePass.documents_run l.current keep l.scopes
  | pruneFrom scope keep =>
    by_cases hscope : l.contains scope = true
    · simpa [LoadedGrammars.step, pruneFrom, hscope] using PrunePass.documents_run l.current keep [scope]
    · simp [LoadedGrammars.step, pruneFrom, hscope]
  | reset => exact h.symm

theorem Settled.choose_foldl (h : l.Settled) {later : List GrammarStep} (hlater : ∀ s ∈ later, s.inserts = false)
    (engine : LineEngine) (path firstLine : String) :
    (later.foldl LoadedGrammars.step l).choose engine path firstLine = l.choose engine path firstLine := by
  induction later generalizing l with
  | nil => rfl
  | cons s later ih =>
    obtain ⟨hs, hlater⟩ := List.forall_mem_cons.1 hlater
    rw [List.foldl_cons, ih (h.step s) hlater, choose_congr (h.documents_step hs)]

theorem settled_after (steps : List GrammarStep) : (after steps).Settled := by
  induction steps using List.reverseRecOn with
  | nil => rfl
  | append_singleton steps s ih =>
    rw [after_concat]
    exact ih.step s

end LoadedGrammars

/-! ## Claims -/

/-- The grammar has a pattern for first lines that can be compiled and matches this line. -/
def Grammar.ClaimsLine (g : Grammar) (engine : LineEngine) (firstLine : String) : Prop :=
  ∃ pattern isMatch, g.firstLineMatch = some pattern ∧ engine pattern = some isMatch ∧ isMatch firstLine = some true

/-- One of the file types of the grammar is a suffix of the path. -/
def Grammar.ClaimsPath (g : Grammar) (path : String) : Prop :=
  ∃ suffix ∈ g.fileTypes, ∃ stem, path = stem ++ suffix

namespace LoadedGrammars

variable {l : LoadedGrammars} {engine : LineEngine} {path firstLine scope : String}

/-- The scope is that of the first grammar, in the order of the set, of which this holds. -/
def IsFirst (l : LoadedGrammars) (p : Grammar → Prop) (scope : String) : Prop :=
  ∃ before g after, l.current = before ++ (scope, g) :: after ∧ p g ∧ ∀ b ∈ before, ¬p b.2

theorem matchesFirstLine_iff (engine : LineEngine) (g : Grammar) (firstLine : String) :
    matchesFirstLine engine g firstLine = true ↔ g.ClaimsLine engine firstLine := by
  unfold matchesFirstLine Grammar.ClaimsLine
  cases g.firstLineMatch with
  | none => simp
  | some pattern =>
    cases hcompiled : engine pattern with
    | none => simp [hcompiled]
    | some isMatch => cases hline : isMatch firstLine <;> simp [hcompiled, hline]

theorem matchesPath_iff (g : Grammar) (path : String) : matchesPath g path = true ↔ g.ClaimsPath path := by
  unfold matchesPath Grammar.ClaimsPath
  rw [List.any_eq_true]
  refine exists_congr fun suffix => and_congr_right fun _ => ?_
  rw [List.isSuffixOf_iff_suffix]
  constructor
  · rintro ⟨stem, hstem⟩
    exact ⟨String.ofList stem, String.toList_inj.1 (by simp [hstem])⟩
  · rintro ⟨stem, rfl⟩
    exact ⟨stem.toList, String.toList_append.symm⟩

theorem isFirst_iff {q : Grammar → Bool} {p : Grammar → Prop} (h : ∀ g, q g = true ↔ p g) :
    (l.current.find? fun b => q b.2).map (·.1) = some scope ↔ l.IsFirst p scope := by
  simp only [Option.map_eq_some_iff, List.find?_eq_some_iff_append, IsFirst, ← h]
  constructor
  · rintro ⟨⟨_, g⟩, ⟨hg, before, after, hl, hbefore⟩, rfl⟩
    exact ⟨before, g, after, hl, hg, by simpa using hbefore⟩
  · rintro ⟨before, g, after, hl, hg, hbefore⟩
    exact ⟨(scope, g), ⟨hg, before, after, hl, by simpa using hbefore⟩, rfl⟩

theorem find?_eq_none_iff {q : Grammar → Bool} {p : Grammar → Prop} (h : ∀ g, q g = true ↔ p g) :
    (l.current.find? fun b => q b.2) = none ↔ ∀ b ∈ l.current, ¬p b.2 := by
  simp only [List.find?_eq_none, h]

theorem choose_eq_some_iff : l.choose engine path firstLine = some scope ↔
    l.IsFirst (·.ClaimsLine engine firstLine) scope ∨
      (∀ b ∈ l.current, ¬b.2.ClaimsLine engine firstLine) ∧ l.IsFirst (·.ClaimsPath path) scope := by
  have hline := fun g => matchesFirstLine_iff engine g firstLine
  have hpath := fun g => matchesPath_iff g path
  rw [choose, Option.map_or, Option.or_eq_some_iff, Option.map_eq_none_iff, isFirst_iff hline, isFirst_iff hpath,
    find?_eq_none_iff hline]

theorem choose_eq_none_iff :
    l.choose engine path firstLine = none ↔
      ∀ b ∈ l.current, ¬b.2.ClaimsLine engine firstLine ∧ ¬b.2.ClaimsPath path := by
  have hline := fun g => matchesFirstLine_iff engine g firstLine
  have hpath := fun g => matchesPath_iff g path
  rw [choose, Option.map_eq_none_iff, Option.or_eq_none_iff, find?_eq_none_iff hline, find?_eq_none_iff hpath]
  exact forall₂_and.symm

/-- After any history and with any engine, the grammars stand in the order in which their scopes were first brought in. For a
document the first of them that claims its first line is chosen; if none does, the first that claims its path; and none if
none does that. Pruning and resetting, in any order and any number of times, change nothing about it. -/
theorem choose_steady (engine : LineEngine) (steps later : List GrammarStep) (hlater : ∀ s ∈ later, s.inserts = false)
    (path firstLine : String) :
    let l := after steps
    l.scopes = ((inserted {} steps).map (·.scopeName)).eraseDups ∧
    (∀ scope, l.choose engine path firstLine = some scope ↔ l.IsFirst (·.ClaimsLine engine firstLine) scope ∨
      (∀ b ∈ l.current, ¬b.2.ClaimsLine engine firstLine) ∧ l.IsFirst (·.ClaimsPath path) scope) ∧
    (l.choose engine path firstLine = none ↔
      ∀ b ∈ l.current, ¬b.2.ClaimsLine engine firstLine ∧ ¬b.2.ClaimsPath path) ∧
    (after (steps ++ later)).choose engine path firstLine = l.choose engine path firstLine := by
  intro l
  refine ⟨(aligned_after steps).scopes, fun scope => choose_eq_some_iff, choose_eq_none_iff, ?_⟩
  rw [after, List.foldl_append]
  exact (settled_after steps).choose_foldl hlater engine path firstLine

/-- A grammar for two kinds of files, and one for the same kinds and for documents that start with a percent sign. -/
def rivals : List GrammarStep :=
  [.insert { scopeName := "a", fileTypes := ["md", "tex"], root := .named "x" } List.nodup_nil,
    .insert { scopeName := "b", fileTypes := ["tex"], firstLineMatch := some "^%" } List.nodup_nil]

theorem choose_steady_rivals :
    let engine := Libraries.bundled.firstLines
    (∀ s ∈ [GrammarStep.prune ["k"], .reset, .pruneFrom "b" []], s.inserts = false) ∧
    (after (rivals ++ [.prune ["k"], .reset, .pruneFrom "b" []])).choose engine "doc.tex" "% text" = some "b" ∧
    (after (rivals ++ [.prune ["k"], .reset, .pruneFrom "b" []])).choose engine "doc.tex" "text" = some "a" := by
  intro engine
  have hlater : ∀ s ∈ [GrammarStep.prune ["k"], .reset, .pruneFrom "b" []], s.inserts = false := by simp [GrammarStep.inserts]
  have hline : (after rivals).choose engine "doc.tex" "% text" = some "b" := by decide +kernel
  have hpath : (after rivals).choose engine "doc.tex" "text" = some "a" := by decide +kernel
  obtain ⟨-, -, -, hsteady⟩ := choose_steady engine rivals _ hlater "doc.tex" "% text"
  obtain ⟨-, -, -, hsteady'⟩ := choose_steady engine rivals _ hlater "doc.tex" "text"
  exact ⟨hlater, hsteady.trans hline, hsteady'.trans hpath⟩

end LoadedGrammars

end ScopeActions
