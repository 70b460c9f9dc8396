import ScopeActions.Proofs.FirstSeen
import ScopeActions.Proofs.Grammar.Deletion
/-!
# Histories of a set of grammars

Grammars are inserted and loaded, pruned and given back their loaded form, in any order. The grammars that a
history brings in (`LoadedGrammars.inserted`) tell the loaded forms and the order of both maps, and of each grammar as it
is now they tell all but what was deleted: `LoadedGrammars.Aligned` is what every step keeps.
-/

namespace ScopeActions

/-- One thing done to a set of grammars. The repository of an inserted grammar has each of its entries once, as one
that is read from a file has. -/
inductive GrammarStep where
  | insert (g : Grammar) (distinct : g.Distinct)
  | loadFile (read : JsonReader) (fs : FileSystem) (path : String)
  | prune (keep : ScopeSet)
  | pruneFrom (scope : String) (keep : ScopeSet)
  | reset

namespace GrammarStep

/-- The step can bring in a grammar. -/
def inserts : GrammarStep → Bool
  | insert .. | loadFile .. => true
  | _ => false

end GrammarStep

namespace LoadedGrammars

/-- The set after a step, whether it succeeds or fails. -/
def step (l : LoadedGrammars) : GrammarStep → LoadedGrammars
  | .insert g _ => (l.insert g).2
  | .loadFile read fs path => (l.loadFile read fs path).2
  | .prune keep => (l.prune keep).2
  | .pruneFrom scope keep => (l.pruneFrom scope keep).2
  | .reset => l.reset

/-- The grammar that a step brings in, if it does. -/
def brings (l : LoadedGrammars) : GrammarStep → Option Grammar
  | .insert g _ => some g
  | .loadFile read fs path =>
    match (l.loadFile read fs path).1 with
    | .ok (some _) => (readGrammar read fs path).toOption
    | _ => none
  | _ => none

/-- The set after a history that begins with no grammar. -/
def after (steps : List GrammarStep) : LoadedGrammars :=
  steps.foldl step {}

theorem after_concat (steps : List GrammarStep) (s : GrammarStep) : after (steps ++ [s]) = (after steps).step s :=
  List.foldl_concat ..

/-- The grammars that the steps bring into the set, in turn. -/
def inserted (l : LoadedGrammars) : List GrammarStep → List Grammar
  | [] => []
  | s :: steps => (l.brings s).toList ++ (l.step s).inserted steps

variable {l l' : LoadedGrammars}

/-! ## What one step can do -/

/-- Loading a file is refused or does nothing, and then leaves the set as it is, or it inserts the grammar in it. -/
theorem loadFile_cases (l : LoadedGrammars) (read : JsonReader) (fs : FileSystem) (path : String) :
    (∃ e, l.loadFile read fs path = (.error e, l)) ∨ l.loadFile read fs path = (.ok none, l) ∨
      ∃ g, readGrammar read fs path = .ok g ∧ l.loadFile read fs path =
        (.ok (some g.scopeName), ({ l with paths := l.paths ++ [pathKey path] }.insert g).2) := by
  unfold loadFile
  split
  · exact .inl ⟨_, rfl⟩
  split
  · exact .inr (.inl rfl)
  cases readGrammar read fs path with
  | error e => exact .inl ⟨e, rfl⟩
  | ok g => exact .inr (.inr ⟨g, rfl, rfl⟩)

/-- The grammars as they are after a pass that decides some of them. -/
def pruned (l : LoadedGrammars) (keep : ScopeSet) (scopes : List String) : LoadedGrammars :=
  { l with current := (PrunePass.run l.current keep scopes).grammars }

/-- A step brings in a grammar, prunes, gives the loaded forms back or does nothing. -/
theorem step_cases (l : LoadedGrammars) (s : GrammarStep) :
    (∃ g paths, g.Distinct ∧ l.brings s = some g ∧ l.step s = ({ l with paths }.insert g).2) ∨
      (l.brings s = none ∧ (l.step s = l ∨ l.step s = l.reset ∨ ∃ keep scopes, l.step s = l.pruned keep scopes)) := by
  cases s with
  | insert g hg => exact .inl ⟨g, l.paths, hg, rfl, rfl⟩
  | loadFile read fs path =>
    rcases l.loadFile_cases read fs path with ⟨e, h⟩ | h | ⟨g, hr, h⟩
    · exact .inr (by simp [step, brings, h])
    · exact .inr (by simp [step, brings, h])
    · refine .inl ⟨g, l.paths ++ [pathKey path], distinct_of_readGrammar hr, ?_, ?_⟩
      · simp [brings, h, hr, Except.toOption]
      · simp [step, h]
  | prune keep => exact .inr ⟨rfl, .inr (.inr ⟨keep, l.scopes, rfl⟩)⟩
  | pruneFrom scope keep =>
    refine .inr ⟨rfl, ?_⟩
    by_cases hs : l.contains scope = true
    · exact .inr (.inr ⟨keep, [scope], by simp [step, pruneFrom, hs, pruned]⟩)
    · exact .inl (by simp [step, pruneFrom, hs])
  | reset => exact .inr ⟨rfl, .inr (.inl rfl)⟩

/-! ## What a set owes to the grammars brought in -/

/-- The set as it can be when these grammars have been brought in, one after the other. -/
structure Aligned (l : LoadedGrammars) (log : List Grammar) : Prop where
  scopes : l.scopes = (log.map (·.scopeName)).eraseDups
  loaded : Assoc.keys l.pristine = (log.map (·.scopeName)).eraseDups
  /-- The loaded form is the one that was brought in last. -/
  pristine : ∀ s, l.pristine? s = (log.filter (·.scopeName = s)).getLast?
  /-- A grammar is what remains of its loaded form. -/
  remains : ∀ s g', l.get? s = some g' → ∃ g, l.pristine? s = some g ∧ g.Remains g'
  distinct : l.Distinct

theorem aligned_empty : Aligned {} [] where
  scopes := rfl
  loaded := rfl
  pristine _ := rfl
  remains s g h := by cases h
  distinct := distinct_empty

namespace Aligned

variable {log : List Grammar} {g : Grammar}

/-- A loaded form has the scope that it is loaded for. -/
theorem scopeName_pristine (hl : l.Aligned log) {s : String} (h : l.pristine? s = some g) : g.scopeName = s := by
  rw [hl.pristine] at h
  simpa using (List.mem_filter.1 (List.mem_of_getLast? h)).2

/-- A grammar has the scope that it is found by. -/
theorem scopeName (hl : l.Aligned log) {s : String} (h : l.get? s = some g) : g.scopeName = s := by
  obtain ⟨g₀, h₀, hr⟩ := hl.remains s g h
  exact hr.scopeName.trans (hl.scopeName_pristine h₀)

theorem keys_insert {m : Assoc Grammar} (hm : Assoc.keys m = (log.map (·.scopeName)).eraseDups) (g : Grammar) :
    Assoc.keys (Assoc.put m g.scopeName g) = ((log ++ [g]).map (·.scopeName)).eraseDups := by
  rw [Assoc.keys_put, hm, List.map_append, List.map_singleton, eraseDups_concat]
  simp only [List.mem_eraseDups]

theorem insert (hl : l.Aligned log) (hg : g.Distinct) (paths : List (Bool × Path)) :
    ({ l with paths }.insert g).2.Aligned (log ++ [g]) where
  scopes := keys_insert hl.scopes g
  loaded := keys_insert hl.loaded g
  pristine s := by
    have hp := hl.pristine s
    rw [pristine?] at hp ⊢
    rw [LoadedGrammars.insert, Assoc.get?_put, List.filter_append]
    by_cases h : g.scopeName = s
    · simp [h]
    · simp [h, hp]
  remains s g' h := by
    rw [get?, LoadedGrammars.insert, Assoc.get?_put] at h
    rw [pristine?, LoadedGrammars.insert, Assoc.get?_put]
    split at h
    · next hs => exact ⟨g, if_pos hs, Option.some.inj h ▸ .refl g⟩
    · next hs =>
      rw [if_neg hs]
      exact hl.remains s g' h
  distinct :=
    have hd : Distinct { l with paths } := ⟨hl.distinct.current, hl.distinct.pristine⟩
    hd.insert hg

theorem reset (hl : l.Aligned log) : l.reset.Aligned log where
  scopes := hl.loaded
  loaded := hl.loaded
  pristine := hl.pristine
  remains _ g h := ⟨g, h, .refl g⟩
  distinct := hl.distinct.reset

theorem pruned (hl : l.Aligned log) (keep : ScopeSet) (scopes : List String) : (l.pruned keep scopes).Aligned log where
  scopes := (PrunePass.keys_run l.current keep scopes).trans hl.scopes
  loaded := hl.loaded
  pristine := hl.pristine
  remains s g' h := by
    obtain ⟨g₁, h₁, hr⟩ := PrunePass.remains_run hl.distinct.current keep scopes s g' h
    obtain ⟨g, hg, hr₁⟩ := hl.remains s g₁ h₁
    exact ⟨g, hg, hr₁.trans hr⟩
  distinct := hl.distinct.run keep scopes

/-- Every step keeps to the grammars brought in. -/
theorem step (hl : l.Aligned log) (s : GrammarStep) : (l.step s).Aligned (log ++ (l.brings s).toList) := by
  rcases l.step_cases s with ⟨g, paths, hg, hb, hs⟩ | ⟨hb, hs⟩
  · rw [hb, hs]
    exact hl.insert hg paths
  · rw [hb, Option.toList_none, List.append_nil]
    rcases hs with hs | hs | ⟨keep, scopes, hs⟩
    · rwa [hs]
    · rw [hs]
      exact hl.reset
    · rw [hs]
      exact hl.pruned keep scopes

theorem steps (hl : l.Aligned log) (steps : List GrammarStep) :
    (steps.foldl LoadedGrammars.step l).Aligned (log ++ l.inserted steps) := by
  induction steps generalizing l log with
  | nil => rwa [inserted, List.append_nil]
  | cons s steps ih =>
    rw [inserted, ← List.append_assoc]
    exact ih (hl.step s)

end Aligned

theorem aligned_after (steps : List GrammarStep) : (after steps).Aligned (inserted {} steps) :=
  aligned_empty.steps steps

/-- The set is such as histories leave it: its scopes are told apart, and so are the entries of each repository, and
each grammar has the scope that it is found by. -/
structure WellFormed (l : LoadedGrammars) : Prop where
  distinct : l.Distinct
  nodup : l.scopes.Nodup
  named : ∀ s g, l.get? s = some g → g.scopeName = s

theorem Aligned.wellFormed {log : List Grammar} (hl : l.Aligned log) : l.WellFormed where
  distinct := hl.distinct
  nodup := hl.scopes ▸ nodup_eraseDups _
  named _ _ := hl.scopeName

theorem wellFormed_after (steps : List GrammarStep) : (after steps).WellFormed := (aligned_after steps).wellFormed

/-! ## Giving the loaded forms back -/

/-- What a step does to the loaded forms does not depend on the grammars as they are. -/
theorem reset_step (l : LoadedGrammars) (s : GrammarStep) :
    (l.step s).reset = if s.inserts then l.reset.step s else l.reset := by
  cases s with
  | insert g hg => rfl
  | loadFile read fs path =>
    have hpaths : l.reset.paths = l.paths := rfl
    simp only [GrammarStep.inserts, if_true, step, loadFile, hpaths]
    split_ifs
    · rfl
    · rfl
    · cases readGrammar read fs path <;> rfl
  | prune keep => rfl
  | pruneFrom scope keep =>
    by_cases hs : l.contains scope = true
    · simp [step, pruneFrom, hs, GrammarStep.inserts, reset]
    · simp [step, pruneFrom, hs, GrammarStep.inserts]
  | reset => rfl

theorem reset_steps (l : LoadedGrammars) (steps : List GrammarStep) :
    (steps.foldl step l).reset = (steps.filter GrammarStep.inserts).foldl step l.reset := by
  induction steps generalizing l with
  | nil => rfl
  | cons s steps ih =>
    rw [List.foldl_cons, ih, reset_step, List.filter_cons]
    split <;> rfl

/-- After any history, both maps have the scopes of the grammars brought in, in the order in which each came first;
the loaded forms are the grammars that came last; each grammar has the scope it is found by and is what deletions
leave of its loaded form; and resetting gives what the steps that bring grammars in give without the others. -/
theorem history_aligned (steps : List GrammarStep) :
    let l := after steps
    let log := inserted {} steps
    l.scopes = (log.map (·.scopeName)).eraseDups ∧ Assoc.keys l.pristine = l.scopes ∧
      (∀ s, l.pristine? s = (log.filter (·.scopeName = s)).getLast?) ∧
      (∀ s g, l.get? s = some g ∨ l.pristine? s = some g → g.scopeName = s) ∧
      (∀ s g', l.get? s = some g' → ∃ g, l.pristine? s = some g ∧ g.Remains g') ∧
      l.reset = after (steps.filter GrammarStep.inserts) := by
  intro l log
  have hl : l.Aligned log := aligned_after steps
  refine ⟨hl.scopes, hl.loaded.trans hl.scopes.symm, hl.pristine, ?_, hl.remains, reset_steps {} steps⟩
  rintro s g (h | h)
  · exact hl.scopeName h
  · exact hl.scopeName_pristine h

end LoadedGrammars

end ScopeActions
