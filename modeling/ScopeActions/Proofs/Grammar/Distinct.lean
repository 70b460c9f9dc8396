import ScopeActions.Grammar.Loaded
import ScopeActions.Proofs.Grammar.Fields
import ScopeActions.Proofs.Grammar.Leave
import ScopeActions.Proofs.Grammar.Pass
/-!
# Repositories without repeated entries

A repository that is read has each of its entries once, and nothing that is done to a set of loaded grammars
changes that.
-/

namespace ScopeActions

/-- The repository of the grammar has each of its entries once. -/
def Grammar.Distinct (g : Grammar) : Prop := (Assoc.keys g.entries).Nodup

namespace Rule

/-- The repository of the rule has each of its entries once. -/
def Distinct (r : Rule) : Prop := (Assoc.keys (r.repository.getD [])).Nodup

theorem distinct_setText {r : Rule} (h : r.Distinct) (key : String) (text : Option String) :
    (r.setText key text).Distinct := by
  cases r
  exact h

theorem distinct_setPatterns {r : Rule} (h : r.Distinct) (rs : Option (List Rule)) : (r.setPatterns rs).Distinct := by
  cases r
  exact h

theorem distinct_setExtra {r : Rule} (h : r.Distinct) (key : String) (v : Json) : (r.setExtra key v).Distinct := by
  cases r
  exact h

theorem distinct_setMap {r : Rule} (h : r.Distinct) (key : String) {o : Option (List (String × Rule))}
    (ho : ∀ es ∈ o, (Assoc.keys es).Nodup) : (r.setMap key o).Distinct := by
  rcases r with ⟨head, patterns, repository, captures, begins, ends⟩
  rcases setMap_cases head patterns repository captures begins ends key o with hset | hset | hset | hset
  · rw [hset]
    cases o with
    | none => exact List.nodup_nil
    | some es => exact ho es rfl
  all_goals
    rw [hset]
    exact h

/-- Reading merges the entries that are repeated. -/
theorem distinct_of_ofFields? {fields : List (String × Json)} {seen : List String} {acc r : Rule} (h : acc.Distinct)
    (hr : ofFields? seen acc fields = some r) : r.Distinct := by
  refine ofFields?_keeps (I := Distinct) (fun key v acc _ _ hacc => distinct_setExtra hacc key _) ?_ h hr
  intro key v acc acc' _ hread hacc
  rcases readTyped?_cases hread with ⟨text, rfl⟩ | ⟨o, rfl, -⟩ | ⟨o, rfl, ho⟩
  · exact distinct_setText hacc key text
  · exact distinct_setPatterns hacc o
  · refine distinct_setMap hacc key fun es hes => ?_
    obtain ⟨-, read, -, -, rfl⟩ := ho es hes
    exact Assoc.nodup_keys_ofList read

end Rule

namespace Grammar

theorem distinct_of_ofJson? {v : Json} {g : Grammar} (h : ofJson? v = some g) : g.Distinct := by
  cases v with
  | obj fields =>
    simp only [ofJson?, Option.bind_eq_bind, Option.bind_eq_some_iff, Option.pure_def, Option.some.injEq] at h
    obtain ⟨_, -, _, -, _, -, root, hroot, rfl⟩ := h
    have hblank : Rule.blank.Distinct := List.nodup_nil
    exact Rule.distinct_of_ofFields? hblank hroot
  | _ => cases h

theorem distinct_ofPatterns (scope : String) (rs : List Rule) : (ofPatterns scope rs).Distinct := List.nodup_nil

theorem Distinct.addEntry {g : Grammar} (h : g.Distinct) (name : String) (r : Rule) : (g.addEntry name r).Distinct := by
  rcases g with ⟨_, _, _, _, _, es, _, _, _⟩
  exact Assoc.nodup_keys_put h name r

end Grammar

namespace Grammar

/-- A walk only takes entries away. -/
theorem Distinct.left {g : Grammar} (h : g.Distinct) (V : Verdicts) : (g.left V).Distinct := nodup_keys_left h

theorem Distinct.inquiry {g : Grammar} (h : g.Distinct) (V : Verdicts) :
    ((g.inquiry V.keep V.loaded).value V.on).grammar.Distinct := by
  rw [(inquiry_value h).1]
  unfold leaves
  split
  · exact h.left V
  · exact h

end Grammar

namespace PrunePass

/-- All repositories have each of their entries once. -/
def Distinct (p : PrunePass) : Prop :=
  ∀ s g, Assoc.get? p.grammars s = some g → g.Distinct

theorem Distinct.finish {q : PrunePass} {pruned : PrunedGrammar} (hd : Distinct q) (hg : pruned.grammar.Distinct)
    (s : String) (b : Bool) : Distinct (q.finish s pruned b) := by
  intro t h ht
  rw [PrunePass.finish, Assoc.get?_put] at ht
  split at ht
  · exact Option.some.inj ht ▸ hg
  · exact hd t h ht

/-- The verdicts by which a walk in a pass goes, when `q` is the pass in the end. -/
def verdicts (keep : ScopeSet) (p q : PrunePass) : Verdicts :=
  { keep, loaded := Assoc.keys p.grammars, on := q.answer keep }

/-- Walks keep the repositories free of repeated entries. -/
theorem invariant_distinct (keep : ScopeSet) : Invariant keep Distinct where
  diagnosed _ _ h := h
  enter _ _ h := h
  finish p q s g hs _ hp hq := hq.finish ((hp s g hs.loaded).inquiry (verdicts keep p q)) s _

theorem Fresh.distinct_finish {keep : ScopeSet} {p q : PrunePass} {s : String} {g : Grammar} {pruned : PrunedGrammar}
    (hs : p.Fresh s g) (h : Runs keep (g.inquiry keep (Assoc.keys p.grammars)) (p.enter s) pruned q) (hp : Sound p)
    (hd : Distinct p) (b : Bool) : Distinct (q.finish s pruned b) := by
  refine ((invariant_distinct keep).runs h (hp.enter hs) hd).finish ?_ s b
  rw [(h.value_eq (hp.enter hs)).1]
  exact (hd s g hs.loaded).inquiry (verdicts keep p q)

end PrunePass

namespace LoadedGrammars

/-- All repositories have each of their entries once, in the grammars as they are and as they were loaded. -/
structure Distinct (l : LoadedGrammars) : Prop where
  current : ∀ s g, Assoc.get? l.current s = some g → g.Distinct
  pristine : ∀ s g, Assoc.get? l.pristine s = some g → g.Distinct

theorem distinct_empty : Distinct {} where
  current s g h := by cases h
  pristine s g h := by cases h

variable {l : LoadedGrammars}

theorem Distinct.insert (hl : l.Distinct) {g : Grammar} (hg : g.Distinct) : (l.insert g).2.Distinct := by
  have put : ∀ {m : Assoc Grammar}, (∀ s h, Assoc.get? m s = some h → h.Distinct) →
      ∀ s h, Assoc.get? (Assoc.put m g.scopeName g) s = some h → h.Distinct := by
    intro m hm s h hs
    rw [Assoc.get?_put] at hs
    split at hs
    · exact Option.some.inj hs ▸ hg
    · exact hm s h hs
  exact ⟨put hl.current, put hl.pristine⟩

theorem distinct_of_readGrammar {read : JsonReader} {fs : FileSystem} {path : String} {g : Grammar}
    (h : readGrammar read fs path = .ok g) : g.Distinct := by
  unfold readGrammar at h
  split at h
  · cases h
  · split at h
    · cases h
    · next hg =>
      split at h
      · cases h
      · obtain ⟨v, -, hv⟩ := Option.bind_eq_some_iff.1 hg
        cases h
        exact Grammar.distinct_of_ofJson? hv

theorem Distinct.reset (hl : l.Distinct) : l.reset.Distinct := ⟨hl.pristine, hl.pristine⟩

theorem Distinct.run (hl : l.Distinct) (keep : ScopeSet) (scopes : List String) :
    Distinct { l with current := (PrunePass.run l.current keep scopes).grammars } :=
  have hrun := PrunePass.runs_run l.current keep scopes
  ⟨(PrunePass.invariant_distinct keep).runs hrun (PrunePass.sound_start _) hl.current, hl.pristine⟩

theorem Distinct.prune (hl : l.Distinct) (keep : ScopeSet) : (l.prune keep).2.Distinct := hl.run keep l.scopes

end LoadedGrammars

end ScopeActions
