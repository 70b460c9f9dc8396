import Mathlib.Logic.Relation
import ScopeActions.Proofs.Grammar.Distinct
/-!
# Deletions

A grammar is pruned by deletions only: of elements of lists of patterns, at any depth, and of entries of its own
repository. `Grammar.remains_leaves` says so of a walk, `PrunePass.remains_run` of a pass over a set.
-/

namespace ScopeActions

namespace Rule

mutual

/-- One element is taken out of a list of patterns, in the rule or beneath it. -/
inductive Deletion : Rule → Rule → Prop
  | patterns {head : RuleHead} {rs rs' : List Rule} {repository captures begins ends : Option (List (String × Rule))} :
      ListDeletion rs rs' → Deletion (.mk head (some rs) repository captures begins ends)
        (.mk head (some rs') repository captures begins ends)
  | captures {head : RuleHead} {patterns : Option (List Rule)} {repository begins ends : Option (List (String × Rule))}
      {es es' : List (String × Rule)} : MapDeletion es es' →
      Deletion (.mk head patterns repository (some es) begins ends) (.mk head patterns repository (some es') begins ends)
  | beginCaptures {head : RuleHead} {patterns : Option (List Rule)}
      {repository captures ends : Option (List (String × Rule))} {es es' : List (String × Rule)} : MapDeletion es es' →
      Deletion (.mk head patterns repository captures (some es) ends)
        (.mk head patterns repository captures (some es') ends)
  | endCaptures {head : RuleHead} {patterns : Option (List Rule)}
      {repository captures begins : Option (List (String × Rule))} {es es' : List (String × Rule)} : MapDeletion es es' →
      Deletion (.mk head patterns repository captures begins (some es))
        (.mk head patterns repository captures begins (some es'))

/-- One element is taken out of the list, or out of one beneath it. -/
inductive ListDeletion : List Rule → List Rule → Prop
  | element (r : Rule) (rs : List Rule) : ListDeletion (r :: rs) rs
  | beneath {r r' : Rule} (rs : List Rule) : Deletion r r' → ListDeletion (r :: rs) (r' :: rs)
  | later (r : Rule) {rs rs' : List Rule} : ListDeletion rs rs' → ListDeletion (r :: rs) (r :: rs')

/-- One element is taken out beneath a rule of the map, of which all rules stay. -/
inductive MapDeletion : List (String × Rule) → List (String × Rule) → Prop
  | beneath (key : String) {r r' : Rule} (es : List (String × Rule)) : Deletion r r' →
      MapDeletion ((key, r) :: es) ((key, r') :: es)
  | later (e : String × Rule) {es es' : List (String × Rule)} : MapDeletion es es' → MapDeletion (e :: es) (e :: es')

end

open Relation

variable {p : Rule → Bool}

theorem remains_restrictList {rs : List Rule} (h : ∀ r ∈ rs, ReflTransGen Deletion r (r.restrict p)) :
    ReflTransGen ListDeletion rs (restrictList p rs) := by
  induction rs with
  | nil => exact .refl
  | cons r rs ih =>
    have hrs := ih fun x hx => h x (List.mem_cons_of_mem r hx)
    rw [restrictList]
    split
    · have hr := (h r List.mem_cons_self).lift (· :: rs) fun _ _ hd => ListDeletion.beneath rs hd
      exact hr.trans (hrs.lift (r.restrict p :: ·) fun _ _ hd => .later _ hd)
    · exact .head (.element r rs) hrs

theorem remains_restrictNamed {es : List (String × Rule)}
    (h : ∀ r ∈ es.map (·.2), ReflTransGen Deletion r (r.restrict p)) :
    ReflTransGen MapDeletion es (restrictNamed p es) := by
  induction es with
  | nil => exact .refl
  | cons e es ih =>
    have hes := ih fun x hx => h x (List.mem_cons_of_mem e.2 hx)
    have he := (h e.2 List.mem_cons_self).lift (fun r => (e.1, r) :: es) fun _ _ hd => MapDeletion.beneath e.1 es hd
    exact he.trans (hes.lift ((e.1, e.2.restrict p) :: ·) fun _ _ hd => .later _ hd)

/-- A rule is restricted by deletions. -/
theorem remains_restrict (r : Rule) : ReflTransGen Deletion r (r.restrict p) := by
  induction r with
  | node r ih =>
    cases r with
    | mk head patterns repository captures begins ends =>
      -- `f` puts a map in one of the three places for captures
      have named : ∀ (o : Option (List (String × Rule))) (f : Option (List (String × Rule)) → Rule),
          o ∈ [captures, begins, ends] → (∀ es es', MapDeletion es es' → Deletion (f (some es)) (f (some es'))) →
          ReflTransGen Deletion (f o) (f (o.map (restrictNamed p))) := by
        intro o f ho hf
        cases o with
        | none => exact .refl
        | some es =>
          refine (remains_restrictNamed fun r hr => ih r ?_).lift (fun es => f (some es)) hf
          exact mem_children.2 (.inl (mem_captured_mk ho hr))
      have hpatterns : ReflTransGen Deletion (.mk head patterns repository captures begins ends)
          (.mk head (patterns.map (restrictList p)) repository captures begins ends) := by
        cases patterns with
        | none => exact .refl
        | some rs =>
          refine (remains_restrictList fun r hr => ih r ?_).lift
            (fun rs => Rule.mk head (some rs) repository captures begins ends) fun _ _ hd => .patterns hd
          exact mem_children.2 (.inr hr)
      rw [restrict_mk]
      exact ((hpatterns.trans (named captures (.mk head _ repository · begins ends) (by simp) fun _ _ => .captures)).trans
        (named begins (.mk head _ repository _ · ends) (by simp) fun _ _ => .beginCaptures)).trans
        (named ends (.mk head _ repository _ _ ·) (by simp) fun _ _ => .endCaptures)

end Rule

namespace Grammar

/-- One entry is taken out of the repository, or one element out of a list of patterns beneath an entry. -/
inductive RepositoryDeletion : List (String × Rule) → List (String × Rule) → Prop
  | entry (e : String × Rule) (es : List (String × Rule)) : RepositoryDeletion (e :: es) es
  | beneath {es es' : List (String × Rule)} : Rule.MapDeletion es es' → RepositoryDeletion es es'
  | later (e : String × Rule) {es es' : List (String × Rule)} : RepositoryDeletion es es' →
      RepositoryDeletion (e :: es) (e :: es')

/-- One element is taken out of a list of patterns of the grammar, or one entry out of its repository. -/
inductive Deletion : Grammar → Grammar → Prop
  | patterns {scope : String} {types : List String} {first : Option String} {head : RuleHead} {rs rs' : List Rule}
      {repository captures begins ends : Option (List (String × Rule))} : Rule.ListDeletion rs rs' →
      Deletion ⟨scope, types, first, .mk head (some rs) repository captures begins ends⟩
        ⟨scope, types, first, .mk head (some rs') repository captures begins ends⟩
  | repository {scope : String} {types : List String} {first : Option String} {head : RuleHead}
      {patterns : Option (List Rule)} {captures begins ends : Option (List (String × Rule))}
      {es es' : List (String × Rule)} : RepositoryDeletion es es' →
      Deletion ⟨scope, types, first, .mk head patterns (some es) captures begins ends⟩
        ⟨scope, types, first, .mk head patterns (some es') captures begins ends⟩

/-- The second grammar is what remains of the first after deletions. -/
def Remains : Grammar → Grammar → Prop := Relation.ReflTransGen Deletion

open Relation

variable {p : Rule → Bool} {left : String → Bool} {g g' g'' : Grammar}

theorem Remains.refl (g : Grammar) : g.Remains g := ReflTransGen.refl

theorem Remains.trans (h : g.Remains g') (h' : g'.Remains g'') : g.Remains g'' := ReflTransGen.trans h h'

/-- Deletions leave a grammar its scope. -/
theorem Remains.scopeName (h : g.Remains g') : g'.scopeName = g.scopeName := by
  induction h with
  | refl => rfl
  | tail _ hd ih => cases hd <;> exact ih

theorem remains_repository (es : List (String × Rule)) :
    ReflTransGen RepositoryDeletion es (Rule.restrictNamed p (es.filter fun e => left e.1)) := by
  have hfilter : ReflTransGen RepositoryDeletion es (es.filter fun e => left e.1) := by
    induction es with
    | nil => exact .refl
    | cons e es ih =>
      rw [List.filter_cons]
      split
      · exact ih.lift (e :: ·) fun _ _ => .later e
      · exact .head (.entry e es) ih
  exact hfilter.trans ((Rule.remains_restrictNamed fun r _ => r.remains_restrict).lift id fun _ _ => .beneath)

/-- A grammar is restricted by deletions. -/
theorem remains_restrict (g : Grammar) : g.Remains (g.restrict p left) := by
  rcases g with ⟨scope, types, first, head, patterns, entries, captures, begins, ends⟩
  have hpatterns : Remains ⟨scope, types, first, .mk head patterns entries captures begins ends⟩
      ⟨scope, types, first, .mk head (patterns.map (Rule.restrictList p)) entries captures begins ends⟩ := by
    cases patterns with
    | none => exact .refl _
    | some rs =>
      exact (Rule.remains_restrictList fun r _ => r.remains_restrict).lift
        (fun rs => (⟨scope, types, first, .mk head (some rs) entries captures begins ends⟩ : Grammar))
        fun _ _ hd => .patterns hd
  refine hpatterns.trans ?_
  cases entries with
  | none => exact .refl _
  | some es =>
    exact (remains_repository es).lift
      (fun es => (⟨scope, types, first, .mk head _ (some es) captures begins ends⟩ : Grammar))
      fun _ _ hd => .repository hd

/-- A walk deletes. -/
theorem remains_leaves (V : Verdicts) (g : Grammar) : g.Remains (g.leaves V) := by
  unfold leaves
  split
  · exact remains_restrict g
  · exact .refl g

end Grammar

namespace PrunePass

/-- Every grammar is what remains of the one that `gs` has for its scope. -/
def Remaining (gs : Assoc Grammar) (p : PrunePass) : Prop :=
  ∀ s g', Assoc.get? p.grammars s = some g' → ∃ g, Assoc.get? gs s = some g ∧ g.Remains g'

/-- Walks only delete. -/
theorem invariant_remaining (gs : Assoc Grammar) (keep : ScopeSet) :
    Invariant keep fun p => Distinct p ∧ Remaining gs p where
  diagnosed _ _ h := h
  enter _ _ h := h
  finish p q s g hs hq hp h := by
    obtain ⟨hd, hr⟩ := h
    refine ⟨(invariant_distinct keep).finish p q s g hs hq hp.1 hd, fun t g' ht => ?_⟩
    rw [PrunePass.finish, Assoc.get?_put] at ht
    split at ht
    · next he =>
      obtain ⟨k, hk, hg⟩ := hp.2 s g hs.loaded
      cases ht
      have hgrammar := (Grammar.inquiry_value (V := verdicts keep p q) (hp.1 s g hs.loaded)).1
      refine ⟨k, he ▸ hk, hg.trans ?_⟩
      exact hgrammar ▸ g.remains_leaves _
    · exact hr t g' ht

/-- A pass leaves of each grammar what remains of it. -/
theorem remains_run {gs : Assoc Grammar} (hd : ∀ s g, Assoc.get? gs s = some g → g.Distinct) (keep : ScopeSet)
    (scopes : List String) : Remaining gs (run gs keep scopes) := by
  have hstart : Remaining gs { grammars := gs } := fun s g hg => ⟨g, hg, .refl g⟩
  exact ((invariant_remaining gs keep).runs (runs_run gs keep scopes) (sound_start gs) ⟨hd, hstart⟩).2

theorem keys_run (gs : Assoc Grammar) (keep : ScopeSet) (scopes : List String) :
    Assoc.keys (run gs keep scopes).grammars = Assoc.keys gs :=
  ((runs_run gs keep scopes).extends (sound_start gs)).1.keys

end PrunePass

end ScopeActions
