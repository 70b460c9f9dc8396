import ScopeActions.Dispatch.Dispatcher
import ScopeActions.Proofs.Dispatch.Bucket
import ScopeActions.Proofs.FirstSeen
/-!
# Grouping

The buckets of a line are the scopes on it that find an action, each where it first occurs, with their texts
(`Dispatcher.buckets_grouped`). A pass over the line that looks a text up among the buckets and the known misses, and
parses it only if it is in neither, comes to the same buckets (`Bucket.Cache.buckets_ofLine`).
-/

namespace ScopeActions

namespace Bucket

variable {admits : Scope → Bool} {k : Scope} {s : String} {texts : List String}

/-! ## The scopes of a line -/

/-- The scope that a text is grouped by. A malformed one and one that is not admitted have none. -/
def key? (admits : Scope → Bool) (s : String) : Option Scope :=
  (Scope.parse? s).filter admits

theorem key?_eq_some : key? admits s = some k ↔ k.text = s ∧ admits k = true := by
  rw [key?, Option.filter_eq_some_iff, Scope.parse?_eq_some]

theorem key?_of_parse? (h : Scope.parse? s = some k) : key? admits s = if admits k then some k else none := by
  rw [key?, h]
  rfl

theorem key?_eq_none_of_parse? (h : Scope.parse? s = none) : key? admits s = none := by
  rw [key?, h]
  rfl

/-- The scopes to group by, in the order in which the texts first occur. -/
def keysOf (admits : Scope → Bool) (texts : List String) : List Scope :=
  texts.eraseDups.filterMap (key? admits)

theorem mem_keysOf : k ∈ keysOf admits texts ↔ k.text ∈ texts ∧ admits k = true := by
  simp only [keysOf, List.mem_filterMap, List.mem_eraseDups, key?_eq_some]
  constructor
  · rintro ⟨s, hs, rfl, hk⟩
    exact ⟨hs, hk⟩
  · rintro ⟨hs, hk⟩
    exact ⟨k.text, hs, rfl, hk⟩

theorem keysOf_concat (admits : Scope → Bool) (texts : List String) (s : String) :
    keysOf admits (texts ++ [s]) =
      if s ∈ texts then keysOf admits texts else keysOf admits texts ++ (key? admits s).toList := by
  unfold keysOf
  rw [eraseDups_concat]
  split
  · rfl
  · rw [List.filterMap_append]
    cases h : key? admits s <;> simp [h]

theorem pairwise_keysOf (admits : Scope → Bool) (texts : List String) :
    (keysOf admits texts).Pairwise fun a b => texts.idxOf a.text < texts.idxOf b.text := by
  unfold keysOf
  rw [List.pairwise_filterMap]
  apply (pairwise_idxOf_eraseDups texts).imp
  intro s s' hlt a ha b hb
  rwa [(key?_eq_some.1 ha).1, (key?_eq_some.1 hb).1]

/-- Texts without a scope to group by can be left out. -/
theorem keysOf_filter (admits : Scope → Bool) (texts : List String) :
    keysOf admits (texts.filter fun s => (key? admits s).isSome) = keysOf admits texts := by
  induction texts using List.reverseRecOn with
  | nil => rfl
  | append_singleton texts s ih =>
    rw [List.filter_append, keysOf_concat]
    cases h : key? admits s with
    | none => simp [h, ih]
    | some k =>
      have hfilter : [s].filter (fun s => (key? admits s).isSome) = [s] := by simp [h]
      have hmem : s ∈ texts.filter (fun s => (key? admits s).isSome) ↔ s ∈ texts := by simp [h]
      rw [hfilter, keysOf_concat, ih, h]
      exact if_congr hmem rfl rfl

/-! ## The naive grouping -/

/-- The scopes of a line with their texts. -/
def grouped (admits : Scope → Bool) (line : String) (tokens : List Token) : List Bucket :=
  (keysOf admits (tokens.flatMap (·.scopes))).map fun k => ⟨k, textsOf k.text line tokens⟩

/-- A text adds a scope if it has one that is not there. -/
theorem scopes_add (admits : Scope → Bool) (text : String) (bs : List Bucket) (s : String) :
    (add admits text bs s).map (·.scope) =
      bs.map (·.scope) ++ (key? admits s).toList.filter (· ∉ bs.map (·.scope)) := by
  induction bs with
  | nil =>
    unfold add
    cases hparse : Scope.parse? s with
    | none => simp [key?_eq_none_of_parse? hparse]
    | some k =>
      rw [key?_of_parse? hparse]
      cases h : admits k <;> simp [h]
  | cons b bs ih =>
    unfold add
    by_cases hb : b.scope.text = s
    · subst hb
      have hnone : (key? admits b.scope.text).toList.filter (· ∉ (b :: bs).map (·.scope)) = [] := by
        rw [List.filter_eq_nil_iff]
        intro k hk
        have hk : k = b.scope := Scope.text_inj.1 (key?_eq_some.1 (Option.mem_toList.1 hk)).1
        simp [hk]
      rw [if_pos rfl, hnone]
      simp
    · have hkeep : (key? admits s).toList.filter (· ∉ (b :: bs).map (·.scope)) =
          (key? admits s).toList.filter (· ∉ bs.map (·.scope)) := by
        apply List.filter_congr
        intro k hk
        have hk : k ≠ b.scope := by
          rintro rfl
          exact hb (key?_eq_some.1 (Option.mem_toList.1 hk)).1
        simp [hk]
      rw [if_neg hb, List.map_cons, ih, hkeep]
      rfl

theorem scopes_foldl (admits : Scope → Bool) (os : List (String × String)) :
    (os.foldl (fun bs o => add admits o.2 bs o.1) []).map (·.scope) = keysOf admits (os.map (·.1)) := by
  -- from the end, where occurrences are added
  induction os using List.reverseRecOn with
  | nil => rfl
  | append_singleton os o ih =>
    rw [List.foldl_append, List.foldl_cons, List.foldl_nil, scopes_add, ih, List.map_append, List.map_singleton,
      keysOf_concat]
    have hknown : ∀ k ∈ (key? admits o.1).toList, k ∈ keysOf admits (os.map (·.1)) ↔ o.1 ∈ os.map (·.1) := by
      intro k hk
      obtain ⟨hs, hadmits⟩ := key?_eq_some.1 (Option.mem_toList.1 hk)
      rw [mem_keysOf, hs]
      exact and_iff_left hadmits
    split
    · next h =>
      rw [List.filter_eq_nil_iff.2, List.append_nil]
      intro k hk
      simp [(hknown k hk).2 h]
    · next h =>
      rw [List.filter_eq_self.2]
      intro k hk
      simpa using (hknown k hk).not.2 h

theorem map_fst_occurrences (line : String) (tokens : List Token) :
    (occurrences line tokens).map (·.1) = tokens.flatMap (·.scopes) := by
  unfold occurrences
  rw [List.map_flatMap]
  apply List.flatMap_congr
  intro t _
  simp [Function.comp_def]

/-- The buckets of a line are the naive grouping. -/
theorem ofLine_eq_grouped (admits : Scope → Bool) (line : String) (tokens : List Token) :
    ofLine admits line tokens = grouped admits line tokens := by
  have hscopes : (ofLine admits line tokens).map (·.scope) = keysOf admits (tokens.flatMap (·.scopes)) := by
    rw [ofLine_eq_foldl, scopes_foldl, map_fst_occurrences]
  have htexts : (ofLine admits line tokens).map (fun b => ⟨b.scope, textsOf b.scope.text line tokens⟩) =
      ofLine admits line tokens := by
    conv_rhs => rw [← List.map_id (ofLine admits line tokens)]
    apply List.map_congr_left
    intro b hb
    rw [← (mem_ofLine hb).2.1]
    rfl
  rw [grouped, ← hscopes, List.map_map, ← htexts]
  simp [Function.comp_def]

/-- The token without those of its scopes that are malformed or not admitted. -/
def strip (admits : Scope → Bool) (t : Token) : Token :=
  { t with scopes := t.scopes.filter fun s => (key? admits s).isSome }

theorem grouped_strip (admits : Scope → Bool) (line : String) (tokens : List Token) :
    grouped admits line (tokens.map (strip admits)) = grouped admits line tokens := by
  have hkeys : keysOf admits ((tokens.map (strip admits)).flatMap (·.scopes)) =
      keysOf admits (tokens.flatMap (·.scopes)) := by
    rw [← keysOf_filter admits (tokens.flatMap (·.scopes)), List.filter_flatMap, List.flatMap_map]
    rfl
  unfold grouped
  rw [hkeys]
  apply List.map_congr_left
  intro k hk
  have hcount : ∀ t : Token, (strip admits t).scopes.count k.text = t.scopes.count k.text := by
    intro t
    apply List.count_filter
    rw [key?_eq_some.2 ⟨rfl, (mem_keysOf.1 hk).2⟩]
    rfl
  unfold textsOf
  rw [List.flatMap_map]
  simp only [hcount]
  rfl

/-! ## The pass over a line -/

/-- Appends a text to the bucket of a scope, if there is one. -/
def push? (text s : String) : List Bucket → Option (List Bucket)
  | [] => none
  | b :: bs =>
    if b.scope.text = s then some ({ b with texts := b.texts ++ [text] } :: bs) else (push? text s bs).map (b :: ·)

/-- What a pass over a line keeps: the buckets so far, and the texts known to have none. -/
structure Cache where
  buckets : List Bucket := []
  misses : List String := []

namespace Cache

/-- A text goes to its bucket. Where there is none, and it is no known miss, it is parsed, and from then on it has a
bucket or is a miss. -/
def add (admits : Scope → Bool) (text : String) (c : Cache) (s : String) : Cache :=
  match push? text s c.buckets with
  | some buckets => { c with buckets }
  | none =>
    if s ∈ c.misses then c
    else
      match Scope.parse? s with
      | none => { c with misses := c.misses ++ [s] }
      | some key =>
        if admits key then { c with buckets := c.buckets ++ [⟨key, [text]⟩] }
        else { c with misses := c.misses ++ [s] }

/-- The pass over all tokens of a line. -/
def ofLine (admits : Scope → Bool) (line : String) (tokens : List Token) : Cache :=
  tokens.foldl (fun c t => t.scopes.foldl (add admits (t.text line)) c) {}

/-- No text that is a miss has a scope to group by. -/
def Sound (admits : Scope → Bool) (c : Cache) : Prop :=
  ∀ s ∈ c.misses, key? admits s = none

theorem add_eq_push? (admits : Scope → Bool) (text : String) (bs : List Bucket) (s : String) :
    Bucket.add admits text bs s =
      (push? text s bs).getD (bs ++ (key? admits s).toList.map fun k => ⟨k, [text]⟩) := by
  induction bs with
  | nil =>
    unfold Bucket.add push?
    cases hparse : Scope.parse? s with
    | none => simp [key?_eq_none_of_parse? hparse]
    | some k =>
      rw [key?_of_parse? hparse]
      cases h : admits k <;> simp [h]
  | cons b bs ih =>
    unfold Bucket.add push?
    split
    · rfl
    · rw [ih]
      cases push? text s bs <;> rfl

/-- With sound misses, the cache has no part in what happens to the buckets. -/
theorem Sound.add {c : Cache} (h : c.Sound admits) (text s : String) :
    (c.add admits text s).buckets = Bucket.add admits text c.buckets s ∧ (c.add admits text s).Sound admits := by
  have hmiss : key? admits s = none → Sound admits { c with misses := c.misses ++ [s] } := by
    intro hs s' hs'
    rcases List.mem_append.1 hs' with hs' | hs'
    · exact h s' hs'
    · rw [List.mem_singleton.1 hs', hs]
  rw [add_eq_push?]
  unfold Cache.add
  cases push? text s c.buckets with
  | some buckets => exact ⟨rfl, h⟩
  | none =>
    dsimp only
    split
    · next hs => exact ⟨by simp [h s hs], h⟩
    · cases hparse : Scope.parse? s with
      | none =>
        have hnone : key? admits s = none := key?_eq_none_of_parse? hparse
        exact ⟨by simp [hnone], hmiss hnone⟩
      | some k =>
        have hkey : key? admits s = if admits k then some k else none := key?_of_parse? hparse
        dsimp only
        by_cases hk : admits k = true
        · rw [if_pos hk] at hkey ⊢
          exact ⟨by simp [hkey], h⟩
        · rw [if_neg hk] at hkey ⊢
          exact ⟨by simp [hkey], hmiss hkey⟩

theorem Sound.foldl {c : Cache} (h : c.Sound admits) (os : List (String × String)) :
    (os.foldl (fun c o => c.add admits o.2 o.1) c).buckets =
      os.foldl (fun bs o => Bucket.add admits o.2 bs o.1) c.buckets := by
  induction os generalizing c with
  | nil => rfl
  | cons o os ih =>
    obtain ⟨hbuckets, hsound⟩ := h.add o.2 o.1
    rw [List.foldl_cons, List.foldl_cons, ih hsound, hbuckets]

/-- The pass with its cache comes to the buckets of the line. -/
theorem buckets_ofLine (admits : Scope → Bool) (line : String) (tokens : List Token) :
    (ofLine admits line tokens).buckets = Bucket.ofLine admits line tokens := by
  have hpass : ofLine admits line tokens =
      (occurrences line tokens).foldl (fun c o => c.add admits o.2 o.1) {} := by
    simp only [ofLine, occurrences, List.foldl_flatMap, List.foldl_map]
  have hstart : Sound admits {} := by
    intro s hs
    cases hs
  rw [hpass, hstart.foldl, ofLine_eq_foldl]

end Cache

end Bucket

namespace Dispatcher

variable {ε : Type}

/-- The buckets of a line are the naive grouping of its tokens. Their scopes are the well-formed ones among the texts on
the line that find an action, in the order in which the texts first occur, and each has the text of a token once for
each time that the scope stands there. A pass that keeps its misses comes to the same, and so does one over tokens from
which all malformed scopes and all without actions are taken. -/
theorem buckets_grouped (d : Dispatcher ε) (line : String) (tokens : List Token) :
    let admits : Scope → Bool := fun k => d.registry.finds k d.options.resolution
    let texts := tokens.flatMap (·.scopes)
    let keys := (d.buckets line tokens).map (·.scope)
    d.buckets line tokens = Bucket.grouped admits line tokens ∧
    (∀ k, k ∈ keys ↔ k.text ∈ texts ∧ admits k = true) ∧
    (keys.Pairwise fun a b => texts.idxOf a.text < texts.idxOf b.text) ∧
    d.buckets line tokens = keys.map (fun k => ⟨k, Bucket.textsOf k.text line tokens⟩) ∧
    d.buckets line tokens = (Bucket.Cache.ofLine admits line tokens).buckets ∧
    d.buckets line tokens = d.buckets line (tokens.map (Bucket.strip admits)) := by
  intro admits texts keys
  have hgrouped : ∀ ts, d.buckets line ts = Bucket.grouped admits line ts := Bucket.ofLine_eq_grouped admits line
  have hkeys : keys = Bucket.keysOf admits texts := by
    change (d.buckets line tokens).map _ = _
    rw [hgrouped, Bucket.grouped, List.map_map]
    exact List.map_id _
  refine ⟨hgrouped tokens, ?_, ?_, ?_, (Bucket.Cache.buckets_ofLine admits line tokens).symm, ?_⟩
  · intro k
    rw [hkeys]
    exact Bucket.mem_keysOf
  · rw [hkeys]
    exact Bucket.pairwise_keysOf admits texts
  · rw [hkeys]
    exact hgrouped tokens
  · rw [hgrouped, hgrouped, Bucket.grouped_strip]

end Dispatcher

end ScopeActions
