import Mathlib.Data.List.Induction
import ScopeActions.Dispatch.Bucket
import ScopeActions.Proofs.Registry.Scope
/-!
# Buckets

A line has one bucket for each scope that is admitted and stands on it, with the texts of the tokens that carry the
scope (`Bucket.filter_ofLine`).
-/

namespace ScopeActions.Bucket

variable {admits : Scope → Bool} {k : Scope} {bs : List Bucket} {scope text line : String} {tokens : List Token}

/-- The texts of the tokens that carry a scope, one for each time that the scope stands there. -/
def textsOf (scope line : String) (tokens : List Token) : List String :=
  tokens.flatMap fun t => List.replicate (t.scopes.count scope) (t.text line)

theorem textsOf_eq_nil : textsOf scope line tokens = [] ↔ ∀ t ∈ tokens, scope ∉ t.scopes := by
  simp [textsOf, List.count_eq_zero]

/-- The scopes on a line, each with the text of its token, in order. -/
def occurrences (line : String) (tokens : List Token) : List (String × String) :=
  tokens.flatMap fun t => t.scopes.map fun s => (s, t.text line)

/-- The texts that occur with a scope. -/
def textsIn (scope : String) (os : List (String × String)) : List String :=
  (os.filter fun o => o.1 = scope).map (·.2)

theorem textsIn_occurrences : textsIn scope (occurrences line tokens) = textsOf scope line tokens := by
  have htoken : ∀ t : Token, ((t.scopes.map fun s => (s, t.text line)).filter fun o => o.1 = scope).map (·.2) =
      List.replicate (t.scopes.count scope) (t.text line) := by
    intro t
    rw [List.filter_map, List.map_map, List.count_eq_length_filter, ← List.map_const']
    rfl
  simp only [textsIn, occurrences, textsOf, List.filter_flatMap, List.map_flatMap, htoken]

/-- The buckets of a line grow by one occurrence after the other. -/
theorem ofLine_eq_foldl (admits : Scope → Bool) (line : String) (tokens : List Token) :
    ofLine admits line tokens = (occurrences line tokens).foldl (fun bs o => add admits o.2 bs o.1) [] := by
  simp only [ofLine, occurrences, List.foldl_flatMap, List.foldl_map]

/-- An occurrence concerns the bucket of its scope only. -/
theorem filter_add (admits : Scope → Bool) (text : String) (bs : List Bucket) (scope : String) (k : Scope) :
    (add admits text bs scope).filter (fun b => b.scope = k) =
      if k.text = scope then
        match bs.filter fun b => b.scope = k with
        | [] => if admits k then [⟨k, [text]⟩] else []
        | b :: rest => { b with texts := b.texts ++ [text] } :: rest
      else bs.filter fun b => b.scope = k := by
  induction bs with
  | nil =>
    unfold add
    cases hp : Scope.parse? scope with
    | none =>
      have hk : k.text ≠ scope := fun h => by simp [Scope.parse?_eq_some.2 h] at hp
      rw [if_neg hk]
    | some key =>
      obtain rfl := Scope.parse?_eq_some.1 hp
      by_cases hk : k = key
      · subst hk
        cases hadmits : admits k <;> simp [hadmits]
      · have hkey : ¬k.text = key.text := fun h => hk (Scope.text_inj.1 h)
        cases admits key <;> simp [hkey, Ne.symm hk]
  | cons b bs ih =>
    unfold add
    by_cases hb : b.scope.text = scope
    · subst hb
      by_cases hk : b.scope = k
      · simp [hk]
      · have hkey : ¬k.text = b.scope.text := fun h => hk (Scope.text_inj.1 h).symm
        simp [hk, hkey]
    · rw [if_neg hb, List.filter_cons, List.filter_cons, ih]
      by_cases hk : b.scope = k
      · subst hk
        simp [hb]
      · simp [hk]

/-- Each scope admitted that occurs has one bucket, with all its texts. -/
theorem filter_foldl (admits : Scope → Bool) (os : List (String × String)) (k : Scope) :
    (os.foldl (fun bs o => add admits o.2 bs o.1) []).filter (fun b => b.scope = k) =
      if admits k = true ∧ textsIn k.text os ≠ [] then [⟨k, textsIn k.text os⟩] else [] := by
  -- from the end, where occurrences are added
  induction os using List.reverseRecOn with
  | nil => simp [textsIn]
  | append_singleton os o ih =>
    rw [List.foldl_append, List.foldl_cons, List.foldl_nil, filter_add, ih]
    by_cases ho : k.text = o.1
    · have htexts : textsIn k.text (os ++ [o]) = textsIn k.text os ++ [o.2] := by simp [textsIn, ho]
      rw [if_pos ho, htexts]
      cases hadmits : admits k
      · simp
      · cases textsIn k.text os <;> simp
    · have htexts : textsIn k.text (os ++ [o]) = textsIn k.text os := by simp [textsIn, Ne.symm ho]
      rw [if_neg ho, htexts]

/-- Each scope admitted that stands on a line has one bucket, with the texts of all tokens that carry it. -/
theorem filter_ofLine (admits : Scope → Bool) (line : String) (tokens : List Token) (k : Scope) :
    (ofLine admits line tokens).filter (fun b => b.scope = k) =
      if admits k = true ∧ textsOf k.text line tokens ≠ [] then [⟨k, textsOf k.text line tokens⟩] else [] := by
  rw [ofLine_eq_foldl, filter_foldl, textsIn_occurrences]

theorem mem_ofLine {b : Bucket} (hb : b ∈ ofLine admits line tokens) :
    admits b.scope = true ∧ b.texts = textsOf b.scope.text line tokens ∧ b.texts ≠ [] := by
  have hmem : b ∈ (ofLine admits line tokens).filter fun c => c.scope = b.scope :=
    List.mem_filter.2 ⟨hb, decide_eq_true rfl⟩
  rw [filter_ofLine] at hmem
  split at hmem
  · next h =>
    have heq := congrArg texts (List.mem_singleton.1 hmem)
    exact ⟨h.1, heq, heq ▸ h.2⟩
  · cases hmem

end ScopeActions.Bucket
