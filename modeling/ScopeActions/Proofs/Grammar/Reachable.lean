import Mathlib.Data.List.Perm.Subperm
import ScopeActions.Proofs.Grammar.Rule
/-!
# Reachable entries

`mem_reachable`: following the includes from the patterns finds exactly the entries that the patterns lead
to, each of them once (`nodup_reachable`). The search never runs out of steps, since every rule it takes
from its stack is a pattern or an entry found for the first time.
-/

namespace ScopeActions.Liveness

/-- The entries that the patterns lead to through includes. -/
inductive Reach (patterns : List Rule) (entries : List (String × Rule)) : String → Prop
  | root {r : Rule} {n : String} : r ∈ patterns → n ∈ r.entryInclusions → Assoc.contains entries n = true →
      Reach patterns entries n
  | step {k n : String} {e : Rule} : Reach patterns entries k → Assoc.get? entries k = some e →
      n ∈ e.entryInclusions → Assoc.contains entries n = true → Reach patterns entries n

variable {patterns : List Rule} {entries : List (String × Rule)} {found : List String} {stack : List Rule}

theorem Reach.contains {n : String} (h : Reach patterns entries n) : Assoc.contains entries n = true := by
  cases h <;> assumption

/-- The names that are new are added, each once. -/
theorem discover_spec (entries : List (String × Rule)) (found names : List String) :
    ∃ fresh, discover entries found names = found ++ fresh ∧ fresh.Nodup ∧
      ∀ n, n ∈ fresh ↔ n ∈ names ∧ Assoc.contains entries n = true ∧ n ∉ found := by
  induction names generalizing found with
  | nil => exact ⟨[], by simp [discover]⟩
  | cons name names ih =>
    by_cases h : Assoc.contains entries name = true ∧ name ∉ found
    · have step : discover entries found (name :: names) = discover entries (found ++ [name]) names := by
        simp [discover, h]
      obtain ⟨fresh, hf, hn, hm⟩ := ih (found ++ [name])
      refine ⟨name :: fresh, by rw [step, hf, List.append_assoc]; rfl, ?_, fun n => ?_⟩
      · exact List.nodup_cons.2 ⟨fun hc => ((hm name).1 hc).2.2 (by simp), hn⟩
      · rw [List.mem_cons, hm n, List.mem_append, List.mem_singleton, List.mem_cons]
        by_cases hnn : n = name
        · simp [hnn, h]
        · simp [hnn]
    · have step : discover entries found (name :: names) = discover entries found names := by
        simp only [discover, List.foldl_cons, List.contains_eq_mem, Bool.and_eq_true, Bool.not_eq_true', decide_eq_false_iff_not,
          if_neg h]
      obtain ⟨fresh, hf, hn, hm⟩ := ih found
      refine ⟨fresh, by rw [step, hf], hn, fun n => ?_⟩
      rw [hm n, List.mem_cons]
      constructor
      · exact fun ⟨h1, h2⟩ => ⟨.inr h1, h2⟩
      · rintro ⟨rfl | h1, h2⟩
        · exact absurd h2 h
        · exact ⟨h1, h2⟩

/-- A rule from which the search may go on: a pattern or an entry found. -/
def Source (patterns : List Rule) (entries : List (String × Rule)) (found : List String) (r : Rule) : Prop :=
  r ∈ patterns ∨ ∃ n ∈ found, Assoc.get? entries n = some r

/-- What the search keeps: all that is found is reachable, and a source that is not waiting on the stack has
been followed. -/
structure Searching (patterns : List Rule) (entries : List (String × Rule)) (found : List String)
    (stack : List Rule) : Prop where
  nodup : found.Nodup
  reach : ∀ n ∈ found, Reach patterns entries n
  sources : ∀ r ∈ stack, Source patterns entries found r
  followed : ∀ r, Source patterns entries found r → r ∈ stack ∨
    ∀ n ∈ r.entryInclusions, Assoc.contains entries n = true → n ∈ found

theorem Searching.start : Searching patterns entries [] patterns.reverse where
  nodup := List.nodup_nil
  reach n hn := by cases hn
  sources r hr := .inl (List.mem_reverse.1 hr)
  followed r hr := by
    rcases hr with hr | ⟨n, hn, -⟩
    · exact .inl (List.mem_reverse.2 hr)
    · cases hn

theorem Searching.length_le (h : Searching patterns entries found stack) : found.length ≤ entries.length := by
  have hsub : found ⊆ Assoc.keys entries := fun n hn => Assoc.contains_iff_mem_keys.1 (h.reach n hn).contains
  simpa [Assoc.keys] using (h.nodup.subperm hsub).length_le

/-- The rules of new entries go onto the stack. -/
theorem Searching.next {r : Rule} {fresh : List String} (h : Searching patterns entries found (r :: stack))
    (hn : fresh.Nodup)
    (hm : ∀ n, n ∈ fresh ↔ n ∈ r.entryInclusions ∧ Assoc.contains entries n = true ∧ n ∉ found) :
    Searching patterns entries (found ++ fresh) ((fresh.filterMap (Assoc.get? entries)).reverse ++ stack) := by
  have hr : Source patterns entries found r := h.sources r List.mem_cons_self
  have grown : ∀ x, Source patterns entries found x → Source patterns entries (found ++ fresh) x := by
    rintro x (hx | ⟨n, hn, hx⟩)
    · exact .inl hx
    · exact .inr ⟨n, List.mem_append_left fresh hn, hx⟩
  refine ⟨?_, fun n hn => ?_, fun x hx => ?_, fun x hx => ?_⟩
  · exact List.nodup_append.2 ⟨h.nodup, hn, fun a ha b hb e => ((hm b).1 hb).2.2 (e ▸ ha)⟩
  · rcases List.mem_append.1 hn with hn | hn
    · exact h.reach n hn
    · obtain ⟨hi, hc, -⟩ := (hm n).1 hn
      rcases hr with hr | ⟨k, hk, hr⟩
      · exact .root hr hi hc
      · exact .step (h.reach k hk) hr hi hc
  · rcases List.mem_append.1 hx with hx | hx
    · obtain ⟨n, hn, hx⟩ := List.mem_filterMap.1 (List.mem_reverse.1 hx)
      exact .inr ⟨n, List.mem_append_right found hn, hx⟩
    · exact grown x (h.sources x (List.mem_cons_of_mem r hx))
  · have old : Source patterns entries found x →
        x ∈ (fresh.filterMap (Assoc.get? entries)).reverse ++ stack ∨
          ∀ n ∈ x.entryInclusions, Assoc.contains entries n = true → n ∈ found ++ fresh := by
      intro hx
      rcases h.followed x hx with hx | hx
      · rcases List.mem_cons.1 hx with rfl | hx
        -- the rule just followed: what it includes was found before or is fresh
        · refine .inr fun n hi hc => ?_
          by_cases hf : n ∈ found
          · exact List.mem_append_left fresh hf
          · exact List.mem_append_right found ((hm n).2 ⟨hi, hc, hf⟩)
        · exact .inl (List.mem_append_right _ hx)
      · exact .inr fun n hi hc => List.mem_append_left fresh (hx n hi hc)
    rcases hx with hx | ⟨n, hn, hx⟩
    · exact old (.inl hx)
    · rcases List.mem_append.1 hn with hn | hn
      · exact old (.inr ⟨n, hn, hx⟩)
      · exact .inl (List.mem_append_left stack (List.mem_reverse.2 (List.mem_filterMap.2 ⟨n, hn, hx⟩)))

/-- One step of the search. -/
theorem follow_cons {fresh : List String} {r : Rule} (hf : discover entries found r.entryInclusions = found ++ fresh)
    (k : Nat) (stack : List Rule) : follow entries (k + 1) found (r :: stack) =
      follow entries k (found ++ fresh) ((fresh.filterMap (Assoc.get? entries)).reverse ++ stack) := by
  rw [follow]
  simp only [hf, List.drop_left]

theorem follow_nil (k : Nat) (found : List String) : follow entries k found [] = found := by
  cases k <;> rfl

theorem length_filterMap_get? {names : List String} (h : ∀ n ∈ names, Assoc.contains entries n = true) :
    (names.filterMap (Assoc.get? entries)).length = names.length := by
  induction names with
  | nil => rfl
  | cons n names ih =>
    obtain ⟨e, he⟩ := Assoc.exists_of_contains (h n List.mem_cons_self)
    rw [List.filterMap_cons_some he, List.length_cons, ih fun k hk => h k (List.mem_cons_of_mem n hk),
      List.length_cons]

/-- With enough steps the search ends with an empty stack. -/
theorem searching_follow (k : Nat) (h : Searching patterns entries found stack)
    (hk : stack.length + entries.length ≤ k + found.length) :
    Searching patterns entries (follow entries k found stack) [] := by
  induction k generalizing found stack with
  | zero =>
    -- every entry found is one of the grammar, so without steps left nothing can be on the stack
    have := h.length_le
    obtain rfl : stack = [] := List.eq_nil_of_length_eq_zero (by omega)
    exact h
  | succ k ih =>
    cases stack with
    | nil => exact h
    | cons r stack =>
      obtain ⟨fresh, hf, hn, hm⟩ := discover_spec entries found r.entryInclusions
      have hlen := length_filterMap_get? fun n hn => ((hm n).1 hn).2.1
      rw [follow_cons hf]
      refine ih (h.next hn hm) ?_
      simp only [List.length_append, List.length_reverse, hlen, List.length_cons] at hk ⊢
      omega

theorem searching_reachable (patterns : List Rule) (entries : List (String × Rule)) :
    Searching patterns entries (reachable patterns entries) [] :=
  searching_follow _ .start (by simp)

/-- The search finds exactly the entries that the patterns lead to. -/
theorem mem_reachable {n : String} : n ∈ reachable patterns entries ↔ Reach patterns entries n := by
  have h := searching_reachable patterns entries
  have followed : ∀ r, Source patterns entries (reachable patterns entries) r →
      ∀ n ∈ r.entryInclusions, Assoc.contains entries n = true → n ∈ reachable patterns entries := fun r hr =>
    (h.followed r hr).resolve_left List.not_mem_nil
  refine ⟨h.reach n, fun hn => ?_⟩
  induction hn with
  | root hr hi hc => exact followed _ (.inl hr) _ hi hc
  | step _ he hi hc ih => exact followed _ (.inr ⟨_, ih, he⟩) _ hi hc

theorem nodup_reachable (patterns : List Rule) (entries : List (String × Rule)) :
    (reachable patterns entries).Nodup :=
  (searching_reachable patterns entries).nodup

end ScopeActions.Liveness
