import Mathlib.Data.List.Infix
import ScopeActions.Scope
/-!
# Scopes as lists of segments

A scope is told by its text and by its segments alike, and reading the text of a scope gives the scope. Prefixes are
decided on the text (`Scope.startsWith_iff`), and so are ancestors, which are prefixes (`Scope.map_segments_selfAndAncestors`).
-/

namespace ScopeActions.Scope

theorem text_of_parse {s : String} {k : Scope} (h : parse s = .ok k) : k.text = s := by
  unfold parse at h
  split at h
  · cases h
  · split at h
    · cases h
    · cases h
      rfl

theorem parse_text (k : Scope) : parse k.text = .ok k := by
  have hne : k.text ≠ "" := by
    intro h
    exact k.segments_ne_nil [] (by simp [h, Text.splitOn]) rfl
  unfold parse
  rw [if_neg hne]
  split
  · next i hi =>
    obtain ⟨hlt, hempty, -⟩ := List.findIdx?_eq_some_iff_getElem.1 hi
    exact absurd (List.isEmpty_iff.1 hempty) (k.segments_ne_nil _ (List.getElem_mem hlt))
  · rfl

theorem parse?_eq_some {s : String} {k : Scope} : parse? s = some k ↔ k.text = s := by
  unfold parse?
  constructor
  · intro h
    cases hp : parse s with
    | error e => simp [hp, Except.toOption] at h
    | ok k' =>
      obtain rfl : k' = k := by simpa [hp, Except.toOption] using h
      exact text_of_parse hp
  · rintro rfl
    rw [parse_text]
    rfl

theorem text_inj {a b : Scope} : a.text = b.text ↔ a = b :=
  ⟨ext_text, congrArg text⟩

/-- Scopes with the same segments are the same. -/
theorem segments_inj {a b : Scope} : a.segments = b.segments ↔ a = b := by
  refine ⟨fun h => ext_text ?_, congrArg segments⟩
  unfold segments Text.split at h
  have h := congrArg (Text.joinWith '.') ((List.map_inj_right fun _ _ => String.ofList_injective).1 h)
  rw [Text.joinWith_splitOn, Text.joinWith_splitOn] at h
  exact String.toList_injective h

/-! ## Prefixes -/

theorem continues_iff {full start : List Char} :
    continues full start = true ↔ full = start ∨ ∃ rest, full = start ++ '.' :: rest := by
  unfold continues
  split
  · next h =>
    rw [List.isPrefixOf?_eq_some_iff_append_eq, List.append_nil] at h
    simp [h]
  · next c rest h =>
    rw [List.isPrefixOf?_eq_some_iff_append_eq] at h
    rw [← h, beq_iff_eq]
    constructor
    · rintro rfl
      exact .inr ⟨rest, rfl⟩
    · rintro (h | ⟨rest', h⟩)
      · simp at h
      · exact (List.cons.inj (List.append_cancel_left h)).1
  · next h =>
    have hnot : ∀ rest, start ++ rest ≠ full := by
      intro rest hrest
      rw [List.isPrefixOf?_eq_some_iff_append_eq.2 hrest] at h
      cases h
    simp only [Bool.false_eq_true, false_iff, not_or, not_exists]
    refine ⟨fun h => hnot [] ?_, fun rest h => hnot _ h.symm⟩
    rw [h, List.append_nil]

/-- The text of a scope goes on after a start if the start is a scope, and its segments come first. -/
theorem startsWith_iff {k : Scope} {start : String} :
    k.startsWith start = true ↔ ∃ s : Scope, s.text = start ∧ s.segments <+: k.segments := by
  rw [startsWith, continues_iff]
  constructor
  · rintro (h | ⟨rest, h⟩)
    · exact ⟨k, String.toList_injective h, List.prefix_rfl⟩
    · have hsplit : Text.splitOn '.' k.text.toList = Text.splitOn '.' start.toList ++ Text.splitOn '.' rest := by
        rw [h, Text.splitOn_append]
      have hne : ∀ s ∈ Text.splitOn '.' start.toList, s ≠ [] := by
        intro s hs
        apply k.segments_ne_nil
        rw [hsplit]
        exact List.mem_append_left _ hs
      have hsegments : k.segments = Text.split '.' start ++ (Text.splitOn '.' rest).map String.ofList := by
        rw [segments, Text.split, hsplit, List.map_append]
        rfl
      exact ⟨⟨start, hne⟩, rfl, _, hsegments.symm⟩
  · rintro ⟨s, rfl, rest, hrest⟩
    rcases eq_or_ne rest [] with rfl | hne
    · rw [List.append_nil] at hrest
      exact .inl (congrArg (·.text.toList) (segments_inj.1 hrest.symm))
    · have hpieces : Text.splitOn '.' k.text.toList = Text.splitOn '.' s.text.toList ++ rest.map String.toList := by
        apply (List.map_inj_right fun _ _ => String.ofList_injective).1
        change k.segments = _
        rw [← hrest, List.map_append, List.map_map]
        simp [segments, Text.split, Function.comp_def]
      refine .inr ⟨Text.joinWith '.' (rest.map String.toList), ?_⟩
      calc k.text.toList = Text.joinWith '.' (Text.splitOn '.' k.text.toList) := (Text.joinWith_splitOn _ _).symm
        _ = Text.joinWith '.' (Text.splitOn '.' s.text.toList ++ rest.map String.toList) := by rw [hpieces]
        _ = s.text.toList ++ '.' :: Text.joinWith '.' (rest.map String.toList) := by
          rw [Text.joinWith_append '.' (Text.splitOn_ne_nil _ _) (by simpa using hne), Text.joinWith_splitOn]

/-! ## Ancestors -/

/-- A text without a separator is one piece. -/
theorem splitOn_of_beforeLast {sep : Char} {cs : List Char} (h : beforeLast sep cs = none) :
    Text.splitOn sep cs = [cs] := by
  induction cs with
  | nil => rfl
  | cons c cs ih =>
    unfold beforeLast at h
    split at h
    · cases h
    · next hcs =>
      split at h
      · cases h
      · next hc => simp [Text.splitOn, hc, ih hcs]

theorem segments_of_parent? {k p : Scope} (h : k.parent? = some p) : p.segments = k.segments.dropLast := by
  unfold parent? at h
  split at h
  · cases h
  · next before hbefore =>
    cases h
    simp [segments, Text.split, splitOn_eq_of_beforeLast hbefore, List.map_dropLast]

theorem exists_segments_of_parent? {k : Scope} (h : k.parent? = none) : ∃ s, k.segments = [s] := by
  unfold parent? at h
  split at h
  · next hbefore => exact ⟨_, by rw [segments, Text.split, splitOn_of_beforeLast hbefore, List.map_singleton]⟩
  · cases h

theorem selfAndAncestors_of_none {k : Scope} (h : k.parent? = none) : k.selfAndAncestors = [k] := by
  unfold selfAndAncestors
  split
  · rfl
  · next hp => cases h.symm.trans hp

theorem selfAndAncestors_of_some {k p : Scope} (h : k.parent? = some p) :
    k.selfAndAncestors = k :: p.selfAndAncestors := by
  rw [selfAndAncestors]
  split
  · next hp => cases h.symm.trans hp
  · next hp =>
    cases h.symm.trans hp
    rfl

/-- A scope and its ancestors are the prefixes of its segments but the empty one, the longest first. -/
theorem map_segments_selfAndAncestors (k : Scope) :
    k.selfAndAncestors.map segments = k.segments.inits.tail.reverse := by
  induction k using selfAndAncestors.induct with
  | case1 k h =>
    obtain ⟨s, hs⟩ := exists_segments_of_parent? h
    simp [selfAndAncestors_of_none h, hs]
  | case2 k p h ih =>
    have hne : k.segments ≠ [] := by simp [segments, Text.split, Text.splitOn_ne_nil]
    have hsplit : k.segments = p.segments ++ [k.segments.getLast hne] := by
      rw [segments_of_parent? h, List.dropLast_append_getLast]
    have hinits : k.segments.inits.tail = p.segments.inits.tail ++ [k.segments] := by
      have hstart : p.segments.inits ≠ [] := List.ne_nil_of_mem ((List.mem_inits _ _).2 List.nil_prefix)
      rw [hsplit, List.inits_append, List.tail_append_of_ne_nil hstart]
      rfl
    rw [selfAndAncestors_of_some h, List.map_cons, ih, hinits, List.reverse_append]
    rfl

end ScopeActions.Scope
