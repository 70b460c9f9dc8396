import ScopeActions.Proofs.Registry.Attempt
import ScopeActions.Proofs.Text.Split
/-!
# What a scope's segments tell

Scopes are read, compared and shortened as texts. What comes out is what their segments say: a scope is the join of its
segments, its ancestors are the prefixes of these, and its parent is all but the last (`Scope.segments_tell`).
-/

namespace ScopeActions.Scope

variable {a k p : Scope} {s : String} {segments : List String} {e e' : ScopeError}

/-- A text that can be a segment of a scope. -/
def IsSegment (s : String) : Prop :=
  s ≠ "" ∧ '.' ∉ s.toList

/-! ## Reading -/

theorem isSegment_of_mem_segments (h : s ∈ k.segments) : IsSegment s := by
  refine ⟨?_, Text.notMem_of_mem_split h⟩
  rintro rfl
  exact not_malformed_text k (.inr h)

/-- Segments whose join is read are those of the scope. -/
theorem exists_parse_iff : (∃ k, parse s = .ok k ∧ k.segments = segments) ↔
    segments ≠ [] ∧ (∀ x ∈ segments, IsSegment x) ∧ s = ".".intercalate segments := by
  constructor
  · rintro ⟨k, hk, rfl⟩
    obtain rfl := text_of_parse hk
    exact ⟨Text.split_ne_nil '.' k.text, fun x hx => isSegment_of_mem_segments hx, (Text.intercalate_split rfl k.text).symm⟩
  · rintro ⟨hne, hsegments, rfl⟩
    have hsplit : Text.split '.' (".".intercalate segments) = segments :=
      Text.split_intercalate rfl hne fun x hx => (hsegments x hx).2
    have hpieces : ∀ cs ∈ Text.splitOn '.' (".".intercalate segments).toList, cs ≠ [] := by
      rintro _ hcs rfl
      have hempty : "" ∈ Text.split '.' (".".intercalate segments) := List.mem_map.2 ⟨[], hcs, rfl⟩
      exact (hsegments "" (hsplit ▸ hempty)).1 rfl
    exact ⟨⟨_, hpieces⟩, parse_text ⟨_, hpieces⟩, hsplit⟩

theorem Fault.malformed (h : Fault s e) : Malformed s := by
  cases e with
  | empty => exact .inl h
  | emptySegment t i =>
    obtain ⟨-, -, before, after, hsplit, -, -⟩ := h
    exact .inr (by simp [hsplit])

theorem idxOf_empty {before : List String} (h : "" ∉ before) (after : List String) :
    (before ++ "" :: after).idxOf "" = before.length := by
  rw [List.idxOf_append_of_notMem h, List.idxOf_cons_self, Nat.add_zero]

/-- A text has one fault: there is one first segment that is empty. -/
theorem Fault.unique (h : Fault s e) (h' : Fault s e') : e = e' := by
  cases e with
  | empty =>
    cases e' with
    | empty => rfl
    | emptySegment => exact absurd h h'.2.1
  | emptySegment t i =>
    obtain ⟨rfl, hne, before, after, hsplit, hbefore, rfl⟩ := h
    cases e' with
    | empty => exact absurd h' hne
    | emptySegment t' i' =>
      obtain ⟨rfl, -, before', after', hsplit', hbefore', rfl⟩ := h'
      have hindex : before.length = before'.length := by
        rw [← idxOf_empty hbefore after, ← hsplit, hsplit', idxOf_empty hbefore']
      rw [hindex]

theorem parse_eq_error_iff : parse s = .error e ↔ Fault s e := by
  refine ⟨fun h => (fault_of_parse h).2, fun h => ?_⟩
  cases hs : parse s with
  | error e' => rw [(fault_of_parse hs).2.unique h]
  | ok k => exact absurd h.malformed (text_of_parse hs ▸ not_malformed_text k)

theorem parse_eq_emptySegment_iff {t : String} {i : Nat} : parse s = .error (.emptySegment t i) ↔ t = s ∧ s ≠ "" ∧
    ∃ before after, s = ".".intercalate (before ++ "" :: after) ∧ (∀ x ∈ before, IsSegment x) ∧
      (∀ x ∈ after, '.' ∉ x.toList) ∧ before.length = i := by
  have hmark : ".".toList = ['.'] := rfl
  rw [parse_eq_error_iff]
  refine and_congr_right fun _ => and_congr_right fun _ => exists_congr fun before => exists_congr fun after => ?_
  rw [Text.split_eq_iff hmark]
  simp only [List.forall_mem_append, List.forall_mem_cons]
  constructor
  · rintro ⟨⟨-, ⟨hbefore, -, hafter⟩, hs⟩, hfirst, hlength⟩
    exact ⟨hs, fun x hx => ⟨ne_of_mem_of_not_mem hx hfirst, hbefore x hx⟩, hafter, hlength⟩
  · rintro ⟨hs, hbefore, hafter, hlength⟩
    refine ⟨⟨by simp, ⟨fun x hx => (hbefore x hx).2, by simp, hafter⟩, hs⟩, ?_, hlength⟩
    exact fun hmem => (hbefore "" hmem).1 rfl

/-! ## Parents -/

theorem parent?_eq_some_iff : a.parent? = some p ↔ p.segments = a.segments.dropLast := by
  refine ⟨segments_of_parent?, fun h => ?_⟩
  cases ha : a.parent? with
  | some q => rw [segments_inj.1 ((segments_of_parent? ha).trans h.symm)]
  | none =>
    obtain ⟨x, hx⟩ := exists_segments_of_parent? ha
    rw [hx] at h
    exact absurd h (Text.split_ne_nil '.' p.text)

theorem parent?_eq_none_iff : a.parent? = none ↔ ∃ x, a.segments = [x] := by
  refine ⟨exists_segments_of_parent?, ?_⟩
  rintro ⟨x, hx⟩
  refine Option.eq_none_iff_forall_ne_some.2 fun p hp => ?_
  have hp := segments_of_parent? hp
  rw [hx] at hp
  exact Text.split_ne_nil '.' p.text hp

/-- What is done with scopes as texts is told by their segments. The texts that are read are the joins of segments, at
least one of them, and have these as their segments. A text that is not read is empty or a join with an empty segment, of
which the first is named. Of two scopes one covers the other if its segments are a prefix of the other's; a scope starts
with a text if this is read as a scope that does. The parent is read from its text and has all segments but the last; only
a single segment has none. -/
theorem segments_tell (s : String) :
    (∀ segments, (∃ k, parse s = .ok k ∧ k.segments = segments) ↔
      segments ≠ [] ∧ (∀ x ∈ segments, IsSegment x) ∧ s = ".".intercalate segments) ∧
    (parse s = .error .empty ↔ s = "") ∧
    (∀ t i, parse s = .error (.emptySegment t i) ↔ t = s ∧ s ≠ "" ∧
      ∃ before after, s = ".".intercalate (before ++ "" :: after) ∧ (∀ x ∈ before, IsSegment x) ∧
        (∀ x ∈ after, '.' ∉ x.toList) ∧ before.length = i) ∧
    (∀ a b : Scope, a.covers b = true ↔ a.segments <+: b.segments) ∧
    (∀ b : Scope, b.startsWith s = true ↔ ∃ k, parse s = .ok k ∧ k.segments <+: b.segments) ∧
    (∀ a p : Scope, a.parent? = some p ↔ parse p.text = .ok p ∧ p.segments = a.segments.dropLast) ∧
    ∀ a : Scope, a.parent? = none ↔ ∃ x, a.segments = [x] := by
  refine ⟨fun segments => exists_parse_iff, parse_eq_error_iff, fun t i => parse_eq_emptySegment_iff, fun a b => ?_,
    fun b => ?_, fun a p => ?_, fun a => parent?_eq_none_iff⟩
  · calc a.covers b = true
      _ ↔ b.startsWith a.text = true := Iff.rfl
      _ ↔ ∃ k : Scope, k.text = a.text ∧ k.segments <+: b.segments := startsWith_iff
      _ ↔ a.segments <+: b.segments := by simp [text_inj]
  · rw [startsWith_iff]
    refine exists_congr fun k => and_congr_left fun _ => ?_
    constructor
    · rintro rfl
      exact parse_text k
    · exact text_of_parse
  · rw [parent?_eq_some_iff, and_iff_right (parse_text p)]

example : parse "a..b." = .error (.emptySegment "a..b." 1) := by decide +kernel

end ScopeActions.Scope
