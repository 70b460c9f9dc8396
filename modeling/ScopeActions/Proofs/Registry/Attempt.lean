import Mathlib.Data.List.Dedup
import ScopeActions.Proofs.Registry.Log
/-!
# Runs of registrations

A call to register an action is refused when its scope is malformed, and the registry stays as it is. After any
calls a registry is told by the log of those that were accepted (`Registry.attemptAll_log`).
-/

namespace ScopeActions

/-! ## Malformed scopes -/

namespace Scope

/-- The text is empty or one of its segments is. -/
def Malformed (text : String) : Prop :=
  text = "" ∨ "" ∈ Text.split '.' text

instance (text : String) : Decidable (Malformed text) :=
  inferInstanceAs (Decidable (_ ∨ _))

/-- Why a text is malformed: it is empty, or this is the first of its segments that is. -/
def Fault (text : String) : ScopeError → Prop
  | .empty => text = ""
  | .emptySegment scope index => scope = text ∧ text ≠ "" ∧
      ∃ before after, Text.split '.' text = before ++ "" :: after ∧ "" ∉ before ∧ before.length = index

theorem not_malformed_text (k : Scope) : ¬Malformed k.text := by
  rintro (h | h)
  · exact k.segments_ne_nil [] (by simp [h, Text.splitOn]) rfl
  · obtain ⟨s, hs, he⟩ := List.mem_map.1 h
    exact k.segments_ne_nil s hs (by simpa using he)

/-- A text that cannot be read is malformed, and the error says why. -/
theorem fault_of_parse {text : String} {e : ScopeError} (h : parse text = .error e) : Malformed text ∧ Fault text e := by
  unfold parse at h
  split at h
  · next hempty =>
    cases h
    exact ⟨.inl hempty, hempty⟩
  · next hne =>
    split at h
    · next i hi =>
      cases h
      obtain ⟨hlt, hnil, hfirst⟩ := List.findIdx?_eq_some_iff_getElem.1 hi
      generalize hpieces : Text.splitOn '.' text.toList = pieces at hlt hnil hfirst
      have hsplit : Text.split '.' text = (pieces.take i).map String.ofList ++ "" :: (pieces.drop (i + 1)).map String.ofList := by
        have hpiece : String.ofList pieces[i] = "" := congrArg String.ofList (List.isEmpty_iff.1 hnil)
        rw [Text.split, hpieces, ← hpiece, ← List.map_cons, List.getElem_cons_drop, ← List.map_append, List.take_append_drop]
      refine ⟨.inr (by simp [hsplit]), rfl, hne, _, _, hsplit, ?_, by simp; omega⟩
      intro hmem
      obtain ⟨s, hs, he⟩ := List.mem_map.1 hmem
      obtain ⟨j, hj, rfl⟩ := List.mem_take_iff_getElem.1 hs
      exact absurd (hfirst j (by omega)) (by simpa using he)
    · cases h

end Scope

/-! ## Calls -/

/-- A call to register an action. -/
structure Registration (η : Type) where
  scope : String
  source : String
  handler : η

/-- What the call answers: an entry of its own on its scope, or an error with what is wrong with the scope. -/
def Registration.Answers {η : Type} (c : Registration η) : Except RegistrationError (Entry η) → Prop
  | .ok e => e.scope.text = c.scope ∧ e.source = c.source ∧ e.handler = c.handler
  | .error e => e.scope = c.scope ∧ e.source = c.source ∧ Scope.Malformed c.scope ∧ Scope.Fault c.scope e.cause

namespace Registry

variable {η : Type} {r r' : Registry η} {log : List (Entry η)} {e : Entry η}

/-- Makes a call. -/
def attempt (r : Registry η) (c : Registration η) : Except RegistrationError (Entry η) × Registry η :=
  r.register c.scope c.source c.handler

/-- Makes calls one after the other, whether they are refused or not. -/
def attemptAll (r : Registry η) : List (Registration η) → List (Except RegistrationError (Entry η)) × Registry η
  | [] => ([], r)
  | c :: calls =>
    let (answer, r) := r.attempt c
    let (answers, r) := r.attemptAll calls
    (answer :: answers, r)

/-- The entries that were registered. -/
def accepted (answers : List (Except RegistrationError (Entry η))) : List (Entry η) :=
  answers.filterMap Except.toOption

/-! ## What is counted -/

/-- The registry holds this log, and counts its scopes and its entries. -/
structure Counts (r : Registry η) (log : List (Entry η)) : Prop where
  records : r.Records log
  scopeCount : r.scopeCount = (log.map (·.scope)).dedup.length
  size : r.size = log.length

theorem counts_empty : (empty : Registry η).Counts [] :=
  ⟨records_empty, rfl, rfl⟩

/-- Registration looks for actions at the end of the path of a scope. They are there if the scope is in the log. -/
theorem Records.known_iff (h : r.Records log) (k : Scope) :
    (match r.root.find? k.segments with
      | some n => !n.entries.isEmpty
      | none => false) = true ↔ k ∈ log.map (·.scope) := by
  have hknown : (match r.root.find? k.segments with
      | some n => !n.entries.isEmpty
      | none => false) = !(r.root.entriesAt k.segments).isEmpty := by
    rw [Trie.entriesAt]
    cases r.root.find? k.segments <;> rfl
  rw [hknown, h.entriesAt, filter_segments, Bool.not_eq_true', List.isEmpty_eq_false_iff_exists_mem, List.mem_map]
  simp only [List.mem_filter, decide_eq_true_eq]

theorem length_dedup_append (ks : List Scope) (k : Scope) :
    (ks ++ [k]).dedup.length = if k ∈ ks then ks.dedup.length else ks.dedup.length + 1 := by
  rw [((List.perm_append_singleton k ks).dedup).length_eq]
  split
  · next hk => rw [List.dedup_cons_of_mem hk]
  · next hk => rw [List.dedup_cons_of_notMem hk, List.length_cons]

theorem Counts.register {scope source : String} {handler : η} (h : r.Counts log)
    (hr : r.register scope source handler = (.ok e, r')) : r'.Counts (log ++ [e]) := by
  obtain ⟨-, -, -, hroot⟩ := register_eq_ok hr
  unfold Registry.register at hr
  split at hr
  · cases hr
  · next key _ =>
    cases hr
    refine ⟨h.records.append hroot, ?_, ?_⟩
    · rw [List.map_append, List.map_singleton, length_dedup_append, ← h.scopeCount]
      exact if_congr (h.records.known_iff key) rfl rfl
    · rw [List.length_append, ← h.size]
      rfl

/-! ## Runs -/

/-- A call answers for its scope. When it is accepted the entry goes to the end of the log, and when it is refused the
registry is the same. -/
theorem Counts.attempt (h : r.Counts log) (c : Registration η) :
    c.Answers (r.attempt c).1 ∧ (r.attempt c).2.Counts (log ++ (r.attempt c).1.toOption.toList) := by
  unfold Registry.attempt
  rcases r.register_cases c.scope c.source c.handler with ⟨cause, hcause, hr⟩ | ⟨e, r', hr⟩
  · rw [hr]
    obtain ⟨hmalformed, hfault⟩ := Scope.fault_of_parse hcause
    exact ⟨⟨rfl, rfl, hmalformed, hfault⟩, by rwa [Except.toOption, Option.toList_none, List.append_nil]⟩
  · obtain ⟨hs, hsource, hhandler, -⟩ := register_eq_ok hr
    rw [hr]
    exact ⟨⟨hs, hsource, hhandler⟩, h.register hr⟩

theorem Counts.attemptAll (h : r.Counts log) (calls : List (Registration η)) :
    List.Forall₂ Registration.Answers calls (r.attemptAll calls).1 ∧
      (r.attemptAll calls).2.Counts (log ++ accepted (r.attemptAll calls).1) := by
  induction calls generalizing r log with
  | nil => exact ⟨.nil, by rwa [Registry.attemptAll, accepted, List.filterMap_nil, List.append_nil]⟩
  | cons c calls ih =>
    obtain ⟨hanswer, hlog⟩ := h.attempt c
    obtain ⟨hanswers, hlogs⟩ := ih hlog
    refine ⟨.cons hanswer hanswers, ?_⟩
    have hcons : accepted (r.attemptAll (c :: calls)).1 =
        (r.attempt c).1.toOption.toList ++ accepted ((r.attempt c).2.attemptAll calls).1 := by
      rw [Registry.attemptAll, accepted, List.filterMap_cons]
      cases (r.attempt c).1 <;> rfl
    rw [hcons, ← List.append_assoc]
    exact hlogs

/-- A look-up gives what the log has for the scope. -/
theorem Records.find?_eq (h : r.Records log) (k : Scope) :
    r.find? k = if k ∈ log.map (·.scope) then some (log.filter fun e => e.scope = k) else none := by
  split
  · next hk =>
    obtain ⟨e, he, rfl⟩ := List.mem_map.1 hk
    have hgroup : r.root.groupAt e.scope.segments = some ⟨e.scope, log.filter fun e' => e'.scope = e.scope⟩ :=
      h.groupAt.2 ⟨rfl, rfl, filter_scope_ne_nil he⟩
    change (r.root.groupAt e.scope.segments).map _ = _
    rw [hgroup]
    rfl
  · next hk =>
    rw [← Option.not_isSome_iff_eq_none, h.isSome_find?, ← List.mem_map]
    exact hk

/-- After any calls, a look-up gives the entries that were accepted on the scope asked for, in order, or nothing where
there are none; the counters tell how many scopes and how many entries were accepted. A malformed scope is refused and
changes nothing. -/
theorem attemptAll_log (calls : List (Registration η)) :
    let answers := ((empty : Registry η).attemptAll calls).1
    let r := ((empty : Registry η).attemptAll calls).2
    let log := accepted answers
    List.Forall₂ Registration.Answers calls answers ∧
    (∀ k, r.find? k = if k ∈ log.map (·.scope) then some (log.filter fun e => e.scope = k) else none) ∧
    (∀ k es, r.find? k = some es → ∀ e ∈ es, e.scope = k) ∧
    r.scopeCount = (log.map (·.scope)).dedup.length ∧ r.size = log.length ∧
    ∀ c : Registration η, Scope.Malformed c.scope →
      (∃ e, (r.attempt c).1 = .error e ∧ c.Answers (.error e)) ∧ (r.attempt c).2 = r := by
  intro answers r log
  obtain ⟨hanswers, hlog⟩ := counts_empty.attemptAll calls
  change r.Counts log at hlog
  refine ⟨hanswers, hlog.records.find?_eq, ?_, hlog.scopeCount, hlog.size, ?_⟩
  · intro k es hes e he
    rw [hlog.records.find?_eq] at hes
    split at hes
    · cases hes
      exact of_decide_eq_true (List.mem_filter.1 he).2
    · cases hes
  · intro c hc
    have hanswer := (hlog.attempt c).1
    unfold Registry.attempt at hanswer ⊢
    rcases r.register_cases c.scope c.source c.handler with ⟨cause, -, hr⟩ | ⟨e, r', hr⟩
    · rw [hr] at hanswer ⊢
      exact ⟨⟨_, rfl, hanswer⟩, rfl⟩
    · obtain ⟨hs, -⟩ := register_eq_ok hr
      exact absurd (hs ▸ hc) (Scope.not_malformed_text _)

/-- Two calls on a scope, with malformed ones after each. -/
def mixed : List (Registration Unit) :=
  [⟨"a.b", "one", ()⟩, ⟨"", "two", ()⟩, ⟨"a.b", "three", ()⟩, ⟨"a..c", "four", ()⟩]

theorem attemptAll_log_mixed :
    let r := ((empty : Registry Unit).attemptAll mixed).2
    r.scopeCount = 1 ∧ r.size = 2 ∧ r.find? ((Scope.parse? "a").get rfl) = none ∧
      Scope.Malformed "a..c" ∧ (r.attempt ⟨"a..c", "five", ()⟩).2 = r := by
  obtain ⟨-, hfind, -, hscopes, hsize, hrefused⟩ := attemptAll_log mixed
  have hmalformed : Scope.Malformed "a..c" := by decide +kernel
  refine ⟨hscopes.trans ?_, hsize.trans rfl, (hfind _).trans ?_, hmalformed, (hrefused ⟨_, _, _⟩ hmalformed).2⟩
  · decide +kernel
  · rfl

end Registry

end ScopeActions
