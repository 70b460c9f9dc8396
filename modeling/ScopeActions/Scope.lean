import ScopeActions.Text.Split

/-!
# Scope keys

A scope is a dotted name such as `keyword.control.tex`. A `Scope` is a scope none of whose
segments is empty, kept as it was written. Its segments are the view that clients reason about;
ancestry and prefixes are decided on the text.
-/

namespace ScopeActions

/-- Why a text is not a scope. -/
inductive ScopeError where
  | empty
  | emptySegment (scope : String) (index : Nat)
  deriving DecidableEq, Repr

/-- The wording of a scope error. -/
def ScopeError.message : ScopeError → String
  | .empty => "scope is empty"
  | .emptySegment scope index =>
    "scope '" ++ scope ++ "' has an empty segment at position " ++ toString index

/-- A dotted name without empty segments. -/
structure Scope where
  text : String
  segments_ne_nil : ∀ s ∈ Text.splitOn '.' text.toList, s ≠ []

namespace Scope

instance : DecidableEq Scope := fun a b =>
  if h : a.text = b.text then
    isTrue (by cases a; cases b; simp_all)
  else
    isFalse fun e => h (congrArg text e)

theorem ext_text {a b : Scope} (h : a.text = b.text) : a = b := by
  cases a; cases b; simp_all

/-- Reads a scope. -/
def parse (scope : String) : Except ScopeError Scope :=
  if scope = "" then
    .error .empty
  else
    match h : (Text.splitOn '.' scope.toList).findIdx? List.isEmpty with
    | some index => .error (.emptySegment scope index)
    | none => .ok ⟨scope, fun s hs hnil => by
        have := List.findIdx?_eq_none_iff.1 h s hs
        simp [hnil] at this⟩

/-- `parse` without the reason of a failure. -/
def parse? (scope : String) : Option Scope :=
  (parse scope).toOption

/-- The segments, outermost first. -/
def segments (k : Scope) : List String :=
  Text.split '.' k.text

/-- Number of segments. -/
def depth (k : Scope) : Nat :=
  k.segments.length

/-- The text `full` continues the segments of `start`: nothing or a dot follows it there. -/
def continues (full start : List Char) : Bool :=
  match start.isPrefixOf? full with
  | some [] => true
  | some (c :: _) => c == '.'
  | none => false

/-- The segments of `k` start with those of `start`. -/
def startsWith (k : Scope) (start : String) : Bool :=
  continues k.text.toList start.toList

/-- `k` is `other` or one of its ancestors. -/
def covers (k other : Scope) : Bool :=
  continues other.text.toList k.text.toList

/-- What stands before the last occurrence of `sep`. -/
def beforeLast (sep : Char) : List Char → Option (List Char)
  | [] => none
  | c :: cs =>
    match beforeLast sep cs with
    | some before => some (c :: before)
    | none => if c = sep then some [] else none

/-- The pieces before the last separator are all pieces but the last. -/
theorem splitOn_eq_of_beforeLast {sep : Char} {cs before : List Char}
    (h : beforeLast sep cs = some before) :
    Text.splitOn sep before = (Text.splitOn sep cs).dropLast := by
  induction cs generalizing before with
  | nil => simp [beforeLast] at h
  | cons c cs ih =>
    unfold beforeLast at h
    split at h
    · next b hb =>
      obtain rfl := Option.some.inj h
      have hs := ih hb
      unfold Text.splitOn
      have hne := Text.splitOn_ne_nil sep b
      split
      · next hc =>
        rw [hs, List.dropLast_cons_of_ne_nil (Text.splitOn_ne_nil sep cs)]
      · rw [hs]
        rcases hsp : Text.splitOn sep cs with _ | ⟨p, _ | ⟨q, ps⟩⟩
        · exact absurd hsp (Text.splitOn_ne_nil sep cs)
        · rw [hs, hsp] at hne; simp at hne
        · simp
    · next hb =>
      split at h
      · next hc =>
        obtain rfl := Option.some.inj h
        have : Text.splitOn sep cs = [cs] := by
          clear ih h
          induction cs with
          | nil => rfl
          | cons d ds ihd =>
            unfold beforeLast at hb
            split at hb
            · simp at hb
            · next hd =>
              split at hb
              · simp at hb
              · next hne => simp [Text.splitOn, hne, ihd hd]
        simp [Text.splitOn, hc, this]
      · simp at h

/-- The scope without its last segment. -/
def parent? (k : Scope) : Option Scope :=
  match h : beforeLast '.' k.text.toList with
  | none => none
  | some before => some ⟨String.ofList before, fun s hs => by
      rw [String.toList_ofList, splitOn_eq_of_beforeLast h] at hs
      exact k.segments_ne_nil s (List.dropLast_subset _ hs)⟩

/-- The parent is shorter. -/
theorem length_of_parent? {k p : Scope} (h : k.parent? = some p) :
    p.text.toList.length < k.text.toList.length := by
  have key : ∀ {cs before : List Char}, beforeLast '.' cs = some before →
      before.length < cs.length := by
    intro cs
    induction cs with
    | nil => intro _ h; simp [beforeLast] at h
    | cons c cs ih =>
      intro before h
      unfold beforeLast at h
      split at h
      · next b hb =>
        obtain rfl := Option.some.inj h
        have := ih hb
        simp only [List.length_cons]
        omega
      · split at h
        · obtain rfl := Option.some.inj h
          simp
        · simp at h
  unfold parent? at h
  split at h
  · simp at h
  · next before hb =>
    obtain rfl := Option.some.inj h
    simpa using key hb

/-- The scope and its ancestors, nearest first. -/
def selfAndAncestors (k : Scope) : List Scope :=
  match _h : k.parent? with
  | none => [k]
  | some p => k :: p.selfAndAncestors
termination_by k.text.toList.length
decreasing_by exact length_of_parent? _h

/-- Scopes are ordered as their texts, by code points. -/
def compare (a b : Scope) : Ordering :=
  Ord.compare a.text b.text

/-- Scopes in their order. -/
def sort (ks : List Scope) : List Scope :=
  ks.mergeSort fun a b => compare a b != .gt

/-- The form in which a scope is shown to a developer. -/
def debug (k : Scope) : String :=
  "ScopeKey(" ++ k.text ++ ")"

end Scope

end ScopeActions
