import ScopeActions.Regex.Basic

/-!
# Matching

`Regex.ends` gives the places where a stretch of text can end that starts at a given place and matches.
A place carries the texts of the groups that are referred to. All ways to match are followed, each place
once, so the number of steps is bounded by the number of places.
-/

namespace ScopeActions.Regex

/-- A place in a text, with the stretches that groups have matched. -/
structure Place where
  position : Nat
  groups : List (Nat × Nat × Nat) := []
  deriving DecidableEq, Repr

/-- The character at a position is a word character. -/
def wordAt (text : Array Char) (i : Nat) : Bool :=
  (text[i]?.map Text.isWord).getD false

/-- The character before a position is a word character. -/
def wordBefore (text : Array Char) (i : Nat) : Bool :=
  i != 0 && wordAt text (i - 1)

/-- The place satisfies the condition. -/
def Anchor.holds (text : Array Char) (i : Nat) : Anchor → Bool
  | .textStart => i == 0
  | .textEnd => i == text.size
  | .lastLineEnd => i == text.size || (i + 1 == text.size && text[i]? == some '\n')
  | .lineStart => i == 0 || text[i - 1]? == some '\n'
  | .lineEnd => i == text.size || text[i]? == some '\n'
  | .wordEdge => wordBefore text i != wordAt text i
  | .noWordEdge => wordBefore text i == wordAt text i
  | .wordStart => !wordBefore text i && wordAt text i
  | .wordStop => wordBefore text i && !wordAt text i

/-- Applies `step` to each place and gives every result once. -/
def spread (step : Place → List Place) (places : List Place) : List Place :=
  (places.flatMap step).eraseDups

/-- The places after exactly `n` steps. -/
def exactly (step : Place → List Place) : Nat → List Place → List Place
  | 0, places => places
  | n + 1, places => exactly step n (spread step places)

/-- The places after at most `n` steps. `seen` are those found so far, `latest` the newest of them. -/
def atMost (step : Place → List Place) : Nat → List Place → List Place → List Place
  | 0, seen, _ => seen
  | n + 1, seen, latest =>
    match (spread step latest).filter fun p => !seen.contains p with
    | [] => seen
    | new => atMost step n (seen ++ new) new

/-- Two characters are equal, or differ in case only where that is allowed. -/
def sameChar (anyCase : Bool) (a b : Char) : Bool :=
  a == b || (anyCase && Text.fold a == Text.fold b)

/-- The places where a match that starts at a place can end. `tracked` are the groups whose text is
kept. -/
def ends (text : Array Char) (tracked : List Nat) : Regex → Place → List Place
  | empty, p => [p]
  | char c, p =>
    match text[p.position]? with
    | some x => if c.has x then [{ p with position := p.position + 1 }] else []
    | none => []
  | cat a b, p => spread (ends text tracked b) (ends text tracked a p)
  | alt a b, p => (ends text tracked a p ++ ends text tracked b p).eraseDups
  | times r least most, p =>
    let step := ends text tracked r
    let start := exactly step least [p]
    match most with
    | none => atMost step (text.size + 1) start start
    | some most => atMost step (min (most - least) (text.size + 1)) start start
  | group index r, p =>
    if tracked.contains index then
      (ends text tracked r p).map fun q =>
        { q with groups := (index, p.position, q.position) ::
            q.groups.filter (·.1 != index) }
    else ends text tracked r p
  | anchor a, p => if Anchor.holds text p.position a then [p] else []
  | ahead wanted r, p =>
    match ends text tracked r p with
    | [] => if wanted then [] else [p]
    | found => if wanted then (found.map fun q => { p with groups := q.groups }).eraseDups else []
  | behind wanted r, p =>
    let found := (List.range (p.position + 1)).flatMap fun i =>
      (ends text tracked r { p with position := i }).filter (·.position == p.position)
    match found with
    | [] => if wanted then [] else [p]
    | found => if wanted then found.eraseDups else []
  | again index anyCase, p =>
    match p.groups.find? (·.1 == index) with
    | none => []
    | some (_, start, stop) =>
      let length := stop - start
      let same := (List.range length).all fun k =>
        match text[start + k]?, text[p.position + k]? with
        | some a, some b => sameChar anyCase a b
        | _, _ => false
      if same then [{ p with position := p.position + length }] else []

/-- Some stretch of the text matches. -/
def isMatch (r : Regex) (text : String) : Bool :=
  let chars := text.toList.toArray
  let tracked := r.references
  (List.range (chars.size + 1)).any fun i => !(ends chars tracked r { position := i }).isEmpty

end ScopeActions.Regex
