import ScopeActions.Dispatch.Token
import ScopeActions.Proofs.Text.Slice
/-!
# Tokens that tile a line

A token has the bytes of its line from its start to its end, both taken to the end of the line where they lie beyond it.
The texts of tokens each of which starts where the one before ends are the line, put together (`Token.texts_tile`).
-/

namespace ScopeActions.Token

variable {line : String} {offsets : List Nat} {tokens : List Token} {as bs : List Char}

/-- Offsets from the start of the line to its end or beyond, none of them before the one in front of it. Those before the
end of the line stand between its characters. -/
structure Tiles (line : String) (offsets : List Nat) : Prop where
  first : offsets.head? = some 0
  sorted : offsets.Pairwise (· ≤ ·)
  last : ∃ n ∈ offsets.getLast?, line.utf8ByteSize ≤ n
  between : ∀ n ∈ offsets, n < line.utf8ByteSize → String.Pos.Raw.IsValid line ⟨n⟩

theorem text_eq (t : Token) (line : String) :
    t.text line = ((Text.slice (min t.start (min t.stop line.utf8ByteSize)) (min t.stop line.utf8ByteSize)
      line.toList).map String.ofList).getD "" := by
  unfold text
  dsimp only
  rw [← Text.utf8ByteSize_eq]
  cases Text.slice (min t.start (min t.stop line.utf8ByteSize)) (min t.stop line.utf8ByteSize) line.toList <;> rfl

/-- The token has the bytes of the line between its offsets, or no text where they cut a character apart. -/
theorem text_cases (t : Token) (line : String) :
    let stop := min t.stop line.utf8ByteSize
    let start := min t.start stop
    (String.Pos.Raw.IsValid line ⟨start⟩ ∧ String.Pos.Raw.IsValid line ⟨stop⟩ ∧
        Text.bytes (t.text line) = ((Text.bytes line).take stop).drop start) ∨
      ¬(String.Pos.Raw.IsValid line ⟨start⟩ ∧ String.Pos.Raw.IsValid line ⟨stop⟩) ∧ t.text line = "" := by
  intro stop start
  have hle : start ≤ stop := Nat.min_le_right _ _
  have htext : t.text line = ((Text.slice start stop line.toList).map String.ofList).getD "" := t.text_eq line
  cases hslice : Text.slice start stop line.toList with
  | some piece =>
    obtain ⟨hstart, hstop⟩ := (Text.exists_slice_iff hle).1 ⟨piece, hslice⟩
    rw [hslice] at htext
    exact .inl ⟨hstart, hstop, htext ▸ Text.bytes_of_slice hslice hle⟩
  | none =>
    rw [hslice] at htext
    refine .inr ⟨fun h => ?_, htext⟩
    obtain ⟨piece, hpiece⟩ := (Text.exists_slice_iff hle).2 h
    cases hslice.symm.trans hpiece

/-- Where the line is cut at the start of a token and can be cut at its end, the token has the text in between. -/
theorem text_next (t : Token) (hle : t.start ≤ t.stop)
    (hstop : t.stop < line.utf8ByteSize → String.Pos.Raw.IsValid line ⟨t.stop⟩) (hline : as ++ bs = line.toList)
    (hstart : Text.byteLength as = min t.start line.utf8ByteSize) :
    ∃ piece rest, bs = piece ++ rest ∧ t.text line = String.ofList piece ∧
      Text.byteLength (as ++ piece) = min t.stop line.utf8ByteSize := by
  obtain ⟨as', bs', hline', hstop'⟩ : ∃ as' bs', as' ++ bs' = line.toList ∧
      Text.byteLength as' = min t.stop line.utf8ByteSize := by
    by_cases hinside : t.stop < line.utf8ByteSize
    · obtain ⟨⟨as', bs'⟩, hcut⟩ := Text.exists_cutAt_iff.2 (hstop hinside)
      obtain ⟨hline', hlength⟩ := Text.append_of_cutAt hcut
      exact ⟨as', bs', hline', hlength.trans (Nat.min_eq_left (Nat.le_of_lt hinside)).symm⟩
    · refine ⟨line.toList, [], List.append_nil _, ?_⟩
      rw [← Text.utf8ByteSize_eq, Nat.min_eq_right (Nat.le_of_not_lt hinside)]
  obtain ⟨piece, rfl, rfl⟩ := Text.exists_between (hline.trans hline'.symm) (by omega)
  refine ⟨piece, bs', rfl, ?_, hstop'⟩
  have hclamp : min t.start (min t.stop line.utf8ByteSize) = Text.byteLength as := by omega
  rw [text_eq, hclamp, ← hstop', ← hline, Text.slice_append]
  rfl

/-- From a cut on, the texts of tokens that follow one another are what is left of the line. -/
theorem join_texts {n : Nat} (hsorted : (n :: offsets).Pairwise (· ≤ ·))
    (hlast : ∃ m ∈ (n :: offsets).getLast?, line.utf8ByteSize ≤ m)
    (hbetween : ∀ m ∈ n :: offsets, m < line.utf8ByteSize → String.Pos.Raw.IsValid line ⟨m⟩)
    (htokens : tokens.map (fun t => (t.start, t.stop)) = (n :: offsets).zip offsets) (hline : as ++ bs = line.toList)
    (hn : Text.byteLength as = min n line.utf8ByteSize) :
    String.join (tokens.map (·.text line)) = String.ofList bs := by
  induction offsets generalizing n tokens as bs with
  | nil =>
    obtain rfl : tokens = [] := List.map_eq_nil_iff.1 htokens
    obtain ⟨m, hm, hend⟩ := hlast
    obtain rfl : n = m := Option.some.inj hm
    have hlength := congrArg Text.byteLength hline
    rw [Text.byteLength_append, ← Text.utf8ByteSize_eq] at hlength
    obtain rfl := Text.byteLength_eq_zero (show Text.byteLength bs = 0 by omega)
    rfl
  | cons m offsets ih =>
    obtain ⟨t, later, rfl, ht, hlater⟩ := List.map_eq_cons_iff.1 htokens
    obtain ⟨rfl, rfl⟩ := Prod.mk.inj ht
    obtain ⟨hfirst, hsorted⟩ := List.pairwise_cons.1 hsorted
    obtain ⟨-, hbetween⟩ := List.forall_mem_cons.1 hbetween
    obtain ⟨piece, rest, rfl, htext, hstop⟩ :=
      text_next t (hfirst _ List.mem_cons_self) (hbetween _ List.mem_cons_self) hline hn
    have hrest := ih hsorted hlast hbetween hlater ((List.append_assoc as piece rest).trans hline) hstop
    rw [List.map_cons, String.join_cons, hrest, htext, String.ofList_append]

/-- The texts of tokens that tile a line are the line, put together. The text of any token has the bytes from its start to
its end, each taken back to the end of the line and the start to the end of the token; where one of the two then cuts a
character apart, it is empty. -/
theorem texts_tile (line : String) :
    (∀ (offsets : List Nat) (tokens : List Token), Tiles line offsets →
      tokens.map (fun t => (t.start, t.stop)) = offsets.zip offsets.tail →
      String.join (tokens.map (·.text line)) = line) ∧
    ∀ t : Token,
      let stop := min t.stop line.utf8ByteSize
      let start := min t.start stop
      (String.Pos.Raw.IsValid line ⟨start⟩ ∧ String.Pos.Raw.IsValid line ⟨stop⟩ ∧
          Text.bytes (t.text line) = ((Text.bytes line).take stop).drop start) ∨
        ¬(String.Pos.Raw.IsValid line ⟨start⟩ ∧ String.Pos.Raw.IsValid line ⟨stop⟩) ∧ t.text line = "" := by
  refine ⟨fun offsets tokens h htokens => ?_, fun t => t.text_cases line⟩
  obtain ⟨rest, rfl⟩ := List.head?_eq_some_iff.1 h.first
  have hstart : Text.byteLength [] = min 0 line.utf8ByteSize := (Nat.zero_min _).symm
  rw [join_texts h.sorted h.last h.between htokens (List.nil_append _) hstart, String.ofList_toList]

/-- Tokens of a line that has a character of two bytes. One of them is empty and the last ends beyond the line. -/
def accented : List Token :=
  [⟨0, 1, []⟩, ⟨1, 3, ["a"]⟩, ⟨3, 3, ["a", "b"]⟩, ⟨3, 9, []⟩]

theorem tiles_accented : Tiles "hélas" [0, 1, 3, 3, 9] where
  first := rfl
  sorted := by decide
  last := ⟨9, rfl, by decide⟩
  between := by decide +kernel

theorem texts_tile_accented : Tiles "hélas" [0, 1, 3, 3, 9] ∧
    accented.map (fun t => (t.start, t.stop)) = [0, 1, 3, 3, 9].zip [1, 3, 3, 9] ∧
    String.join (accented.map (·.text "hélas")) = "hélas" ∧ (⟨2, 9, []⟩ : Token).text "hélas" = "" := by
  obtain ⟨htile, htext⟩ := texts_tile "hélas"
  refine ⟨tiles_accented, rfl, htile _ accented tiles_accented rfl, ?_⟩
  -- the second byte is inside of a character
  rcases htext ⟨2, 9, []⟩ with ⟨hstart, -⟩ | ⟨-, hempty⟩
  · exact absurd hstart (by decide +kernel)
  · exact hempty

end ScopeActions.Token
