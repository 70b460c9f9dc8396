import ScopeActions.Proofs.Json.Reader
/-!
# Blanks after a text

A blank at the end of a text makes no difference to what is read from it (`Json.parse?_append_blank`). A reader leaves it
over (`LeavesBlank`) if the readers that it is made of do.
-/

namespace ScopeActions.Json

variable {α β : Type} {w : Char} {cs rest : List Char}

theorem isSpace_cases (hw : isSpace w = true) : w = ' ' ∨ w = '\t' ∨ w = '\n' ∨ w = '\r' := by
  simpa [isSpace, or_assoc] using hw

theorem isDigit_of_isSpace (hw : isSpace w = true) : w.isDigit = false := by
  rcases isSpace_cases hw with rfl | rfl | rfl | rfl <;> rfl

/-! ## Readers -/

/-- The blank is left over: what the one reader reads of a text that is shorter than the bound, the other reads of it with
a blank more at its end. A reader never gives a longer rest than it was given. -/
structure LeavesBlank (w : Char) (bound : Nat) (read read' : Reader α) : Prop where
  leaves : ∀ cs, cs.length < bound → read' (cs ++ [w]) = (read cs).map fun r => (r.1, r.2 ++ [w])
  shortens : ∀ cs r, cs.length < bound → read cs = some r → r.2.length ≤ cs.length

namespace LeavesBlank

open Reader

variable {bound : Nat} {read read' : Reader α}

theorem zero (read read' : Reader α) : LeavesBlank w 0 read read' :=
  ⟨nofun, nofun⟩

theorem mono {bound' : Nat} (h : LeavesBlank w bound read read') (hle : bound' ≤ bound) : LeavesBlank w bound' read read' :=
  ⟨fun cs hcs => h.leaves cs (Nat.lt_of_lt_of_le hcs hle), fun cs r hcs => h.shortens cs r (Nat.lt_of_lt_of_le hcs hle)⟩

theorem offer (a : Option α) : LeavesBlank w bound (offer a) (offer a) := by
  constructor
  · intro cs _
    cases a <;> rfl
  · intro cs r _ h
    obtain ⟨_, -, rfl⟩ := Option.map_eq_some_iff.1 h
    exact Nat.le_refl cs.length

theorem andThen {next next' : α → Reader β} (h : LeavesBlank w bound read read')
    (hnext : ∀ a, LeavesBlank w bound (next a) (next' a)) :
    LeavesBlank w bound (read.andThen next) (read'.andThen next') := by
  constructor
  · intro cs hcs
    rw [Reader.andThen, Reader.andThen, h.leaves cs hcs]
    cases hread : read cs with
    | none => rfl
    | some r => exact (hnext r.1).leaves r.2 (Nat.lt_of_le_of_lt (h.shortens cs r hcs hread) hcs)
  · intro cs r hcs hr
    obtain ⟨s, hread, hs⟩ := Option.bind_eq_some_iff.1 hr
    have hle := h.shortens cs s hcs hread
    exact Nat.le_trans ((hnext s.1).shortens s.2 r (Nat.lt_of_le_of_lt hle hcs) hs) hle

theorem dropPrefix?_append_singleton {word : List Char} (hw : w ∉ word) (cs : List Char) :
    (cs ++ [w]).dropPrefix? word = (cs.dropPrefix? word).map (· ++ [w]) := by
  induction word generalizing cs with
  | nil => simp
  | cons c word ih =>
    obtain ⟨hc, hword⟩ := not_or.1 (mt List.mem_cons.2 hw)
    cases cs with
    | nil => simp [List.dropPrefix?, hc]
    | cons d cs =>
      simp only [List.cons_append, List.dropPrefix?, ih hword]
      split <;> rfl

/-- What follows a word is shorter. -/
theorem onWord {other other' : Reader α} {word : List Char} (hw : isSpace w = true) (hblank : word.any isSpace = false)
    (hne : word ≠ []) (h : LeavesBlank w (bound - 1) read read') (hother : LeavesBlank w bound other other') :
    LeavesBlank w bound (onWord word read other) (onWord word read' other') := by
  have hword : w ∉ word := fun hmem => List.any_eq_false.1 hblank w hmem hw
  have hrest : ∀ {cs rest : List Char}, cs.dropPrefix? word = some rest → rest.length < cs.length := by
    intro cs rest hdrop
    obtain ⟨front, rfl, hfront⟩ := List.dropPrefix?_eq_some_iff.1 hdrop
    have hpos := List.length_pos_iff.2 hne
    rw [← eq_of_beq hfront] at hpos
    rw [List.length_append]
    omega
  constructor
  · intro cs hcs
    rw [Reader.onWord, Reader.onWord, dropPrefix?_append_singleton hword]
    cases hdrop : cs.dropPrefix? word with
    | none => exact hother.leaves cs hcs
    | some rest =>
      have hlt := hrest hdrop
      exact h.leaves rest (by omega)
  · intro cs r hcs hr
    rw [Reader.onWord] at hr
    cases hdrop : cs.dropPrefix? word with
    | none =>
      rw [hdrop] at hr
      exact hother.shortens cs r hcs hr
    | some rest =>
      rw [hdrop] at hr
      have hlt := hrest hdrop
      exact Nat.le_trans (h.shortens rest r (by omega) hr) (Nat.le_of_lt hlt)

theorem span_append_singleton {p : Char → Bool} (hp : p w = false) (cs : List Char) :
    (cs ++ [w]).takeWhile p = cs.takeWhile p ∧ (cs ++ [w]).dropWhile p = cs.dropWhile p ++ [w] := by
  induction cs with
  | nil => simp [hp]
  | cons c cs ih => cases h : p c <;> simp [h, ih]

theorem onDigits {next next' : List Char → Reader α} (hw : isSpace w = true)
    (h : ∀ digits, LeavesBlank w bound (next digits) (next' digits)) :
    LeavesBlank w bound (onDigits next) (onDigits next') := by
  have hle : ∀ cs : List Char, (cs.dropWhile Char.isDigit).length ≤ cs.length := fun cs =>
    (List.dropWhile_sublist Char.isDigit).length_le
  constructor
  · intro cs hcs
    obtain ⟨htake, hdrop⟩ := span_append_singleton (isDigit_of_isSpace hw) cs
    rw [Reader.onDigits, Reader.onDigits, htake, hdrop]
    exact (h _).leaves _ (Nat.lt_of_le_of_lt (hle cs) hcs)
  · intro cs r hcs hr
    exact Nat.le_trans ((h _).shortens _ r (Nat.lt_of_le_of_lt (hle cs) hcs) hr) (hle cs)

theorem skipSpace_append_singleton (hw : isSpace w = true) (cs : List Char) :
    skipSpace (cs ++ [w]) = if (skipSpace cs).isEmpty then [] else skipSpace cs ++ [w] := by
  induction cs with
  | nil => simp [skipSpace, hw]
  | cons c cs ih =>
    cases hc : isSpace c
    · simp [skipSpace, hc]
    · simpa [skipSpace, hc] using ih

/-- The blank is skipped if nothing else is left. A reader must not accept that. -/
theorem onSpace (hw : isSpace w = true) (h : LeavesBlank w bound read read') (hnil : read [] = none)
    (hnil' : read' [] = none) : LeavesBlank w bound (onSpace read) (onSpace read') := by
  have hle : ∀ cs : List Char, (skipSpace cs).length ≤ cs.length := fun cs => (List.dropWhile_sublist isSpace).length_le
  constructor
  · intro cs hcs
    rw [Reader.onSpace, Reader.onSpace, skipSpace_append_singleton hw]
    split
    · next hnone => rw [List.isEmpty_iff.1 hnone, hnil, hnil', Option.map_none]
    · exact h.leaves _ (Nat.lt_of_le_of_lt (hle cs) hcs)
  · intro cs r hcs hr
    exact Nat.le_trans (h.shortens _ r (Nat.lt_of_le_of_lt (hle cs) hcs) hr) (hle cs)

end LeavesBlank

/-! ## Strings -/

theorem hex4?_blank (hw : isSpace w = true) (a b c : Char) : hex4? a b c w = none := by
  have hvalue : hexValue? w = none := by
    rcases isSpace_cases hw with rfl | rfl | rfl | rfl <;> rfl
  simp [hex4?, hvalue]

theorem simpleEscape?_blank (hw : isSpace w = true) : simpleEscape? w = none := by
  rcases isSpace_cases hw with rfl | rfl | rfl | rfl <;> rfl

theorem readString_append_blank (hw : isSpace w = true) (acc cs : List Char) :
    readString acc (cs ++ [w]) = (readString acc cs).map fun r => (r.1, r.2 ++ [w]) := by
  fun_induction readString acc cs with
  | case1 acc => rcases isSpace_cases hw with rfl | rfl | rfl | rfl <;> rfl
  | case2 => rfl
  | case3 acc a b c d cs h => simp [readString, h]
  | case4 acc a b c d n hn h a' b' c' d' cs hm => simp [readString, hn, h, hm]
  | case5 acc a b c d n hn h a' b' c' d' cs m hm h' point ih => simpa [readString, hn, h, hm, h'] using ih
  | case6 acc a b c d n hn h a' b' c' d' cs m hm h' => simp [readString, hn, h, hm, h']
  | case7 acc a b c d cs n hn h hcs =>
    -- with the blank, the second escape may be long enough, but the blank is no digit
    simp only [List.cons_append, readString, hn, h, and_self, if_true]
    split
    · next a' b' c' d' rest heq =>
      rcases List.eq_nil_or_concat rest with rfl | ⟨rest, last, rfl⟩
      · have hlast : d' = w := by simpa using congrArg List.getLast? heq.symm
        rw [hlast, hex4?_blank hw]
        rfl
      · rw [List.concat_eq_append] at heq
        have hfront : cs ++ [w] = '\\' :: 'u' :: a' :: b' :: c' :: d' :: rest ++ [last] := heq
        exact (hcs a' b' c' d' rest (List.append_inj' hfront rfl).1).elim
    · rfl
  | case8 acc a b c d cs n hn h h' => simp [readString, hn, h, h']
  | case9 acc a b c d cs n hn h h' ih => simpa [readString, hn, h, h'] using ih
  | case10 acc e cs hu he =>
    by_cases heu : e = 'u'
    · subst heu
      match cs with
      | [] | [_] | [_, _] => simp [readString, simpleEscape?]
      | [_, _, _] => simp [readString, hex4?_blank hw]
      | a :: b :: c :: d :: cs => exact (hu a b c d cs rfl rfl).elim
    · simp [readString, he, heu]
  | case11 acc e cs hu c he ih =>
    have heu : e ≠ 'u' := by
      rintro rfl
      cases he
    simpa [readString, he, heu] using ih
  | case12 acc c cs hquote hu he hc =>
    have hescape : c ≠ '\\' := by
      rintro rfl
      exact absurd hc (by decide)
    simp [readString, hescape, hc]
  | case13 acc c cs hquote hu he hc ih =>
    by_cases hescape : c = '\\'
    · cases cs with
      | nil => simp [readString, hescape, simpleEscape?_blank hw]
      | cons e cs => exact (he e cs hescape rfl).elim
    · simpa [readString, hescape, hc] using ih

theorem length_le_of_readString {acc : List Char} {r : String × List Char} (h : readString acc cs = some r) :
    r.2.length ≤ cs.length := by
  fun_induction readString acc cs <;> simp only [List.length_nil, List.length_cons] <;> grind

theorem leavesBlank_readString (hw : isSpace w = true) (bound : Nat) (acc : List Char) :
    LeavesBlank w bound (readString acc) (readString acc) :=
  ⟨fun cs _ => readString_append_blank hw acc cs, fun _ _ _ h => length_le_of_readString h⟩

/-! ## Numbers -/

namespace Number

open Reader

variable {bound : Nat}

theorem leavesBlank_readExponent (hw : isSpace w = true) (negative : Bool) (d : Digits) :
    LeavesBlank w bound (readExponent negative d) (readExponent negative d) := by
  have hpower : ∀ down bound, LeavesBlank w bound (readPower negative d down) (readPower negative d down) :=
    fun _ _ => .onDigits hw fun _ => .offer _
  rw [readExponent_eq]
  exact .onWord hw rfl nofun (hpower _ _) (.onWord hw rfl nofun (hpower _ _) (hpower _ _))

theorem leavesBlank_readEnd (hw : isSpace w = true) (negative : Bool) (d : Digits) (whole : Option Json) :
    LeavesBlank w bound (readEnd negative d whole) (readEnd negative d whole) := by
  have hpower : ∀ bound, LeavesBlank w bound (andThen (readExponent negative d) fun v => offer (some (double v)))
      (andThen (readExponent negative d) fun v => offer (some (double v))) :=
    fun _ => (leavesBlank_readExponent hw negative d).andThen fun _ => .offer _
  exact .onWord hw rfl nofun (hpower _) (.onWord hw rfl nofun (hpower _) (.offer _))

theorem leavesBlank_read (hw : isSpace w = true) : LeavesBlank w bound read read := by
  have hrest : ∀ negative d bound, LeavesBlank w bound (readRest negative d) (readRest negative d) := by
    intro negative d bound
    refine .onWord hw rfl nofun (.onDigits hw fun digits => ?_) (leavesBlank_readEnd hw negative d _)
    split
    · exact .offer none
    · exact leavesBlank_readEnd hw negative _ _
  have hunsigned : ∀ negative bound, LeavesBlank w bound (readUnsigned negative) (readUnsigned negative) := by
    intro negative bound
    rw [readUnsigned_eq]
    refine .onDigits hw fun whole => ?_
    cases start? whole with
    | none => exact .offer none
    | some d => exact hrest _ _ _
  rw [read_eq]
  exact .onWord hw rfl nofun (hunsigned _ _) (hunsigned _ _)

end Number

/-! ## Values -/

open Reader

theorem LeavesBlank.readMore {bound : Nat} {close : Char} {first : α} {more more' : Reader (List α)}
    (hw : isSpace w = true) (hclose : isSpace close = false) (h : LeavesBlank w (bound - 1) more more') :
    LeavesBlank w bound (readMore close first more) (readMore close first more') := by
  have hend : [close].any isSpace = false := by rw [List.any_cons, hclose, List.any_nil, Bool.or_false]
  have hcomma := h.andThen fun items => .offer (some (first :: items))
  exact .onSpace hw (.onWord hw rfl nofun hcomma (.onWord hw hend nofun (.offer _) (.offer _))) rfl rfl

theorem LeavesBlank.readInside {bound : Nat} {close : Char} {depth : Nat} {empty : Json} {read read' : Nat → Reader Json}
    (hw : isSpace w = true) (hclose : isSpace close = false) (h : ∀ depth, LeavesBlank w bound (read depth) (read' depth))
    (hnil : ∀ depth, read depth [] = none) (hnil' : ∀ depth, read' depth [] = none) :
    LeavesBlank w bound (readInside depth close empty read) (readInside depth close empty read') := by
  have hend : [close].any isSpace = false := by rw [List.any_cons, hclose, List.any_nil, Bool.or_false]
  unfold Json.readInside
  split
  · exact .offer none
  · exact .onSpace hw (.onWord hw hend nofun (.offer _) (h _)) (hnil _) (hnil' _)

/-- With steps enough for the text, it does not matter how many there are more. -/
theorem leavesBlank_readers (hw : isSpace w = true) (steps steps' bound depth : Nat) :
    (2 * bound ≤ steps + 1 → 2 * bound ≤ steps' + 1 →
      LeavesBlank w bound (readValue depth steps) (readValue depth steps')) ∧
    (2 * bound ≤ steps → 2 * bound ≤ steps' →
      LeavesBlank w bound (readItems depth steps) (readItems depth steps') ∧
      LeavesBlank w bound (readFields depth steps) (readFields depth steps')) := by
  induction steps generalizing steps' bound depth with
  | zero =>
    refine ⟨fun h _ => ?_, fun h _ => ?_⟩
    all_goals
      obtain rfl : bound = 0 := by omega
    · exact .zero _ _
    · exact ⟨.zero _ _, .zero _ _⟩
  | succ steps ih =>
    cases steps' with
    | zero =>
      refine ⟨fun _ h => ?_, fun _ h => ?_⟩
      all_goals
        obtain rfl : bound = 0 := by omega
      · exact .zero _ _
      · exact ⟨.zero _ _, .zero _ _⟩
    | succ steps' =>
      refine ⟨fun h h' => ?_, fun h h' => ?_⟩
      · -- what is inside a container is shorter by the mark that opens it
        have hinside := fun depth => (ih steps' (bound - 1) depth).2 (by omega) (by omega)
        have hlist : LeavesBlank w (bound - 1) (readInside depth ']' (arr []) fun depth => readList depth steps)
            (readInside depth ']' (arr []) fun depth => readList depth steps') :=
          .readInside hw rfl (fun depth => (hinside depth).1.andThen fun _ => .offer _)
            (fun depth => readList_nil depth steps) fun depth => readList_nil depth steps'
        have hobject : LeavesBlank w (bound - 1) (readInside depth '\x7d' (obj []) fun depth => readObject depth steps)
            (readInside depth '\x7d' (obj []) fun depth => readObject depth steps') :=
          .readInside hw rfl (fun depth => (hinside depth).2.andThen fun _ => .offer _)
            (fun depth => readObject_nil depth steps) fun depth => readObject_nil depth steps'
        have hstring : LeavesBlank w (bound - 1) (andThen (readString []) fun s => offer (some (str s)))
            (andThen (readString []) fun s => offer (some (str s))) :=
          (leavesBlank_readString hw _ []).andThen fun _ => .offer _
        rw [readValue_succ, readValue_succ]
        exact .onSpace hw (.onWord hw rfl nofun (.offer _) <| .onWord hw rfl nofun (.offer _) <|
          .onWord hw rfl nofun (.offer _) <| .onWord hw rfl nofun hstring <| .onWord hw rfl nofun hlist <|
          .onWord hw rfl nofun hobject <| Number.leavesBlank_read hw) rfl rfl
      · have hvalue : ∀ bound', bound' ≤ bound → LeavesBlank w bound' (readValue depth steps) (readValue depth steps') :=
          fun bound' hle => (ih steps' bound' depth).1 (by omega) (by omega)
        obtain ⟨hitems, hfields⟩ := (ih steps' (bound - 1) depth).2 (by omega) (by omega)
        refine ⟨?_, ?_⟩
        · rw [readItems_succ, readItems_succ]
          exact (hvalue bound (Nat.le_refl bound)).andThen fun v => .readMore hw rfl hitems
        · have hfield : ∀ key, LeavesBlank w (bound - 1) (readField depth steps key) (readField depth steps' key) :=
            fun key => .onSpace hw (.onWord hw rfl nofun ((hvalue _ (by omega)).andThen fun v =>
              .readMore hw rfl (hfields.mono (by omega))) (.offer none)) rfl rfl
          rw [readFields_succ, readFields_succ]
          exact .onSpace hw (.onWord hw rfl nofun ((leavesBlank_readString hw _ []).andThen hfield) (.offer none)) rfl rfl

/-! ## Texts -/

/-- A blank at the end of a text makes no difference. -/
theorem parse?_append_blank (hw : isSpace w = true) (cs : List Char) :
    parse? (String.ofList (cs ++ [w])) = parse? (String.ofList cs) := by
  obtain ⟨hread, -⟩ := leavesBlank_readers hw (2 * cs.length + 2) (2 * (cs.length + 1) + 2) (cs.length + 1) maxDepth
  unfold parse? parseWithin?
  simp only [String.toList_ofList, List.length_append, List.length_singleton]
  rw [(hread (by omega) (by omega)).leaves cs (Nat.lt_succ_self _)]
  cases readValue maxDepth (2 * cs.length + 2) cs with
  | none => rfl
  | some r =>
    dsimp only [Option.map_some]
    rw [LeavesBlank.skipSpace_append_singleton hw]
    cases skipSpace r.2 <;> rfl

end ScopeActions.Json
