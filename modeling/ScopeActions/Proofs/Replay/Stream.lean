import Mathlib.Data.List.Forall2
import ScopeActions.Bundled
import ScopeActions.Proofs.Json.Blank
import ScopeActions.Proofs.Text.Bytes
/-!
# Streams record by record

A stream has a record for each line that a line feed ends, and one for what stands after the last of them. A record holds
the tokens of its line, and a stream that has a malformed line is refused with the number of the first of them
(`TokenStream.Lines.ofBytes`).
-/

namespace ScopeActions

namespace TokenStream

/-! ## Lines -/

/-- A text in lines: those that a line feed ends, and what stands after the last of them. -/
structure Lines (text : String) (ended : List String) (tail : String) : Prop where
  joined : text = String.join (ended.map (· ++ "\n")) ++ tail
  unbroken : ∀ line ∈ tail :: ended, '\n' ∉ line.toList

/-- The lines that there is a record for. Nothing after the last line feed is not a line. -/
def segments (ended : List String) (tail : String) : List String :=
  ended ++ if tail = "" then [] else [tail]

/-- The line without a carriage return at its end. -/
def dropReturn (line : String) : String :=
  if line.toList.getLast? = some '\r' then String.ofList line.toList.dropLast else line

theorem length_segments (ended : List String) (tail : String) :
    (segments ended tail).length = ended.length + if tail = "" then 0 else 1 := by
  rw [segments, List.length_append]
  split <;> rfl

theorem exists_lines (text : String) : ∃ ended tail, Lines text ended tail := by
  obtain ⟨cs, rfl⟩ : ∃ cs, text = String.ofList cs := ⟨text.toList, String.ofList_toList.symm⟩
  induction cs with
  | nil => exact ⟨[], "", rfl, by simp⟩
  | cons c cs ih =>
    obtain ⟨ended, tail, hjoined, hunbroken⟩ := ih
    have hcons : String.ofList (c :: cs) = String.singleton c ++ String.ofList cs := by
      apply String.toList_inj.1
      simp
    rw [hjoined] at hcons
    by_cases hc : c = '\n'
    · refine ⟨"" :: ended, tail, ?_, by simpa using hunbroken⟩
      rw [hcons, hc, List.map_cons, String.join_cons, String.append_assoc]
      rfl
    · have hfirst : ∀ line : String, '\n' ∉ line.toList → '\n' ∉ (String.singleton c ++ line).toList := by
        intro line hline
        simp [hline, Ne.symm hc]
      cases ended with
      | nil =>
        refine ⟨[], String.singleton c ++ tail, ?_, ?_⟩
        · rw [hcons]
          simp
        · simpa using hfirst tail (hunbroken tail List.mem_cons_self)
      | cons line ended =>
        obtain ⟨htail, hline, hended⟩ : _ ∧ _ ∧ _ := by simpa using hunbroken
        refine ⟨(String.singleton c ++ line) :: ended, tail, ?_, ?_⟩
        · rw [hcons]
          simp [String.append_assoc]
        · have hfirst := hfirst line hline
          simp_all

/-! ## Bytes -/

variable {bs rest : List UInt8} {b : UInt8}

theorem split_cons (hb : 10 ≠ b) (hreturn : b = 13 → bs.head? ≠ some 10) : split (b :: bs) =
    match split bs with
    | [] => [[b]]
    | piece :: pieces => (b :: piece) :: pieces := by
  have hmore : ∀ rest, b = 13 → bs = 10 :: rest → False := by
    rintro rest hb rfl
    exact hreturn hb rfl
  exact split.eq_4 b bs (Ne.symm hb) hmore

/-- A piece ends at the next line feed. -/
theorem split_feed (hfeed : 10 ∉ bs) (hreturn : bs.getLast? ≠ some 13) : split (bs ++ 10 :: rest) = bs :: split rest := by
  induction bs with
  | nil => rfl
  | cons b bs ih =>
    obtain ⟨hb, hbs⟩ := not_or.1 (mt List.mem_cons.2 hfeed)
    cases bs with
    | nil =>
      rw [List.cons_append, split_cons hb, List.nil_append, split]
      rintro rfl
      exact absurd rfl hreturn
    | cons c bs =>
      have hlast : (c :: bs).getLast? ≠ some 13 := by simpa using hreturn
      have hnext : ((c :: bs) ++ 10 :: rest).head? ≠ some 10 := fun h => hbs (List.mem_of_head? h)
      rw [List.cons_append, split_cons hb fun _ => hnext, ih hbs hlast]

/-- A carriage return in front of the line feed is no part of the piece. -/
theorem split_return (hfeed : 10 ∉ bs) : split (bs ++ 13 :: 10 :: rest) = bs :: split rest := by
  induction bs with
  | nil => rfl
  | cons b bs ih =>
    obtain ⟨hb, hbs⟩ := not_or.1 (mt List.mem_cons.2 hfeed)
    have hnext : (bs ++ 13 :: 10 :: rest).head? ≠ some 10 := by
      cases bs with
      | nil => simp
      | cons c bs => exact fun h => hbs (List.mem_of_head? h)
    rw [List.cons_append, split_cons hb fun _ => hnext, ih hbs]

/-- What stands after the last line feed is a piece, if it is anything. -/
theorem split_tail (hfeed : 10 ∉ bs) : split bs = if bs.isEmpty then [] else [bs] := by
  induction bs with
  | nil => rfl
  | cons b bs ih =>
    obtain ⟨hb, hbs⟩ := not_or.1 (mt List.mem_cons.2 hfeed)
    rw [split_cons hb fun _ h => hbs (List.mem_of_head? h), ih hbs]
    cases bs <;> rfl

/-! ## Pieces -/

theorem dropReturn_cases (line : String) : (∃ front, line = front ++ "\r" ∧ dropReturn line = front) ∨
    (line.toList.getLast? ≠ some '\r' ∧ dropReturn line = line) := by
  unfold dropReturn
  split
  · next h =>
    obtain ⟨front, hfront⟩ := List.getLast?_eq_some_iff.1 h
    refine .inl ⟨String.ofList front, ?_, ?_⟩
    · apply String.toList_inj.1
      simpa using hfront
    · rw [hfront, List.dropLast_concat]
  · next h => exact .inr ⟨h, rfl⟩

theorem feed_notMem {line : String} (h : '\n' ∉ line.toList) : 10 ∉ Text.bytes line :=
  mt (Text.mem_bytes (a := '\n') (by decide)).1 h

theorem getLast?_bytes {line : String} (h : line.toList.getLast? ≠ some '\r') : (Text.bytes line).getLast? ≠ some 13 := by
  rw [Text.bytes_eq]
  intro hlast
  rcases List.eq_nil_or_concat line.toList with hnil | ⟨front, c, hc⟩
  · rw [hnil] at hlast
    cases hlast
  · rw [hc, List.concat_eq_append, List.flatMap_append, List.flatMap_singleton,
      List.getLast?_append_of_ne_nil _ (String.utf8EncodeChar_ne_nil)] at hlast
    have hreturn : c = '\r' := (Text.mem_utf8EncodeChar (a := '\r') (by decide)).1 (List.mem_of_getLast? hlast)
    rw [hc, hreturn] at h
    exact h (by simp)

theorem split_line {line : String} (hline : '\n' ∉ line.toList) (rest : String) :
    split (Text.bytes (line ++ "\n" ++ rest)) = Text.bytes (dropReturn line) :: split (Text.bytes rest) := by
  have hbreak : Text.bytes "\n" = [10] := by rw [Text.bytes_eq]; rfl
  have hreturn : Text.bytes "\r" = [13] := by rw [Text.bytes_eq]; rfl
  rw [Text.bytes_append, Text.bytes_append, hbreak, List.append_assoc, List.singleton_append]
  rcases dropReturn_cases line with ⟨front, rfl, hdrop⟩ | ⟨hlast, hdrop⟩
  · have hfront : '\n' ∉ front.toList := by simp_all
    rw [hdrop, Text.bytes_append, hreturn, List.append_assoc, List.singleton_append]
    exact split_return (feed_notMem hfront)
  · rw [hdrop]
    exact split_feed (feed_notMem hline) (getLast?_bytes hlast)

/-- A stream is split into the bytes of its lines. The last keeps a carriage return at its end. -/
theorem Lines.split_bytes {text tail : String} {ended : List String} (h : Lines text ended tail) :
    split (Text.bytes text) = (segments (ended.map dropReturn) tail).map Text.bytes := by
  obtain ⟨rfl, hunbroken⟩ := h
  induction ended with
  | nil =>
    have htail : (Text.bytes tail).isEmpty = true ↔ tail = "" := by
      rw [List.isEmpty_iff, Text.bytes_eq, List.flatMap_eq_nil_iff]
      constructor
      · intro h
        apply String.toList_inj.1
        exact List.eq_nil_iff_forall_not_mem.2 fun c hc => String.utf8EncodeChar_ne_nil (h c hc)
      · rintro rfl
        nofun
    have hnil : String.join [] ++ tail = tail := String.empty_append
    rw [List.map_nil, hnil, split_tail (feed_notMem (hunbroken tail List.mem_cons_self))]
    simp only [htail, segments]
    split <;> rfl
  | cons line ended ih =>
    obtain ⟨htail, hline, hended⟩ : _ ∧ _ ∧ _ := by simpa using hunbroken
    rw [List.map_cons, String.join_cons, String.append_assoc, split_line hline, ih (by simpa using ⟨htail, hended⟩)]
    rfl

/-! ## Records -/

variable {read : TokenReader} {line : String} {lines : List String} {tokens : List Token}

/-- What is recorded in a line: nothing if it is blank, else the tokens that are read from it. -/
inductive Recorded (read : TokenReader) (line : String) : List Token → Prop
  | blank : Text.isBlankText line = true → Recorded read line []
  | listed {tokens : List Token} : Text.isBlankText line = false → read line = some tokens → Recorded read line tokens

/-- What reading these lines comes to: a record for each of them, or the number of the first that holds none. -/
def Reads (read : TokenReader) (lines : List String) : Except RecordError TokenStream → Prop
  | .ok s => List.Forall₂ (Recorded read) lines s.records
  | .error e => ∃ before line after, lines = before ++ line :: after ∧ e = .malformed before.length ∧
      (∀ tokens, ¬Recorded read line tokens) ∧ ∀ earlier ∈ before, ∃ tokens, Recorded read earlier tokens

theorem readRecord?_eq_some : readRecord? read line = some tokens ↔ Recorded read line tokens := by
  unfold readRecord?
  constructor
  · intro h
    split at h
    · next hblank =>
      cases h
      exact .blank hblank
    · next hblank => exact .listed (Bool.eq_false_iff.2 hblank) h
  · rintro (hblank | ⟨hblank, htokens⟩)
    · rw [if_pos hblank]
    · rw [if_neg (Bool.eq_false_iff.1 hblank), htokens]

/-- What reading comes to when lines give these records: all of them, or the number of the first that is missing. The
first line has the given number. -/
def Yields (number : Nat) (records : List (Option (List Token))) : Except RecordError (List (List Token)) → Prop
  | .ok given => records = given.map some
  | .error e => ∃ (before : List (List Token)) (after : List (Option (List Token))),
      records = before.map some ++ none :: after ∧ e = .malformed (number + before.length)

/-- Lines are read one after the other, up to the first that is malformed. -/
theorem readRecords_yields (read : TokenReader) (number : Nat) (lines : List String) :
    Yields number (lines.map (readRecord? read)) (readRecords read number (lines.map Text.bytes)) := by
  induction lines generalizing number with
  | nil => exact rfl
  | cons line lines ih =>
    rw [List.map_cons, List.map_cons, readRecords, Text.fromUTF8?_bytes]
    dsimp only
    cases hline : readRecord? read line with
    | none => exact ⟨[], lines.map (readRecord? read), rfl, rfl⟩
    | some tokens =>
      have hlines := ih (number + 1)
      dsimp only
      cases hread : readRecords read (number + 1) (lines.map Text.bytes) with
      | ok records =>
        rw [hread] at hlines
        exact congrArg (some tokens :: ·) hlines
      | error e =>
        rw [hread] at hlines
        obtain ⟨before, after, hbefore, rfl⟩ := hlines
        refine ⟨tokens :: before, after, congrArg (some tokens :: ·) hbefore, ?_⟩
        rw [List.length_cons, Nat.add_right_comm, Nat.add_assoc]

/-- What the lines give is what is recorded in them. -/
theorem Yields.reads {given : Except RecordError (List (List Token))} (h : Yields 0 (lines.map (readRecord? read)) given) :
    Reads read lines (given.map fun records => { records }) := by
  cases given with
  | ok records =>
    change lines.map (readRecord? read) = records.map some at h
    rw [← List.forall₂_eq_eq_eq, List.forall₂_map_left_iff, List.forall₂_map_right_iff] at h
    exact h.imp fun line tokens => readRecord?_eq_some.1
  | error e =>
    obtain ⟨before, after, hlines, rfl⟩ := h
    obtain ⟨ls, rest, hls, hbefore, hrest⟩ := List.map_eq_append_iff.1 hlines
    obtain ⟨line, ls', rfl, hline, -⟩ := List.map_eq_cons_iff.1 hrest
    refine ⟨ls, line, ls', hls, ?_, fun tokens htokens => ?_, fun earlier hearlier => ?_⟩
    · have hlength := congrArg List.length hbefore
      rw [List.length_map, List.length_map] at hlength
      rw [hlength, Nat.zero_add]
    · rw [readRecord?_eq_some.2 htokens] at hline
      cases hline
    · have hmem := List.mem_map_of_mem (f := readRecord? read) hearlier
      rw [hbefore] at hmem
      obtain ⟨tokens, -, htokens⟩ := List.mem_map.1 hmem
      exact ⟨tokens, readRecord?_eq_some.1 htokens.symm⟩

/-- Where the reader takes a carriage return at the end for a blank, a line may keep it. -/
theorem readRecord?_dropReturn (hread : ∀ line, read (line ++ "\r") = read line) (line : String) :
    readRecord? read (dropReturn line) = readRecord? read line := by
  rcases dropReturn_cases line with ⟨front, rfl, hdrop⟩ | ⟨-, hdrop⟩
  · have hblank : Text.isBlankText (front ++ "\r") = Text.isBlankText front := by
      have hreturn : Text.isBlank '\r' = true := by decide
      simp [Text.isBlankText, hreturn]
    rw [hdrop, readRecord?, readRecord?, hblank, hread]
  · rw [hdrop]

variable {text tail : String} {ended : List String}

/-- A stream is read record by record, or refused with the number of the first line that holds none. A line that a line
feed ends does not keep the carriage return in front of that. -/
theorem Lines.ofBytes (h : Lines text ended tail) (read : TokenReader) :
    Reads read (segments (ended.map dropReturn) tail) (TokenStream.ofBytes read text.toUTF8) := by
  rw [TokenStream.ofBytes, Text.toList_toUTF8, h.split_bytes]
  exact (readRecords_yields read 0 _).reads

/-- Where the reader takes a carriage return at the end for a blank, no line keeps it. -/
theorem Lines.ofBytes_dropReturn (h : Lines text ended tail) (hread : ∀ line, read (line ++ "\r") = read line) :
    Reads read ((segments ended tail).map dropReturn) (TokenStream.ofBytes read text.toUTF8) := by
  have hmap : (segments (ended.map dropReturn) tail).map (readRecord? read) =
      ((segments ended tail).map dropReturn).map (readRecord? read) := by
    unfold segments
    split <;> simp [readRecord?_dropReturn hread]
  have hyields := readRecords_yields read 0 (segments (ended.map dropReturn) tail)
  rw [hmap] at hyields
  rw [TokenStream.ofBytes, Text.toList_toUTF8, h.split_bytes]
  exact hyields.reads

/-- The reader of the program takes a carriage return at the end for a blank. -/
theorem tokens_bundled_return (line : String) :
    Libraries.bundled.tokens (line ++ "\r") = Libraries.bundled.tokens line := by
  have hspace := Json.parse?_append_blank (w := '\r') rfl line.toList
  rw [String.ofList_append, String.ofList_toList] at hspace
  exact congrArg (Option.bind · Token.listOfJson?) hspace

end TokenStream

end ScopeActions
