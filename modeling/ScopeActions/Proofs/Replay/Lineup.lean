import ScopeActions.Proofs.Dispatch.Document
import ScopeActions.Proofs.Dispatch.Order
import ScopeActions.Proofs.Registry.Scan
import ScopeActions.Proofs.Replay.Stream
/-!
# Streams and documents

A stream that is replayed gives line `i` of a document its record `i`. Where no action fails, a document is run to its end
if there are records enough, and else up to the first line that there is no record for
(`Dispatcher.runDocument_replays`).
-/

namespace ScopeActions

variable {ε : Type} {I : World ε → Prop}

theorem TokenStream.tokenize_eq_ok {s : TokenStream} {line : String} {number number' : Nat} {tokens : List Token} :
    s.tokenizer.tokenize line number = .ok (tokens, number') ↔
      s.records[number]? = some tokens ∧ number' = number + 1 := by
  unfold tokenizer
  dsimp only
  cases s.records[number]? <;> simp [eq_comm]

theorem TokenStream.tokenize_eq_error {s : TokenStream} {line cause : String} {number : Nat} :
    s.tokenizer.tokenize line number = .error cause ↔
      s.records.length ≤ number ∧ cause = "no tokens recorded for line " ++ toString number := by
  unfold tokenizer
  dsimp only
  cases h : s.records[number]? with
  | none => simp [List.getElem?_eq_none_iff.1 h, eq_comm]
  | some tokens =>
    have hlt := (List.getElem?_eq_some_iff.1 h).1
    simp [Nat.not_le.2 hlt]

namespace Dispatcher

variable {d : Dispatcher ε} {document : Document} {s : TokenStream} {j j' : Journal ε} {number : Nat}

/-! ## Actions that do not fail -/

/-- All actions keep to an invariant of the world and succeed. -/
def ActionsKeep (d : Dispatcher ε) (I : World ε → Prop) : Prop :=
  ∀ e ∈ d.registry.entries, ∀ call, (e.handler call).Keeps I (.ok ())

/-- Whatever is launched on a line is registered. -/
theorem ActionsKeep.lineLaunches (h : d.ActionsKeep I) {line : String} {tokens : List Token}
    {document : Option Document} : ∀ l ∈ d.lineLaunches line tokens number document, l.task.Keeps I (.ok ()) := by
  intro l hl
  obtain ⟨b, -, hb⟩ := List.mem_flatMap.1 hl
  obtain ⟨e, he, rfl⟩ := List.mem_map.1 hb
  obtain ⟨g, hg, he⟩ := List.mem_flatMap.1 he
  exact h e (Registry.mem_entries_of_mem_resolve hg he) _

theorem ActionsKeep.runLine (h : d.ActionsKeep I) (hj : I j.world) (line : String) (tokens : List Token) :
    ∃ ran j', (d.runLine line tokens number (some document)).run.run j = (.ok ran, j') ∧ I j'.world := by
  obtain ⟨j', hrun, hreach⟩ := runLine_keeps hj h.lineLaunches
  exact ⟨_, j', hrun, hreach.keeps hj h.lineLaunches⟩

theorem Passes.keeps {τ : Type} {t : Tokenizer τ} {state state' : τ} {runs : List (LineRun τ)}
    (h : d.Passes t document number state j runs state' j') (hkeeps : d.ActionsKeep I) (hj : I j.world) : I j'.world := by
  induction h with
  | nil => exact hj
  | @cons _ _ line tokens _ _ _ _ _ _ _ _ hrun _ ih =>
    obtain ⟨ran, j₁, hrun₁, hj₁⟩ := hkeeps.runLine hj line tokens
    rw [hrun] at hrun₁
    cases hrun₁
    exact ih hj₁

/-! ## Lines and records -/

/-- Lines that pass have the records from the first state on. -/
theorem Passes.records {state state' : Nat} {runs : List (LineRun Nat)}
    (h : d.Passes s.tokenizer document number state j runs state' j') :
    state' = state + runs.length ∧ ∀ i r, runs[i]? = some r →
      r.number = number + i ∧ s.records[state + i]? = some r.tokens := by
  induction h with
  | nil => exact ⟨rfl, nofun⟩
  | cons ht _ _ ih =>
    obtain ⟨hrecord, rfl⟩ := TokenStream.tokenize_eq_ok.1 ht
    obtain ⟨hstate, hruns⟩ := ih
    refine ⟨by rw [hstate, List.length_cons]; omega, ?_⟩
    rintro (_ | i) r hr
    · cases hr
      exact ⟨rfl, hrecord⟩
    · obtain ⟨hnumber, htokens⟩ := hruns i r hr
      refine ⟨by omega, ?_⟩
      rwa [show ∀ n, n + (i + 1) = n + 1 + i by omega]

/-- The lines of a document are dispatched in order, line `i` with record `i`, as far as there are lines and records; the
run succeeds if there is a record for every line, and ends with the first line without one if not. -/
def LinesUp (d : Dispatcher ε) (s : TokenStream) (document : Document) (j : Journal ε) : Prop :=
  ∃ runs j', d.Passes s.tokenizer document 0 0 j runs runs.length j' ∧
    runs.length = min s.records.length document.lines.length ∧
    (∀ (i : Nat) (r : LineRun Nat), runs[i]? = some r →
      r.number = i ∧ document.lines[i]? = some r.line ∧ s.records[i]? = some r.tokens) ∧
    (d.runDocument s.tokenizer document).run.run j =
      (if document.lines.length ≤ s.records.length then
        .ok { lines := document.lines.length, actions := (runs.map (·.ran)).sum }
      else
        .error (.failed (.tokenizer document.name s.records.length
          ("no tokens recorded for line " ++ toString s.records.length))), j')

theorem linesUp (hkeeps : d.ActionsKeep I) (hj : I j.world) (s : TokenStream) (document : Document) :
    d.LinesUp s document j := by
  obtain ⟨runs, state, j', ended, rest, hlines, hpasses, hends, hresult, -⟩ :=
    d.exists_passes s.tokenizer document 0 0 document.lines j []
  have hrun := d.run_runLines_eq s.tokenizer document 0 0 document.lines j []
  generalize (d.noteLines s.tokenizer document 0 0 document.lines).run.run (j, []) = after at hends hresult hrun
  obtain ⟨result, after, notes⟩ := after
  dsimp only at hends hresult hrun
  subst hresult
  obtain ⟨rfl, hrecords⟩ := hpasses.records
  have hj' := hpasses.keeps hkeeps hj
  simp only [Nat.zero_add] at hpasses hrecords hends
  have hlength : runs.length ≤ document.lines.length := by
    have h := congrArg List.length hlines
    rw [List.length_map, List.length_take] at h
    omega
  have hlengthRecords : runs.length ≤ s.records.length := by
    refine Nat.le_of_not_lt fun hlt => ?_
    obtain ⟨-, hrecord⟩ := hrecords _ _ (List.getElem?_eq_getElem hlt)
    rw [List.getElem?_eq_none (Nat.le_refl _)] at hrecord
    cases hrecord
  have hruns : ∀ (i : Nat) (r : LineRun Nat), runs[i]? = some r →
      r.number = i ∧ document.lines[i]? = some r.line ∧ s.records[i]? = some r.tokens := by
    intro i r hr
    obtain ⟨hnumber, htokens⟩ := hrecords i r hr
    refine ⟨hnumber, ?_, htokens⟩
    have hi := (List.getElem?_eq_some_iff.1 hr).1
    rw [← List.getElem?_take_of_lt hi, ← hlines, List.getElem?_map, hr]
    rfl
  generalize hnext : document.lines[runs.length]? = next at hends
  cases hends with
  | done =>
    have hall := List.getElem?_eq_none_iff.1 hnext
    refine ⟨runs, _, hpasses, by omega, hruns, ?_⟩
    rw [if_pos (by omega)]
    exact hrun
  | tokenizer hfail =>
    obtain ⟨hout, rfl⟩ := TokenStream.tokenize_eq_error.1 hfail
    have hmore := (List.getElem?_eq_some_iff.1 hnext).1
    obtain hend : runs.length = s.records.length := by omega
    refine ⟨runs, _, hpasses, by omega, hruns, ?_⟩
    rw [if_neg (by omega), ← hend]
    exact hrun
  | @halted line tokens =>
    -- no action fails
    next _ hhalt =>
    obtain ⟨ran, j₁, hok, -⟩ := hkeeps.runLine hj' line tokens
    rw [hok] at hhalt
    cases hhalt

/-- A stream that is replayed lines up with each document. There is a record for each line of the stream that a line feed
ends, and for what stands after the last of them; it holds what the reader takes from the line without the carriage return
in front of the line feed, or from the line without any at its end if the reader takes one for a blank. A stream with a
malformed line is refused with the number of the first. Where no action fails, line `i` of a document is dispatched with
record `i`, up to the first line that there is no record for. -/
theorem runDocument_replays (read : TokenReader) (d : Dispatcher ε) (document : Document) (j : Journal ε)
    (text : String) (hkeeps : d.ActionsKeep I) (hj : I j.world) :
    ∃ ended tail, TokenStream.Lines text ended tail ∧
      let result := TokenStream.ofBytes read text.toUTF8
      TokenStream.Reads read (TokenStream.segments (ended.map TokenStream.dropReturn) tail) result ∧
      ((∀ line, read (line ++ "\r") = read line) →
        TokenStream.Reads read ((TokenStream.segments ended tail).map TokenStream.dropReturn) result) ∧
      ∀ s, result = .ok s →
        s.records.length = ended.length + (if tail = "" then 0 else 1) ∧ d.LinesUp s document j := by
  obtain ⟨ended, tail, hlines⟩ := TokenStream.exists_lines text
  refine ⟨ended, tail, hlines, hlines.ofBytes read, hlines.ofBytes_dropReturn, fun s hs => ?_⟩
  have hread := hlines.ofBytes read
  rw [hs] at hread
  refine ⟨?_, linesUp hkeeps hj s document⟩
  rw [← hread.length_eq, TokenStream.length_segments, List.length_map]

/-- One action, on `a`. -/
def steady : Dispatcher Unit where
  registry := (Registry.registerAll .empty [("a", "one", fun _ => patient)]).2

theorem actionsKeep_steady : steady.ActionsKeep fun _ => True := by
  have hpatient : patient.Keeps (fun _ => True) (.ok ()) := ⟨fun _ _ _ _ => trivial, fun _ _ => ⟨trivial, rfl⟩⟩
  have hregistered : Registry.registerAll .empty [("a", "one", fun _ => patient)] = (.ok (), steady.registry) := rfl
  obtain ⟨log, hlog, hactions⟩ := Registry.records_empty.registerAll hregistered
  intro e he call
  rw [Registry.entries, hlog.entries_scan, Text.mem_sortBy, List.nil_append] at he
  have hmem := List.mem_map_of_mem (f := fun e => (e.scope.text, e.source, e.handler)) (List.mem_filter.1 he).1
  rw [hactions, List.mem_singleton, Prod.mk.injEq, Prod.mk.injEq] at hmem
  rw [hmem.2.2]
  exact hpatient

/-- Three records: the first line ends in a carriage return and a line feed, the second is blank, the third is not
ended. -/
def unended : String :=
  "[\x7b\"startIndex\":0,\"endIndex\":1,\"scopes\":[\"a\"]\x7d]\r\n\n[]"

theorem runDocument_replays_unended :
    let document : Document := .ofText "letter" "x\ny\nz\n"
    let j : Journal Unit := { world := { other := () } }
    let read := Libraries.bundled.tokens
    steady.ActionsKeep (fun _ => True) ∧ (∀ line, read (line ++ "\r") = read line) ∧
      ∃ s, TokenStream.ofBytes read unended.toUTF8 = .ok s ∧
      s.records = [[⟨0, 1, ["a"]⟩], [], []] ∧ steady.LinesUp s document j ∧
      ((steady.runDocument s.tokenizer document).run.run j).1 =
        .error (.failed (.tokenizer "letter" 3 "no tokens recorded for line 3")) := by
  intro document j read
  have hread : TokenStream.ofBytes read unended.toUTF8 = .ok ⟨[[⟨0, 1, ["a"]⟩], [], []]⟩ := by decide +kernel
  obtain ⟨ended, tail, -, -, -, h⟩ := runDocument_replays read steady document j unended actionsKeep_steady trivial
  obtain ⟨-, hlines⟩ := h _ hread
  refine ⟨actionsKeep_steady, TokenStream.tokens_bundled_return, _, hread, rfl, hlines, ?_⟩
  obtain ⟨runs, j', -, -, -, hrun⟩ := hlines
  rw [hrun]
  rfl

end Dispatcher

end ScopeActions
