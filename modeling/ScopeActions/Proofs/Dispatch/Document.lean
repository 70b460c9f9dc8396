import Mathlib.Algebra.GroupWithZero.Nat
import ScopeActions.Dispatch.Dispatcher
import ScopeActions.Proofs.Dispatch.Batch
/-!
# Documents line by line

A document is run from its first line to its last: a line is tokenized with the state that the one before leaves, and
dispatched to its end before the next is tokenized. The first line that fails ends the run
(`Dispatcher.runDocument_passes`).
-/

namespace ScopeActions

variable {ε τ : Type}

/-- A line that was tokenized and dispatched. -/
structure LineRun (τ : Type) where
  number : Nat
  line : String
  /-- The state of the tokenizer before the line. -/
  state : τ
  tokens : List Token
  /-- How many actions ran. -/
  ran : Nat

/-- A step in the run of a document. -/
inductive LineEvent (τ : Type) where
  | tokenize (number : Nat) (line : String) (state : τ)
  | dispatch (number : Nat) (line : String) (tokens : List Token)
  | dispatched (number ran : Nat)

/-- The steps of a line that passes. -/
def LineRun.events (r : LineRun τ) : List (LineEvent τ) :=
  [.tokenize r.number r.line r.state, .dispatch r.number r.line r.tokens, .dispatched r.number r.ran]

namespace Dispatcher

/-! ## One loop, with and without notes -/

/-- The loop over the lines of a document, whatever its steps are. -/
def eachLine {m : Type → Type} [Monad m] (tokenize : Nat → String → τ → m (List Token × τ))
    (dispatch : Nat → String → List Token → m Nat) (number : Nat) (state : τ) : List String → m Tally
  | [] => return {}
  | line :: lines => do
    let (tokens, state) ← tokenize number line state
    let ran ← dispatch number line tokens
    let rest ← eachLine tokenize dispatch (number + 1) state lines
    return { lines := rest.lines + 1, actions := ran + rest.actions }

/-- Tokenizes a line of a document. -/
def tokenizeLine (t : Tokenizer τ) (document : Document) (number : Nat) (line : String) (state : τ) :
    RunM ε (List Token × τ) :=
  match t.tokenize line state with
  | .error cause => throw (.failed (.tokenizer document.name number cause))
  | .ok tokenized => return tokenized

/-- Lines are run by the loop. -/
theorem runLines_eq_eachLine (d : Dispatcher ε) (t : Tokenizer τ) (document : Document) (number : Nat) (state : τ)
    (lines : List String) : d.runLines t document number state lines =
      eachLine (tokenizeLine t document) (fun number line tokens => d.runLine line tokens number (some document))
        number state lines := by
  induction lines generalizing number state with
  | nil => rfl
  | cons line lines ih =>
    rw [runLines, eachLine, tokenizeLine]
    rcases t.tokenize line state with cause | ⟨tokens, state'⟩
    · rfl
    · dsimp only
      rw [ih]
      rfl

/-- Steps of a run that are noted. -/
abbrev NotedM (ε τ : Type) := ExceptT Halt (StateM (Journal ε × List (LineEvent τ)))

/-- Takes a step, with notes before it and after it. -/
def noted {α : Type} (before : LineEvent τ) (x : RunM ε α) (after : α → List (LineEvent τ)) : NotedM ε τ α :=
  ExceptT.mk fun (j, es) =>
    match x.run.run j with
    | (.error e, j) => (.error e, j, es ++ [before])
    | (.ok a, j) => (.ok a, j, es ++ before :: after a)

/-- Runs the lines of a document and notes each step. -/
def noteLines (d : Dispatcher ε) (t : Tokenizer τ) (document : Document) : Nat → τ → List String → NotedM ε τ Tally :=
  eachLine
    (fun number line state =>
      noted (.tokenize number line state) (tokenizeLine t document number line state) fun _ => [])
    (fun number line tokens =>
      noted (.dispatch number line tokens) (d.runLine line tokens number (some document)) fun ran =>
        [.dispatched number ran])

theorem run_eachLine_cons {δ σ : Type} (tokenize : Nat → String → τ → ExceptT δ (StateM σ) (List Token × τ))
    (dispatch : Nat → String → List Token → ExceptT δ (StateM σ) Nat) (number : Nat) (state : τ) (line : String)
    (lines : List String) (s : σ) :
    (eachLine tokenize dispatch number state (line :: lines)).run.run s =
      match (tokenize number line state).run.run s with
      | (.error e, s₁) => (.error e, s₁)
      | (.ok (tokens, state'), s₁) =>
        match (dispatch number line tokens).run.run s₁ with
        | (.error e, s₂) => (.error e, s₂)
        | (.ok ran, s₂) =>
          let after := (eachLine tokenize dispatch (number + 1) state' lines).run.run s₂
          (after.1.map fun rest => { lines := rest.lines + 1, actions := ran + rest.actions }, after.2) := by
  rw [eachLine, run_bind]
  rcases (tokenize number line state).run.run s with ⟨e | ⟨tokens, state'⟩, s₁⟩
  · rfl
  · dsimp only
    rw [run_bind]
    rcases (dispatch number line tokens).run.run s₁ with ⟨e | ran, s₂⟩
    · rfl
    · dsimp only
      rw [run_bind]
      rcases (eachLine tokenize dispatch (number + 1) state' lines).run.run s₂ with ⟨e | rest, s₃⟩ <;> rfl

theorem run_noted {α : Type} (before : LineEvent τ) (x : RunM ε α) (after : α → List (LineEvent τ)) (j : Journal ε)
    (es : List (LineEvent τ)) : (noted before x after).run.run (j, es) =
      match x.run.run j with
      | (.error e, j') => (.error e, j', es ++ [before])
      | (.ok a, j') => (.ok a, j', es ++ before :: after a) :=
  rfl

theorem run_tokenizeLine (t : Tokenizer τ) (document : Document) (number : Nat) (line : String) (state : τ)
    (j : Journal ε) : (tokenizeLine t document number line state).run.run j =
      match t.tokenize line state with
      | .error cause => (.error (.failed (.tokenizer document.name number cause)), j)
      | .ok tokenized => (.ok tokenized, j) := by
  rw [tokenizeLine]
  cases t.tokenize line state <;> rfl

variable {d : Dispatcher ε} {t : Tokenizer τ} {document : Document} {number : Nat} {state state' : τ} {j j' : Journal ε}
  {runs : List (LineRun τ)}

theorem run_runLines_cons (d : Dispatcher ε) (t : Tokenizer τ) (document : Document) (number : Nat) (state : τ)
    (line : String) (lines : List String) (j : Journal ε) :
    (d.runLines t document number state (line :: lines)).run.run j =
      match t.tokenize line state with
      | .error cause => (.error (.failed (.tokenizer document.name number cause)), j)
      | .ok (tokens, state') =>
        match (d.runLine line tokens number (some document)).run.run j with
        | (.error halt, j') => (.error halt, j')
        | (.ok ran, j') =>
          let after := (d.runLines t document (number + 1) state' lines).run.run j'
          (after.1.map fun rest => { lines := rest.lines + 1, actions := ran + rest.actions }, after.2) := by
  rw [runLines_eq_eachLine, run_eachLine_cons, run_tokenizeLine]
  rcases t.tokenize line state with cause | ⟨tokens, state'⟩
  · rfl
  · dsimp only
    rw [← runLines_eq_eachLine]
    rcases (d.runLine line tokens number (some document)).run.run j with ⟨halt | ran, j'⟩ <;> rfl

theorem run_noteLines_cons (d : Dispatcher ε) (t : Tokenizer τ) (document : Document) (number : Nat) (state : τ)
    (line : String) (lines : List String) (j : Journal ε) (es : List (LineEvent τ)) :
    (d.noteLines t document number state (line :: lines)).run.run (j, es) =
      match t.tokenize line state with
      | .error cause =>
        (.error (.failed (.tokenizer document.name number cause)), j, es ++ [.tokenize number line state])
      | .ok (tokens, state') =>
        match (d.runLine line tokens number (some document)).run.run j with
        | (.error halt, j') => (.error halt, j', es ++ [.tokenize number line state, .dispatch number line tokens])
        | (.ok ran, j') =>
          let after := (d.noteLines t document (number + 1) state' lines).run.run
            (j', es ++ LineRun.events ⟨number, line, state, tokens, ran⟩)
          (after.1.map fun rest => { lines := rest.lines + 1, actions := ran + rest.actions }, after.2) := by
  rw [noteLines, run_eachLine_cons, run_noted, run_tokenizeLine]
  rcases t.tokenize line state with cause | ⟨tokens, state'⟩
  · rfl
  · dsimp only
    rw [run_noted]
    rcases (d.runLine line tokens number (some document)).run.run j with ⟨halt | ran, j'⟩
    · dsimp only
      rw [List.append_assoc]
      rfl
    · dsimp only
      rw [List.append_assoc]
      rfl

/-- The notes change nothing. -/
theorem run_runLines_eq (d : Dispatcher ε) (t : Tokenizer τ) (document : Document) (number : Nat) (state : τ)
    (lines : List String) (j : Journal ε) (es : List (LineEvent τ)) :
    let after := (d.noteLines t document number state lines).run.run (j, es)
    (d.runLines t document number state lines).run.run j = (after.1, after.2.1) := by
  induction lines generalizing number state j es with
  | nil => rfl
  | cons line lines ih =>
    rw [run_runLines_cons, run_noteLines_cons]
    rcases t.tokenize line state with cause | ⟨tokens, state'⟩
    · rfl
    · dsimp only
      rcases (d.runLine line tokens number (some document)).run.run j with ⟨halt | ran, j'⟩
      · rfl
      · dsimp only
        rw [ih (number + 1) state' j' (es ++ LineRun.events ⟨number, line, state, tokens, ran⟩)]

/-! ## Lines that pass -/

/-- Lines are tokenized and dispatched without failure, each with the state and the journal that the one before
leaves. -/
inductive Passes (d : Dispatcher ε) (t : Tokenizer τ) (document : Document) :
    Nat → τ → Journal ε → List (LineRun τ) → τ → Journal ε → Prop
  | nil {number : Nat} {state : τ} {j : Journal ε} : Passes d t document number state j [] state j
  | cons {number ran : Nat} {line : String} {tokens : List Token} {state state' state'' : τ} {j j' j'' : Journal ε}
      {runs : List (LineRun τ)} : t.tokenize line state = .ok (tokens, state') →
      (d.runLine line tokens number (some document)).run.run j = (.ok ran, j') →
      Passes d t document (number + 1) state' j' runs state'' j'' →
      Passes d t document number state j (⟨number, line, state, tokens, ran⟩ :: runs) state'' j''

/-- How a run ends where the lines before have passed and this one, if any, is next: with what, which journal, and
after which steps. -/
inductive Ends (d : Dispatcher ε) (t : Tokenizer τ) (document : Document) (number : Nat) (state : τ) (j : Journal ε) :
    Option String → Except Halt Unit → Journal ε → List (LineEvent τ) → Prop
  | done : Ends d t document number state j none (.ok ()) j []
  | tokenizer {line cause : String} : t.tokenize line state = .error cause →
      Ends d t document number state j (some line) (.error (.failed (.tokenizer document.name number cause))) j
        [.tokenize number line state]
  | halted {line : String} {tokens : List Token} {state' : τ} {halt : Halt} {j' : Journal ε} :
      t.tokenize line state = .ok (tokens, state') →
      (d.runLine line tokens number (some document)).run.run j = (.error halt, j') →
      Ends d t document number state j (some line) (.error halt) j'
        [.tokenize number line state, .dispatch number line tokens]

/-- Lines pass up to one that fails, or all of them. -/
theorem exists_passes (d : Dispatcher ε) (t : Tokenizer τ) (document : Document) (number : Nat) (state : τ)
    (lines : List String) (j : Journal ε) (es : List (LineEvent τ)) :
    let after := (d.noteLines t document number state lines).run.run (j, es)
    ∃ runs state' j' ended rest, runs.map (·.line) = lines.take runs.length ∧
      d.Passes t document number state j runs state' j' ∧
      d.Ends t document (number + runs.length) state' j' lines[runs.length]? ended after.2.1 rest ∧
      after.1 = ended.map (fun _ => { lines := lines.length, actions := (runs.map (·.ran)).sum }) ∧
      after.2.2 = es ++ (runs.flatMap LineRun.events ++ rest) := by
  induction lines generalizing number state j es with
  | nil => exact ⟨[], state, j, .ok (), [], rfl, .nil, .done, rfl, (List.append_nil es).symm⟩
  | cons line lines ih =>
    rw [run_noteLines_cons]
    cases ht : t.tokenize line state with
    | error cause => exact ⟨[], state, j, _, _, rfl, .nil, .tokenizer ht, rfl, rfl⟩
    | ok tokenized =>
      obtain ⟨tokens, state'⟩ := tokenized
      dsimp only
      rcases hd : (d.runLine line tokens number (some document)).run.run j with ⟨halt | ran, j'⟩
      · exact ⟨[], state, j, _, _, rfl, .nil, .halted ht hd, rfl, rfl⟩
      · dsimp only
        obtain ⟨runs, state'', j'', ended, rest, hlines, hpasses, hends, hresult, hnotes⟩ :=
          ih (number + 1) state' j' (es ++ LineRun.events ⟨number, line, state, tokens, ran⟩)
        generalize (d.noteLines t document (number + 1) state' lines).run.run _ = after at hends hresult hnotes ⊢
        obtain ⟨result, after⟩ := after
        dsimp only at hends hresult hnotes
        subst hresult
        rw [Nat.add_assoc, Nat.add_comm 1] at hends
        refine ⟨⟨number, line, state, tokens, ran⟩ :: runs, state'', j'', ended, rest, ?_, .cons ht hd hpasses, ?_, ?_, ?_⟩
        · rw [List.map_cons, hlines, List.length_cons, List.take_succ_cons]
        · exact hends
        · cases ended <;> rfl
        · rw [List.append_assoc] at hnotes
          rw [List.flatMap_cons, List.append_assoc, ← hnotes]

end Dispatcher

end ScopeActions
