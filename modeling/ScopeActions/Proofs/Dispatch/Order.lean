import ScopeActions.Proofs.Dispatch.Line
import ScopeActions.Replay
/-!
# Orders of turns

Where all actions keep to an invariant of the world and succeed, batches, lines and documents succeed, in turn and
side by side, and lead to a world that some order of turns leads to (`Dispatcher.LinesReach`).
-/

namespace ScopeActions

variable {ε : Type} {I : World ε → Prop} {w w' : World ε} {ls : List (Launch ε)}

namespace Batch

/-- In some order of turns, launches that run to their ends lead from one world to another. -/
def Reaches (ls : List (Launch ε)) (w w' : World ε) : Prop :=
  ∃ os, Task.Interleaves w (numbered 0 (ls.map Launch.task)) os w' []

theorem Reaches.of_nil (hr : Reaches [] w w') : w' = w := by
  obtain ⟨os, hi⟩ := hr
  exact hi.of_nil

theorem Reaches.of_singleton {l : Launch ε} (hr : Reaches [l] w w') : w' = (l.task.run w).1 := by
  obtain ⟨os, hi⟩ := hr
  exact hi.of_singleton

theorem getElem?_launch {i : Nat} {t : Task (World ε) Completion} (ht : (ls.map Launch.task)[i]? = some t) :
    ∃ l ∈ ls, l.task = t := by
  rw [List.getElem?_map, Option.map_eq_some_iff] at ht
  obtain ⟨l, hl, rfl⟩ := ht
  exact ⟨l, List.mem_of_getElem? hl, rfl⟩

theorem exists_keeps (h : ∀ l ∈ ls, l.task.Keeps I (.ok ())) {i : Nat} {t : Task (World ε) Completion}
    (ht : (ls.map Launch.task)[i]? = some t) :
    ∃ r, (List.replicate ls.length (Except.ok () : Completion))[i]? = some r ∧ t.Keeps I r := by
  have hi : i < ls.length := by simpa using (List.getElem?_eq_some_iff.1 ht).1
  obtain ⟨l, hl, rfl⟩ := getElem?_launch ht
  exact ⟨.ok (), by simp [hi], h l hl⟩

theorem settles_of_keeps (hw : I w) (h : ∀ l ∈ ls, l.task.Keeps I (.ok ())) :
    Task.Settles w (ls.map Launch.task) (List.replicate ls.length (.ok ())) :=
  Task.settles_of_keeps hw (by simp) fun _ _ ht => exists_keeps h ht

/-- The invariant holds afterwards, whatever the order. -/
theorem Reaches.keeps (hr : Reaches ls w w') (hw : I w) (h : ∀ l ∈ ls, l.task.Keeps I (.ok ())) : I w' := by
  obtain ⟨os, hi⟩ := hr
  exact (hi.keeps hw fun p hp => exists_keeps h (mem_numbered.1 hp).2).1

/-- A batch of actions that keep to an invariant succeeds. -/
theorem run_keeps (mode : BatchMode) {j : Journal ε} (hj : I j.world) (h : ∀ l ∈ ls, l.task.Keeps I (.ok ())) :
    ∃ j', (run mode ls).run.run j = (.ok ls.length, j') ∧ Reaches ls j.world j'.world := by
  have hs := settles_of_keeps hj h
  cases mode with
  | inTurn =>
    rw [run_inTurn, run_runInTurn_ok hs.runAll]
    exact ⟨_, rfl, _, Task.interleaves_runAll (ls.map Launch.task) j.world 0⟩
  | together schedule =>
    obtain ⟨world, os, hi, hrun⟩ := run_runTogether schedule hs
    rw [run_together, hrun, firstFailure?_replicate]
    exact ⟨_, rfl, os, hi⟩

end Batch

namespace Dispatcher

variable {d : Dispatcher ε} {document : Document}

/-- The lines of a document, each with its tokens, run one after the other, the launches of each in some order. The
first line has the given number. -/
inductive LinesReach (d : Dispatcher ε) (document : Document) : Nat → List (String × List Token) → World ε → World ε → Prop
  | nil {number : Nat} {w : World ε} : LinesReach d document number [] w w
  | cons {number : Nat} {line : String} {tokens : List Token} {lines : List (String × List Token)} {w w' w'' : World ε} :
      Batch.Reaches (d.lineLaunches line tokens number (some document)) w w' →
      LinesReach d document (number + 1) lines w' w'' → LinesReach d document number ((line, tokens) :: lines) w w''

theorem LinesReach.keeps {number : Nat} {lines : List (String × List Token)} (hr : d.LinesReach document number lines w w')
    (hw : I w) (h : ∀ p ∈ lines, ∀ n, ∀ l ∈ d.lineLaunches p.1 p.2 n (some document), l.task.Keeps I (.ok ())) : I w' := by
  induction hr with
  | nil => exact hw
  | cons hline _ ih =>
    exact ih (hline.keeps hw (h _ List.mem_cons_self _)) fun p hp => h p (List.mem_cons_of_mem _ hp)

/-- A line of actions that keep to an invariant succeeds. -/
theorem runLine_keeps {line : String} {tokens : List Token} {number : Nat} {document : Option Document} {j : Journal ε}
    (hj : I j.world) (h : ∀ l ∈ d.lineLaunches line tokens number document, l.task.Keeps I (.ok ())) :
    ∃ j', (d.runLine line tokens number document).run.run j = (.ok (d.lineLaunches line tokens number document).length, j') ∧
      Batch.Reaches (d.lineLaunches line tokens number document) j.world j'.world := by
  have hs := Batch.settles_of_keeps hj h
  cases hp : d.options.parallel
  · obtain ⟨hresult, hworld, -⟩ := run_runLine_inTurn hp line tokens number document j
    rw [Batch.run_runInTurn_ok hs.runAll] at hresult hworld
    refine ⟨_, Prod.ext hresult rfl, ?_⟩
    rw [hworld]
    exact ⟨_, Task.interleaves_runAll _ j.world 0⟩
  · obtain ⟨hresult, -, hi⟩ := run_runLine_together hp hs
    rw [Batch.firstFailure?_replicate] at hresult
    exact ⟨_, Prod.ext hresult rfl, hi⟩

end Dispatcher

/-- The tokens of lines, from a state on; nothing when one of them cannot be split. -/
def Tokenizer.all? {τ : Type} (t : Tokenizer τ) (state : τ) : List String → Option (List (List Token))
  | [] => some []
  | line :: lines =>
    match t.tokenize line state with
    | .error _ => none
    | .ok (tokens, state) => (t.all? state lines).map (tokens :: ·)

theorem TokenStream.all?_tokenizer (s : TokenStream) (number : Nat) (lines : List String)
    (h : number + lines.length ≤ s.records.length) :
    s.tokenizer.all? number lines = some ((s.records.drop number).take lines.length) := by
  induction lines generalizing number with
  | nil => rfl
  | cons line lines ih =>
    rw [List.length_cons] at h
    have hlt : number < s.records.length := by omega
    have hstep : s.tokenizer.tokenize line number = .ok (s.records[number], number + 1) := by
      simp [tokenizer, List.getElem?_eq_getElem hlt]
    rw [Tokenizer.all?, hstep]
    dsimp only
    rw [ih (number + 1) (by omega), ← List.getElem_cons_drop hlt, List.length_cons, List.take_succ_cons]
    rfl

namespace Dispatcher

variable {τ : Type} {d : Dispatcher ε} {document : Document}

/-- Lines of actions that keep to an invariant succeed. -/
theorem runLines_keeps (t : Tokenizer τ) (number : Nat) {state : τ} {lines : List String} {records : List (List Token)}
    {j : Journal ε} (hj : I j.world) (hrecords : t.all? state lines = some records)
    (h : ∀ p ∈ lines.zip records, ∀ n, ∀ l ∈ d.lineLaunches p.1 p.2 n (some document), l.task.Keeps I (.ok ())) :
    ∃ tally j', (d.runLines t document number state lines).run.run j = (.ok tally, j') ∧
      LinesReach d document number (lines.zip records) j.world j'.world := by
  induction lines generalizing number state records j with
  | nil => exact ⟨_, j, rfl, .nil⟩
  | cons line lines ih =>
    rw [Tokenizer.all?] at hrecords
    cases hline : t.tokenize line state with
    | error cause => simp [hline] at hrecords
    | ok p =>
      obtain ⟨tokens, state'⟩ := p
      rw [hline] at hrecords
      obtain ⟨records, hrest, rfl⟩ := Option.map_eq_some_iff.1 hrecords
      rw [List.zip_cons_cons] at h ⊢
      have hkeeps : ∀ l ∈ d.lineLaunches line tokens number (some document), l.task.Keeps I (.ok ()) :=
        h _ List.mem_cons_self number
      obtain ⟨j₁, hrun, hreach⟩ := runLine_keeps hj hkeeps
      obtain ⟨tally, j₂, hruns, hreaches⟩ := @ih (number + 1) state' records j₁ (hreach.keeps hj hkeeps) hrest
        fun p hp => h p (List.mem_cons_of_mem _ hp)
      refine ⟨⟨tally.lines + 1, (d.lineLaunches line tokens number (some document)).length + tally.actions⟩, j₂, ?_,
        .cons hreach hreaches⟩
      rw [runLines, hline]
      dsimp only
      rw [run_bind, hrun]
      dsimp only
      rw [run_bind, hruns]
      rfl

/-! ## Phases -/

/-- The launches of a phase. -/
def phaseLaunches (d : Dispatcher ε) (phase : String) (files : List String) : List (Launch ε) :=
  ((d.registry.scan phase).flatMap (·.entries)).map fun entry =>
    { entry
      call := { scope := entry.scope, trigger := phaseTrigger, tokens := if phase = "run" then files else [], line := 0, document := none } }

theorem runPhase_eq (d : Dispatcher ε) (phase : String) (files : List String) :
    d.runPhase phase files = Batch.run (d.mode d.options.parallel) (d.phaseLaunches phase files) :=
  rfl

end Dispatcher

end ScopeActions
