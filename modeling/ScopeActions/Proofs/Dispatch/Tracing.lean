import ScopeActions.Dispatch.Dispatcher
import ScopeActions.Proofs.Dispatch.Batch
/-!
# Tracing

A tracer listens to a run and has no part in it: runs of a document under any two tracers have the same launches, end
with the same result and leave the same world (`Dispatcher.runDocument_tracers`). They differ in what is told.
-/

namespace ScopeActions

variable {ε α β τ : Type}

/-! ## Runs that differ in what they tell -/

namespace RunM

variable {x y p : RunM ε α}

/-- From one world and after the same launches, the runs end alike. What they tell may differ; neither takes back what
was told before. -/
def Agree (x y : RunM ε α) : Prop :=
  ∀ world launched told told', ∃ r world' launched' more more',
    x.run.run ⟨world, launched, told⟩ = (r, ⟨world', launched', told ++ more⟩) ∧
    y.run.run ⟨world, launched, told'⟩ = (r, ⟨world', launched', told' ++ more'⟩)

/-- A step that tells something, and does nothing else. -/
def Tells (p : RunM ε Unit) : Prop :=
  ∀ j, ∃ more, p.run.run j = (.ok (), { j with events := j.events ++ more })

theorem tells_tell (events : List TraceEvent) : Tells (ε := ε) (tell events) :=
  fun _ => ⟨_, rfl⟩

theorem tells_tellStore (t : Tracer) : Tells (ε := ε) (tellStore t) :=
  fun _ => ⟨_, rfl⟩

/-- A step that does not look at what was told, and tells nothing, agrees with itself. -/
theorem agree_of_events (h : ∀ (j : Journal ε) events,
    x.run.run { j with events } = ((x.run.run j).1, { (x.run.run j).2 with events })) : Agree x x := by
  intro world launched told told'
  let j : Journal ε := ⟨world, launched, []⟩
  refine ⟨(x.run.run j).1, (x.run.run j).2.world, (x.run.run j).2.launched, [], [], ?_, ?_⟩
  · rw [List.append_nil]
    exact h j told
  · rw [List.append_nil]
    exact h j told'

theorem agree_pure (a : α) : Agree (ε := ε) (pure a) (pure a) :=
  agree_of_events fun _ _ => rfl

theorem agree_throw (e : Halt) : Agree (ε := ε) (α := α) (throw e) (throw e) :=
  agree_of_events fun _ _ => rfl

theorem Agree.bind {f g : α → RunM ε β} (h : Agree x y) (hf : ∀ a, Agree (f a) (g a)) : Agree (x >>= f) (y >>= g) := by
  intro world launched told told'
  obtain ⟨r, world₁, launched₁, more, more', hx, hy⟩ := h world launched told told'
  rw [run_bind, run_bind, hx, hy]
  cases r with
  | error e => exact ⟨.error e, world₁, launched₁, more, more', rfl, rfl⟩
  | ok a =>
    obtain ⟨r, world₂, launched₂, next, next', hfa, hga⟩ := hf a world₁ launched₁ (told ++ more) (told' ++ more')
    refine ⟨r, world₂, launched₂, more ++ next, more' ++ next', ?_, ?_⟩
    · rw [← List.append_assoc]
      exact hfa
    · rw [← List.append_assoc]
      exact hga

theorem Agree.ite {x' y' : RunM ε α} {c : Prop} [Decidable c] (h : Agree x y) (h' : Agree x' y') :
    Agree (if c then x else x') (if c then y else y') := by
  split
  · exact h
  · exact h'

/-- Steps that tell agree, whatever they tell. -/
theorem agree_tells {p q : RunM ε Unit} (hp : Tells p) (hq : Tells q) : Agree p q := by
  intro world launched told told'
  obtain ⟨more, hp⟩ := hp ⟨world, launched, told⟩
  obtain ⟨more', hq⟩ := hq ⟨world, launched, told'⟩
  exact ⟨.ok (), world, launched, more, more', hp, hq⟩

/-- Each run may tell something first, or not. -/
theorem Agree.tellsIf {p q : RunM ε Unit} (hp : Tells p) (hq : Tells q) (c c' : Bool) (h : Agree x y) :
    Agree (if c then p >>= fun _ => x else x) (if c' then q >>= fun _ => y else y) := by
  have hpure : Tells (ε := ε) (pure ()) := fun j => ⟨[], by rw [List.append_nil]; rfl⟩
  have hpq : Agree (if c then p else pure ()) (if c' then q else pure ()) := by
    apply agree_tells
    · cases c
      · exact hpure
      · exact hp
    · cases c'
      · exact hpure
      · exact hq
  have hboth := hpq.bind fun _ => h
  cases c <;> cases c' <;> exact hboth

end RunM

/-! ## Batches -/

namespace Batch

open RunM

/-- What was told before a batch has no part in it. -/
theorem agree_run (mode : BatchMode) (ls : List (Launch ε)) : Agree (run mode ls) (run mode ls) := by
  cases mode with
  | inTurn =>
    have hrun : Agree (runInTurn ls) (runInTurn ls) := agree_of_events fun j events => run_runInTurn_events ls j events
    exact hrun.bind fun _ => agree_pure ls.length
  | together schedule =>
    have hrun : Agree (runTogether schedule ls) (runTogether schedule ls) := by
      apply agree_of_events
      intro j events
      rw [run_runTogether_eq, run_runTogether_eq]
    exact hrun.bind fun _ => agree_pure ls.length

end Batch

/-! ## Lines and documents -/

namespace Dispatcher

open RunM

variable (d : Dispatcher ε) (a b : Tracer)

/-- The dispatcher with a tracer in place of its own. -/
def tracedBy (t : Tracer) : Dispatcher ε :=
  { d with tracer := t }

theorem agree_runBuckets (traced traced' : Bool) (number : Nat) (document : Option Document) (bs : List Bucket) :
    Agree ((d.tracedBy a).runBuckets traced number document bs)
      ((d.tracedBy b).runBuckets traced' number document bs) := by
  induction bs with
  | nil => exact agree_pure 0
  | cons bucket bs ih =>
    -- each tracer may tell before the actions of a bucket and after them
    unfold runBuckets
    apply Agree.tellsIf (tells_tell _) (tells_tell _)
    apply (Batch.agree_run .inTurn (d.launches number document bucket)).bind
    intro ran
    apply Agree.tellsIf (tells_tellStore a) (tells_tellStore b)
    apply ih.bind
    exact fun rest => agree_pure (ran + rest)

theorem agree_runBatch (traced traced' : Bool) (number : Nat) (document : Option Document) (bs : List Bucket) :
    Agree ((d.tracedBy a).runBatch traced number document bs)
      ((d.tracedBy b).runBatch traced' number document bs) := by
  unfold runBatch
  apply (agree_tells (tells_tell _) (tells_tell _)).bind
  intro _
  apply (Batch.agree_run (.together d.schedule) (bs.flatMap (d.launches number document))).bind
  intro ran
  apply Agree.tellsIf (tells_tellStore a) (tells_tellStore b)
  exact agree_pure ran

theorem agree_runLine (line : String) (tokens : List Token) (number : Nat) (document : Option Document) :
    Agree ((d.tracedBy a).runLine line tokens number document)
      ((d.tracedBy b).runLine line tokens number document) := by
  unfold runLine
  apply (agree_tells (tells_tell _) (tells_tell _)).bind
  intro _
  apply Agree.ite (agree_pure 0)
  apply Agree.ite
  · exact d.agree_runBatch a b _ _ number document _
  · exact d.agree_runBuckets a b _ _ number document _

/-- Both tokenize a line alike, since a tokenizer sees no tracer. -/
theorem agree_runLines (t : Tokenizer τ) (document : Document) (number : Nat) (state : τ) (lines : List String) :
    Agree ((d.tracedBy a).runLines t document number state lines)
      ((d.tracedBy b).runLines t document number state lines) := by
  induction lines generalizing number state with
  | nil => exact agree_pure _
  | cons line lines ih =>
    unfold runLines
    rcases t.tokenize line state with cause | ⟨tokens, state'⟩
    · exact agree_throw _
    · apply (d.agree_runLine a b line tokens number (some document)).bind
      intro ran
      apply (ih (number + 1) state').bind
      exact fun rest => agree_pure _

/-- Tracing does not change a run: under any two tracers a document has the same launches in the same order, each with
the same call, ends with the same counts or the same failure, and leaves the same world. Only what is told differs. -/
theorem runDocument_tracers (t : Tokenizer τ) (document : Document) (j : Journal ε) :
    ∃ r world launched told told',
      ((d.tracedBy a).runDocument t document).run.run j = (r, ⟨world, launched, j.events ++ told⟩) ∧
      ((d.tracedBy b).runDocument t document).run.run j = (r, ⟨world, launched, j.events ++ told'⟩) :=
  d.agree_runLines a b t document 0 t.start document.lines j.world j.launched j.events j.events

end Dispatcher

end ScopeActions
