import ScopeActions.Proofs.Dispatch.Document
import ScopeActions.Proofs.Dispatch.Line
/-!
# What filters let pass

What is told of a run stands in blocks, one for each line that is dispatched. A block holds only what its line and the
filters admit, and a structure is told in it only after actions are (`Dispatcher.runDocument_tells`).
-/

namespace ScopeActions

variable {ε α β τ : Type} {number : Nat} {line : String}

/-- The filters let the event pass. -/
def TraceFilterSet.Admits (f : TraceFilterSet) : TraceEvent → Prop
  | .line _ text => f.lines.admits text = true
  | .token _ _ _ _ scopes => ∀ scope ∈ scopes, f.scopes.admits scope = true
  | .actions _ scope _ => f.scopes.admits scope = true ∧ f.actions.admits scope = true
  | .value name _ => f.structures.admits name = true

/-- The event can be one of this line. A structure carries no number. -/
def TraceEvent.IsOf (number : Nat) (line : String) : TraceEvent → Prop
  | .line n text => n = number ∧ text = line
  | .token n _ _ _ _ => n = number
  | .actions n _ _ => n = number
  | .value _ _ => True

namespace Tracer

/-- What a tracer may tell while a line is dispatched. -/
structure Tells (t : Tracer) (number : Nat) (line : String) (events : List TraceEvent) : Prop where
  filtered : ∀ e ∈ events, ∃ f, t.filters = some f ∧ f.lines.admits line = true ∧ f.Admits e
  isOf : ∀ e ∈ events, e.IsOf number line
  preceded : ∀ before name json after, events = before ++ .value name json :: after →
    ∃ scope texts, .actions number scope texts ∈ before

/-- What a tracer tells of a whole line. A line that passes its filter comes first. -/
structure TellsLine (t : Tracer) (number : Nat) (line : String) (events : List TraceEvent) : Prop
    extends t.Tells number line events where
  first : ∀ f, t.filters = some f → f.lines.admits line = true → ∃ rest, events = .line number line :: rest

variable {t : Tracer} {events events' : List TraceEvent}

/-! ## Blocks -/

theorem tells_nil (t : Tracer) (number : Nat) (line : String) : t.Tells number line [] where
  filtered := nofun
  isOf := nofun
  preceded before _ _ _ h := by simp at h

theorem Tells.append (h : t.Tells number line events) (h' : t.Tells number line events') :
    t.Tells number line (events ++ events') where
  filtered e he := (List.mem_append.1 he).elim (h.filtered e) (h'.filtered e)
  isOf e he := (List.mem_append.1 he).elim (h.isOf e) (h'.isOf e)
  preceded before name json after heq := by
    rcases List.append_eq_append_iff.1 heq with ⟨between, rfl, hlater⟩ | ⟨between, hsooner, hrest⟩
    · obtain ⟨scope, texts, hmem⟩ := h'.preceded between name json after hlater
      exact ⟨scope, texts, List.mem_append_right events hmem⟩
    · cases between with
      | nil =>
        obtain ⟨_, _, hmem⟩ := h'.preceded [] name json after hrest.symm
        cases hmem
      | cons e between =>
        obtain ⟨rfl, -⟩ := List.cons.inj hrest
        exact h.preceded before name json between hsooner

/-- Nothing is told without filters. -/
theorem Tells.eq_nil (h : t.Tells number line events) (ht : t.isEnabled = false) : events = [] := by
  refine List.eq_nil_iff_forall_not_mem.2 fun e he => ?_
  obtain ⟨f, hf, -⟩ := h.filtered e he
  rw [isEnabled, hf] at ht
  cases ht

theorem tells_lineEvents (t : Tracer) (number : Nat) (line : String) (tokens : List Token) :
    t.Tells number line (t.lineEvents number line tokens) := by
  unfold lineEvents
  rcases ht : t.filters with _ | f
  · exact tells_nil t number line
  · dsimp only
    split
    · next hline =>
      constructor
      · intro e he
        refine ⟨f, ht, hline, ?_⟩
        rcases List.mem_cons.1 he with rfl | he
        · exact hline
        · obtain ⟨k, -, rfl⟩ := List.mem_map.1 he
          intro scope hscope
          exact (List.mem_filter.1 hscope).2
      · intro e he
        rcases List.mem_cons.1 he with rfl | he
        · exact ⟨rfl, rfl⟩
        · obtain ⟨k, -, rfl⟩ := List.mem_map.1 he
          exact rfl
      · -- no structure is told before actions run
        intro before name json after heq
        have hmem : TraceEvent.value name json ∈ before ++ .value name json :: after := by simp
        rw [← heq] at hmem
        simp at hmem
    · exact tells_nil t number line

theorem Tells.tellsLine (h : t.Tells number line events) (tokens : List Token) :
    t.TellsLine number line (t.lineEvents number line tokens ++ events) where
  toTells := (tells_lineEvents t number line tokens).append h
  first f ht hline := by
    unfold lineEvents
    rw [ht]
    dsimp only
    rw [if_pos hline]
    exact ⟨_, rfl⟩

/-- The bucket is told of on this line. -/
def Shows (t : Tracer) (line : String) (b : Bucket) : Prop :=
  (t.admitsLine line && t.admitsActions b.scope.text) = true

theorem Shows.exists_filters {b : Bucket} (h : t.Shows line b) :
    ∃ f, t.filters = some f ∧ f.lines.admits line = true ∧ f.scopes.admits b.scope.text = true ∧
      f.actions.admits b.scope.text = true := by
  unfold Shows admitsLine admitsActions at h
  rcases ht : t.filters with _ | f
  · rw [ht] at h
    cases h
  · rw [ht] at h
    simp only [Bool.and_eq_true] at h
    exact ⟨f, rfl, h⟩

/-- What may follow the actions of a batch: nothing if one of them fails, else the store. -/
def Dumps (t : Tracer) (events : List TraceEvent) : Prop :=
  events = [] ∨ ∃ s, events = t.storeEvents s

theorem Dumps.admits {f : TraceFilterSet} (h : t.Dumps events) (ht : t.filters = some f) {e : TraceEvent}
    (he : e ∈ events) : f.Admits e ∧ ∀ number line, e.IsOf number line := by
  rcases h with rfl | ⟨s, rfl⟩
  · cases he
  · unfold storeEvents at he
    rw [ht] at he
    obtain ⟨b, hb, rfl⟩ := List.mem_map.1 he
    exact ⟨(List.mem_filter.1 hb).2, fun _ _ => trivial⟩

/-- What may follow the actions of a batch in which these buckets are told of. Without any, nothing does. -/
def DumpsAfter (t : Tracer) (shown : List Bucket) (events : List TraceEvent) : Prop :=
  t.Dumps events ∧ (shown = [] → events = [])

theorem dumpsAfter_nil (t : Tracer) (shown : List Bucket) : t.DumpsAfter shown [] :=
  ⟨.inl rfl, fun _ => rfl⟩

/-- Buckets are told of, and then the store. -/
theorem DumpsAfter.tells {bs : List Bucket} (h : t.DumpsAfter bs events) (hbs : ∀ b ∈ bs, t.Shows line b)
    (number : Nat) : t.Tells number line (bs.map (bucketEvent number) ++ events) := by
  obtain ⟨hdumps, hnone⟩ := h
  cases bs with
  | nil =>
    rw [hnone rfl]
    exact tells_nil t number line
  | cons b bs =>
    obtain ⟨f, ht, hline, -⟩ := (hbs b List.mem_cons_self).exists_filters
    constructor
    · intro e he
      refine ⟨f, ht, hline, ?_⟩
      rcases List.mem_append.1 he with he | he
      · obtain ⟨c, hc, rfl⟩ := List.mem_map.1 he
        obtain ⟨f', ht', -, hadmits⟩ := (hbs c hc).exists_filters
        obtain rfl : f = f' := Option.some.inj (ht.symm.trans ht')
        exact hadmits
      · exact (hdumps.admits ht he).1
    · intro e he
      rcases List.mem_append.1 he with he | he
      · obtain ⟨c, -, rfl⟩ := List.mem_map.1 he
        exact rfl
      · exact (hdumps.admits ht he).2 number line
    · -- the event in front is the bucket that is told of first
      intro before name json after heq
      cases before with
      | nil => cases (List.cons.inj heq).1
      | cons e before =>
        obtain ⟨rfl, -⟩ := List.cons.inj heq
        exact ⟨b.scope.text, b.texts, List.mem_cons_self⟩

/-- What may follow a bucket that is told of: the store or nothing, then what the other buckets are told with. -/
def Follows (t : Tracer) (number : Nat) (line : String) (events : List TraceEvent) : Prop :=
  ∃ dump rest, events = dump ++ rest ∧ t.Dumps dump ∧ t.Tells number line rest

theorem follows_nil (t : Tracer) (number : Nat) (line : String) : t.Follows number line [] :=
  ⟨[], [], rfl, .inl rfl, t.tells_nil number line⟩

theorem Follows.tells {b : Bucket} (h : t.Follows number line events) (hb : t.Shows line b) :
    t.Tells number line (bucketEvent number b :: events) := by
  obtain ⟨dump, rest, rfl, hdump, hrest⟩ := h
  have hshows : ∀ c ∈ [b], t.Shows line c := fun c hc => List.mem_singleton.1 hc ▸ hb
  have hafter : t.DumpsAfter [b] dump := ⟨hdump, nofun⟩
  exact (hafter.tells hshows number).append hrest

end Tracer

/-! ## Steps -/

namespace RunM

variable {P Q R : List TraceEvent → Prop} {x : RunM ε α}

/-- What the step tells, whether it stops the run or not, is of this kind. -/
def TellsOnly (P : List TraceEvent → Prop) (x : RunM ε α) : Prop :=
  ∀ j, ∃ told, P told ∧ (x.run.run j).2.events = j.events ++ told

theorem tellsOnly_pure (a : α) (h : P []) : TellsOnly P (pure a : RunM ε α) :=
  fun j => ⟨[], h, (List.append_nil j.events).symm⟩

theorem tellsOnly_tell (events : List TraceEvent) : TellsOnly (ε := ε) (· = events) (tell events) :=
  fun _ => ⟨events, rfl, rfl⟩

theorem tellsOnly_tellStore (t : Tracer) : TellsOnly (ε := ε) t.Dumps (tellStore t) :=
  fun j => ⟨_, .inr ⟨j.world.structures, rfl⟩, rfl⟩

/-- A step tells what it does before it stops, or what it and the next tell. -/
theorem TellsOnly.bind {f : α → RunM ε β} (hx : TellsOnly P x) (hf : ∀ a, TellsOnly Q (f a))
    (hstop : ∀ told, P told → R told) (hgo : ∀ told next, P told → Q next → R (told ++ next)) :
    TellsOnly R (x >>= f) := by
  intro j
  obtain ⟨told, hp, hj⟩ := hx j
  rw [run_bind]
  rcases hrun : x.run.run j with ⟨e | a, j'⟩
  · rw [hrun] at hj
    exact ⟨told, hstop told hp, hj⟩
  · rw [hrun] at hj
    obtain ⟨next, hq, hnext⟩ := hf a j'
    refine ⟨told ++ next, hgo told next hp hq, ?_⟩
    dsimp only at hj ⊢
    rw [hnext, hj, List.append_assoc]

end RunM

theorem Batch.tellsOnly_run (mode : BatchMode) (ls : List (Launch ε)) : RunM.TellsOnly (· = []) (run mode ls) := by
  intro j
  refine ⟨[], rfl, ?_⟩
  rw [List.append_nil]
  cases mode with
  | inTurn =>
    have hevents := congrArg (fun r => r.2.events) (run_runInTurn_events ls j j.events)
    rw [run_inTurn]
    rcases hrun : (runInTurn ls).run.run j with ⟨e | a, j'⟩ <;> rw [hrun] at hevents <;> exact hevents
  | together schedule =>
    rw [run_together, run_runTogether_eq]
    dsimp only
    cases firstFailure? ls _ <;> rfl

namespace Dispatcher

open RunM

variable (d : Dispatcher ε)

/-! ## Lines -/

theorem tellsOnly_runBuckets (number : Nat) (line : String) (document : Option Document) (bs : List Bucket) :
    TellsOnly (d.tracer.Tells number line) (d.runBuckets (d.tracer.admitsLine line) number document bs) := by
  induction bs with
  | nil => exact tellsOnly_pure 0 (d.tracer.tells_nil number line)
  | cons b bs ih =>
    have hrest : ∀ ran, TellsOnly (d.tracer.Tells number line) (do
        return ran + (← d.runBuckets (d.tracer.admitsLine line) number document bs)) := fun ran =>
      ih.bind (fun n => tellsOnly_pure (P := (· = [])) (ran + n) rfl) (fun _ h => h)
        fun told next h hnext => by rwa [hnext, List.append_nil]
    have hbatch := Batch.tellsOnly_run .inTurn (d.launches number document b)
    rw [runBuckets]
    dsimp only
    split
    · next hshown =>
      have hstore : ∀ ran, TellsOnly (ε := ε) (d.tracer.Follows number line) (do
          RunM.tellStore d.tracer
          return ran + (← d.runBuckets (d.tracer.admitsLine line) number document bs)) := by
        intro ran
        refine (tellsOnly_tellStore d.tracer).bind (fun _ => hrest ran) (fun told h => ?_) fun told next h hnext => ?_
        · exact ⟨told, [], (List.append_nil told).symm, h, d.tracer.tells_nil number line⟩
        · exact ⟨told, next, rfl, h, hnext⟩
      have hafter := hbatch.bind (R := d.tracer.Follows number line) hstore
        (fun _ h => h ▸ d.tracer.follows_nil number line) fun _ next h hnext => by rwa [h]
      refine (tellsOnly_tell _).bind (fun _ => hafter) ?_ ?_
      · rintro _ rfl
        exact (d.tracer.follows_nil number line).tells hshown
      · rintro _ next rfl hnext
        exact hnext.tells hshown
    · refine hbatch.bind (fun ran => hrest ran) ?_ ?_
      · rintro _ rfl
        exact d.tracer.tells_nil number line
      · rintro _ next rfl hnext
        exact hnext

theorem tellsOnly_runBatch (number : Nat) (line : String) (document : Option Document) (bs : List Bucket) :
    TellsOnly (d.tracer.Tells number line) (d.runBatch (d.tracer.admitsLine line) number document bs) := by
  rw [runBatch]
  have hshows : ∀ b ∈ bs.filter fun b => d.tracer.admitsLine line && d.tracer.admitsActions b.scope.text,
      d.tracer.Shows line b := fun b hb => (List.mem_filter.1 hb).2
  generalize bs.filter _ = shown at hshows ⊢
  have hstore : ∀ ran : Nat, TellsOnly (ε := ε) (d.tracer.DumpsAfter shown) (do
      if !shown.isEmpty then RunM.tellStore d.tracer
      return ran) := by
    intro ran
    cases shown with
    | nil => exact tellsOnly_pure ran (d.tracer.dumpsAfter_nil [])
    | cons b shown =>
      have hdone : TellsOnly (ε := ε) (· = []) (pure ran) := tellsOnly_pure ran rfl
      have hafter : ∀ dump, d.tracer.Dumps dump → d.tracer.DumpsAfter (b :: shown) dump := fun _ h =>
        ⟨h, fun hnone => absurd hnone (List.cons_ne_nil b shown)⟩
      refine (tellsOnly_tellStore d.tracer).bind (fun _ => hdone) hafter fun dump next h hnext => ?_
      rw [hnext, List.append_nil]
      exact hafter dump h
  have hbatch := Batch.tellsOnly_run (.together d.schedule) (bs.flatMap (d.launches number document))
  have hafter := hbatch.bind (R := d.tracer.DumpsAfter shown) hstore
    (fun _ h => h ▸ d.tracer.dumpsAfter_nil shown) fun _ next h hnext => by rwa [h]
  refine (tellsOnly_tell _).bind (fun _ => hafter) ?_ ?_
  · rintro _ rfl
    rw [← List.append_nil (List.map _ _)]
    exact (d.tracer.dumpsAfter_nil shown).tells hshows number
  · rintro _ next rfl hnext
    exact hnext.tells hshows number

theorem tellsOnly_runLine (number : Nat) (line : String) (tokens : List Token) (document : Option Document) :
    TellsOnly (d.tracer.TellsLine number line) (d.runLine line tokens number document) := by
  have hnothing := d.tracer.tells_nil number line
  have hbuckets : TellsOnly (d.tracer.Tells number line) (
      if (d.buckets line tokens).isEmpty then pure 0
      else if d.options.parallel then
        d.runBatch (d.tracer.admitsLine line) number document (d.buckets line tokens)
      else d.runBuckets (d.tracer.admitsLine line) number document (d.buckets line tokens)) := by
    split
    · exact tellsOnly_pure 0 hnothing
    · split
      · exact d.tellsOnly_runBatch number line document _
      · exact d.tellsOnly_runBuckets number line document _
  refine (tellsOnly_tell _).bind (fun _ => hbuckets) ?_ ?_
  · rintro _ rfl
    rw [← List.append_nil (d.tracer.lineEvents number line tokens)]
    exact hnothing.tellsLine tokens
  · rintro _ rest rfl hrest
    exact hrest.tellsLine tokens

/-! ## Documents -/

/-- Each block is told of its line, the first of which has the given number. -/
def TellsLines (d : Dispatcher ε) (number : Nat) (lines : List String) (told : List (List TraceEvent)) : Prop :=
  ∀ i events, told[i]? = some events → ∃ line, lines[i]? = some line ∧ d.tracer.TellsLine (number + i) line events

variable {d}

theorem TellsLines.cons {lines : List String} {block : List TraceEvent} {told : List (List TraceEvent)}
    (hblock : d.tracer.TellsLine number line block) (h : d.TellsLines (number + 1) lines told) :
    d.TellsLines number (line :: lines) (block :: told) := by
  intro i events hi
  cases i with
  | zero =>
    obtain rfl := Option.some.inj hi
    exact ⟨line, rfl, hblock⟩
  | succ i =>
    obtain ⟨line', hline', htells⟩ := h i events hi
    rw [Nat.add_right_comm] at htells
    exact ⟨line', hline', htells⟩

theorem tellsLines_runLines (d : Dispatcher ε) (t : Tokenizer τ) (document : Document) (number : Nat) (state : τ)
    (lines : List String) (j : Journal ε) :
    let after := (d.runLines t document number state lines).run.run j
    ∃ told, after.2.events = j.events ++ told.flatten ∧ told.length ≤ lines.length ∧
      (∀ tally, after.1 = .ok tally → told.length = lines.length) ∧ d.TellsLines number lines told := by
  induction lines generalizing number state j with
  | nil => exact ⟨[], (List.append_nil _).symm, Nat.le_refl 0, fun _ _ => rfl, nofun⟩
  | cons line lines ih =>
    rw [run_runLines_cons]
    rcases t.tokenize line state with cause | ⟨tokens, state'⟩
    · exact ⟨[], (List.append_nil _).symm, Nat.zero_le _, nofun, nofun⟩
    · dsimp only
      obtain ⟨block, hblock, hj⟩ := d.tellsOnly_runLine number line tokens (some document) j
      rcases hrun : (d.runLine line tokens number (some document)).run.run j with ⟨halt | ran, j'⟩
      · rw [hrun] at hj
        refine ⟨[block], ?_, by simp, nofun, .cons hblock nofun⟩
        rw [List.flatten_singleton]
        exact hj
      · rw [hrun] at hj
        obtain ⟨told, hevents, hlength, hall, htells⟩ := ih (number + 1) state' j'
        refine ⟨block :: told, ?_, Nat.succ_le_succ hlength, fun tally htally => ?_, .cons hblock htells⟩
        · dsimp only at hj ⊢
          rw [hevents, hj, List.flatten_cons, List.append_assoc]
        · dsimp only at htally
          cases hafter : ((d.runLines t document (number + 1) state' lines).run.run j').1 with
          | error e =>
            rw [hafter] at htally
            cases htally
          | ok tally' => exact congrArg (· + 1) (hall tally' hafter)

/-- No filter is bypassed while a document is run. What is told of it stands in blocks, one for each line that is
dispatched, in order. Every event in a block is one of its line and passes the filter for its kind, and the text of the
line passes the filter for lines; a structure stands only after actions of the same line. A line that passes stands
first in its block. A tracer without filters tells nothing. -/
theorem runDocument_tells (d : Dispatcher ε) (t : Tokenizer τ) (document : Document) (j : Journal ε) :
    let after := (d.runDocument t document).run.run j
    (d.tracer.isEnabled = false → after.2.events = j.events) ∧
    ∃ told : List (List TraceEvent), after.2.events = j.events ++ told.flatten ∧
      told.length ≤ document.lines.length ∧ (∀ tally, after.1 = .ok tally → told.length = document.lines.length) ∧
      ∀ i events, told[i]? = some events →
        ∃ line, document.lines[i]? = some line ∧ d.tracer.TellsLine i line events := by
  intro after
  obtain ⟨told, hevents, hlength, hall, htells⟩ := d.tellsLines_runLines t document 0 t.start document.lines j
  simp only [TellsLines, Nat.zero_add] at htells
  refine ⟨fun hdisabled => ?_, told, hevents, hlength, hall, htells⟩
  have hnone : told.flatten = [] := by
    rw [List.flatten_eq_nil_iff]
    intro events hmem
    obtain ⟨i, hi⟩ := List.getElem?_of_mem hmem
    obtain ⟨line, -, hline⟩ := htells i events hi
    exact hline.eq_nil hdisabled
  rw [hnone, List.append_nil] at hevents
  exact hevents

end Dispatcher

end ScopeActions
