import ScopeActions.Grammar.Prune
import ScopeActions.Proofs.Grammar.Rule
/-!
# Walks as inquiries

A walk through one grammar acts on the rest of the set in two ways only: it asks for verdicts and it
reports includes. An `Inquiry` is such a walk with both left open. `pruneRules_inquired` says that every
walk performs its inquiry, so what a walk does is read off the inquiry: `value` and `asked` are its
result and its questions when all verdicts are known beforehand.
-/

namespace ScopeActions

/-- A computation that asks for verdicts on grammars and reports includes. -/
inductive Inquiry (α : Type) where
  | done (a : α)
  /-- Goes on by the verdict on a grammar. -/
  | ask (scope : String) (next : Bool → Inquiry α)
  | report (d : Diagnostic) (next : Inquiry α)

namespace Inquiry

variable {α β : Type} {m : Type → Type} [Monad m]

/-- Goes on with the result of an inquiry. -/
def andThen : Inquiry α → (α → Inquiry β) → Inquiry β
  | done a, f => f a
  | ask s k, f => ask s fun b => (k b).andThen f
  | report d x, f => report d (x.andThen f)

instance : Monad Inquiry where
  pure := done
  bind := andThen

instance : LawfulMonad Inquiry := by
  refine LawfulMonad.mk' _ (fun x => ?_) (fun _ _ => rfl) (fun x f g => ?_)
  · induction x with
    | done a => rfl
    | ask s k ih => exact congrArg (ask s) (funext ih)
    | report d x ih => exact congrArg (report d) ih
  · induction x with
    | done a => rfl
    | ask s k ih => exact congrArg (ask s) (funext ih)
    | report d x ih => exact congrArg (report d) ih

/-- Carries an inquiry out. -/
def perform (decide : String → m Bool) (diagnose : Diagnostic → m Unit) : Inquiry α → m α
  | done a => pure a
  | ask s k => do (k (← decide s)).perform decide diagnose
  | report d x => do
    diagnose d
    x.perform decide diagnose

/-- The result when `o` gives the verdicts. -/
def value (o : String → Bool) : Inquiry α → α
  | done a => a
  | ask s k => (k (o s)).value o
  | report _ x => x.value o

/-- The grammars asked about, in order, when `o` gives the verdicts. -/
def asked (o : String → Bool) : Inquiry α → List String
  | done _ => []
  | ask s k => s :: (k (o s)).asked o
  | report _ x => x.asked o

section Bind
variable (o : String → Bool)

@[simp] theorem value_pure (a : α) : (pure a : Inquiry α).value o = a := rfl

@[simp] theorem asked_pure (a : α) : (pure a : Inquiry α).asked o = [] := rfl

@[simp] theorem value_bind (x : Inquiry α) (f : α → Inquiry β) : (x >>= f).value o = (f (x.value o)).value o := by
  induction x with
  | done a => rfl
  | ask s k ih => exact ih (o s)
  | report d x ih => exact ih

@[simp] theorem asked_bind (x : Inquiry α) (f : α → Inquiry β) :
    (x >>= f).asked o = x.asked o ++ (f (x.value o)).asked o := by
  induction x with
  | done a => rfl
  | ask s k ih => exact congrArg (s :: ·) (ih (o s))
  | report d x ih => exact ih

@[simp] theorem value_orM (x y : Inquiry Bool) : (x <||> y).value o = (x.value o || y.value o) := by
  rw [orM, value_bind]
  cases x.value o <;> rfl

@[simp] theorem asked_orM (x y : Inquiry Bool) :
    (x <||> y).asked o = x.asked o ++ if x.value o = true then [] else y.asked o := by
  rw [orM, asked_bind]
  cases x.value o <;> rfl

end Bind

section Perform
variable (decide : String → m Bool) (diagnose : Diagnostic → m Unit)

@[simp] theorem perform_pure (a : α) : (pure a : Inquiry α).perform decide diagnose = pure a := rfl

variable [LawfulMonad m]

@[simp] theorem perform_ask (s : String) : (ask s done).perform decide diagnose = decide s := bind_pure (decide s)

@[simp] theorem perform_report (d : Diagnostic) : (report d (done ())).perform decide diagnose = diagnose d :=
  bind_pure (diagnose d)

@[simp] theorem perform_bind (x : Inquiry α) (f : α → Inquiry β) :
    (x >>= f).perform decide diagnose = x.perform decide diagnose >>= fun a => (f a).perform decide diagnose := by
  induction x with
  | done a =>
    rw [perform, pure_bind]
    rfl
  | ask s k ih =>
    rw [perform, bind_assoc]
    exact bind_congr ih
  | report d x ih =>
    rw [perform, bind_assoc]
    exact bind_congr fun _ => ih

@[simp] theorem perform_orM (x y : Inquiry Bool) :
    (x <||> y).perform decide diagnose = (x.perform decide diagnose <||> y.perform decide diagnose) := by
  rw [orM, orM, perform_bind]
  refine bind_congr fun b => ?_
  cases b <;> rfl

end Perform

end Inquiry

/-! ## Every walk performs its inquiry -/

/-- The surroundings of a walk that asks for verdicts instead of finding them. -/
def Inquiry.surroundings (keep : ScopeSet) (loaded : List String) : Surroundings Inquiry :=
  { keep, loaded, decide := fun scope => .ask scope .done }

/-- The same surroundings, asked by inquiry. -/
def Surroundings.inquired {m : Type → Type} (s : Surroundings m) : Surroundings Inquiry :=
  Inquiry.surroundings s.keep s.loaded

/-- The same walk, asking for verdicts and reporting by inquiry. -/
def PruneContext.inquired {m : Type → Type} (c : PruneContext m) : PruneContext Inquiry :=
  { surroundings := c.surroundings.inquired, grammar := c.grammar, entries := c.entries, live := c.live,
    diagnose := fun d => .report d (.done ()) }

section Walks
variable {m : Type → Type} [Monad m]

theorem orM_eq (x y : m Bool) : (x <||> y) = x >>= fun b => if b = true then pure true else y := by
  refine congrArg (x >>= ·) (funext fun b => ?_)
  cases b <;> rfl

variable [LawfulMonad m]

theorem pure_false_orM (x : m Bool) : (pure false <||> x) = x := by
  rw [orM_eq, pure_bind]
  rfl

theorem orM_assoc (x y z : m Bool) : ((x <||> y) <||> z) = (x <||> y <||> z) := by
  simp only [orM_eq, bind_assoc]
  refine bind_congr fun b => ?_
  cases b <;> simp

namespace Rule

omit [LawfulMonad m] in
theorem liveNamed_eq (s : Surroundings m) (known : List String) (es : List (String × Rule)) :
    liveNamed s known es = liveList s known (es.map (·.2)) := by
  induction es with
  | nil => rfl
  | cons e es ih => rw [liveNamed, ih]; rfl

theorem liveList_append (s : Surroundings m) (known : List String) (rs rs' : List Rule) :
    liveList s known (rs ++ rs') = (liveList s known rs <||> liveList s known rs') := by
  induction rs with
  | nil => exact (pure_false_orM _).symm
  | cons r rs ih => rw [List.cons_append, liveList, ih, liveList, orM_assoc]

/-- What makes a rule live, in the order in which it is looked for. -/
theorem live_eq (s : Surroundings m) (known : List String) (r : Rule) :
    live s known r = (pure (s.keep.containsAny r.labels) <||> liveList s known r.captured
      <||> liveList s known r.patternList <||> inclusionLive s known r.head.inclusion) := by
  cases r with
  | mk head patterns repository captures begins ends =>
    rw [live.eq_def]
    cases captures <;> cases begins <;> cases ends <;> cases patterns <;>
      simp [liveNamed_eq, liveList_append, liveList, orM_assoc, pure_false_orM, captured, patternList, labels, Rule.head,
        Rule.captures, Rule.patterns, beginCaptures, endCaptures]

/-- Prunes a map that a rule may have. -/
def pruneMap (c : PruneContext m) :
    Option (List (String × Rule)) → StateT PruneWalk m (Bool × Option (List (String × Rule)))
  | none => pure (false, none)
  | some es => do
    let (live, es) ← pruneNamed c es
    pure (live, some es)

/-- Prunes the patterns that a rule may have. -/
def prunePatterns (c : PruneContext m) : Option (List Rule) → StateT PruneWalk m (Bool × Option (List Rule))
  | none => pure (false, none)
  | some rs => do
    let rs' ← pruneList c rs
    modify (·.remove (rs.length - rs'.length))
    pure (!rs'.isEmpty, some rs')

theorem prunePatterns_run (c : PruneContext m) (rs : List Rule) (w : PruneWalk) :
    (prunePatterns c (some rs)).run w =
      (pruneList c rs).run w >>= fun p =>
        pure ((!p.1.isEmpty, some p.1), p.2.remove (rs.length - p.1.length)) := by
  simp only [prunePatterns, StateT.run_bind, StateT.run_modify, pure_bind]
  rfl

theorem prune_mk (c : PruneContext m) (head : RuleHead) (patterns : Option (List Rule))
    (repository captures begins ends : Option (List (String × Rule))) :
    prune c (.mk head patterns repository captures begins ends) = (do
      let (live₁, captures) ← pruneMap c captures
      let (live₂, begins) ← pruneMap c begins
      let (live₃, ends) ← pruneMap c ends
      let (live₄, patterns) ← prunePatterns c patterns
      let live₅ ← keepInclusion c head.inclusion
      let labelled := c.surroundings.keep.containsAny (head.name.toList ++ head.contentName.toList)
      return (labelled || live₁ || live₂ || live₃ || live₄ || live₅,
        .mk head patterns repository captures begins ends)) := by
  rw [prune.eq_def]
  cases captures <;> cases begins <;> cases ends <;> cases patterns <;>
    simp only [pruneMap, prunePatterns, pure_bind, bind_assoc]

/-! ### Inquiring -/

section Inquired
variable (s : Surroundings m) (known : List String) (diagnose : Diagnostic → m Unit)

theorem inclusionLive_inquired (o : Option String) :
    (inclusionLive s.inquired known o).perform s.decide diagnose = inclusionLive s known o := by
  cases o with
  | none => rfl
  | some i =>
    rw [inclusionLive, inclusionLive]
    cases Inclusion.parse i with
    | reserved => rfl
    | entry n => rfl
    | grammar t =>
      change (if s.loaded.contains t then Inquiry.ask t .done else pure (s.keep.contains t) : Inquiry Bool).perform _ _ =
        if s.loaded.contains t then s.decide t else pure (s.keep.contains t)
      split
      · exact Inquiry.perform_ask _ _ t
      · rfl

theorem liveList_inquired_of {rs : List Rule}
    (h : ∀ r ∈ rs, (live s.inquired known r).perform s.decide diagnose = live s known r) :
    (liveList s.inquired known rs).perform s.decide diagnose = liveList s known rs := by
  induction rs with
  | nil => rfl
  | cons r rs ih =>
    rw [liveList, liveList, Inquiry.perform_orM, h r List.mem_cons_self,
      ih fun x hx => h x (List.mem_cons_of_mem r hx)]

theorem live_inquired (r : Rule) : (live s.inquired known r).perform s.decide diagnose = live s known r := by
  induction r with
  | node r ih =>
    rw [live_eq, live_eq s, Inquiry.perform_orM, Inquiry.perform_orM, Inquiry.perform_orM, Inquiry.perform_pure,
      inclusionLive_inquired, liveList_inquired_of s known diagnose fun c hc => ih c (mem_children.2 (.inl hc)),
      liveList_inquired_of s known diagnose fun c hc => ih c (mem_children.2 (.inr hc))]
    rfl

end Inquired

/-! ### Pruning -/

theorem reject_run (c : PruneContext m) (kind : DiagnosticKind) (i : String) (w : PruneWalk) :
    (reject c kind i).run w = c.diagnose ⟨kind, c.grammar, i⟩ >>= fun _ => pure (false, w) := by
  simp [reject]

/-- What is decided about an include, by what it refers to. -/
theorem keepInclusion_run (c : PruneContext m) (i : String) (w : PruneWalk) :
    (keepInclusion c (some i)).run w =
      match Inclusion.parse i with
      | .reserved => c.diagnose ⟨.reservedInclude, c.grammar, i⟩ >>= fun _ => pure (false, w)
      | .entry n =>
        if !c.entries.contains n then c.diagnose ⟨.missingEntry, c.grammar, i⟩ >>= fun _ => pure (false, w)
        else if !c.live.contains n then pure (false, w)
        else pure (true, w.mark n)
      | .grammar t =>
        if c.surroundings.loaded.contains t then c.surroundings.decide t >>= fun b => pure (b, w)
        else if c.surroundings.keep.contains t then pure (true, w)
        else c.diagnose ⟨.unknownGrammar, c.grammar, i⟩ >>= fun _ => pure (false, w) := by
  rw [keepInclusion]
  cases Inclusion.parse i with
  | reserved => exact reject_run c _ i w
  | entry n =>
    dsimp only
    split
    · exact reject_run c _ i w
    · split <;> simp
  | grammar t =>
    dsimp only
    split
    · simp
    · split
      · rfl
      · exact reject_run c _ i w

section Inquired
variable (c : PruneContext m)

theorem keepInclusion_inquired (o : Option String) (w : PruneWalk) :
    ((keepInclusion c.inquired o).run w).perform c.surroundings.decide c.diagnose = (keepInclusion c o).run w := by
  have asks : ∀ t, (c.inquired.surroundings.decide t).perform c.surroundings.decide c.diagnose =
      c.surroundings.decide t := Inquiry.perform_ask _ _
  have reports : ∀ d, (c.inquired.diagnose d).perform c.surroundings.decide c.diagnose = c.diagnose d :=
    Inquiry.perform_report _ _
  cases o with
  | none => rfl
  | some i =>
    rw [keepInclusion_run, keepInclusion_run]
    cases Inclusion.parse i
    -- whatever the include refers to, only the question and the report are carried out
    all_goals
      simp only [apply_ite (Inquiry.perform c.surroundings.decide c.diagnose), Inquiry.perform_bind,
        Inquiry.perform_pure, asks, reports]
      rfl

/-- Pruning the rule performs its inquiry. -/
def Performs (r : Rule) : Prop :=
  ∀ w, ((prune c.inquired r).run w).perform c.surroundings.decide c.diagnose = (prune c r).run w

variable {c}

theorem pruneList_inquired_of {rs : List Rule} (h : ∀ r ∈ rs, Performs c r) (w : PruneWalk) :
    ((pruneList c.inquired rs).run w).perform c.surroundings.decide c.diagnose = (pruneList c rs).run w := by
  induction rs generalizing w with
  | nil => rfl
  | cons r rs ih =>
    have hrs := ih fun x hx => h x (List.mem_cons_of_mem r hx)
    have hr : Performs c r := h r List.mem_cons_self
    simp only [pruneList, StateT.run_bind, Inquiry.perform_bind, hr w, hrs]
    rfl

theorem pruneNamed_inquired_of {es : List (String × Rule)} (h : ∀ r ∈ es.map (·.2), Performs c r) (w : PruneWalk) :
    ((pruneNamed c.inquired es).run w).perform c.surroundings.decide c.diagnose = (pruneNamed c es).run w := by
  induction es generalizing w with
  | nil => rfl
  | cons e es ih =>
    have hes := ih fun x hx => h x (List.mem_cons_of_mem e.2 hx)
    have he : Performs c e.2 := h e.2 List.mem_cons_self
    simp only [pruneNamed, StateT.run_bind, Inquiry.perform_bind, he w, hes]
    rfl

theorem pruneMap_inquired_of {o : Option (List (String × Rule))} (h : ∀ r ∈ (o.getD []).map (·.2), Performs c r)
    (w : PruneWalk) :
    ((pruneMap c.inquired o).run w).perform c.surroundings.decide c.diagnose = (pruneMap c o).run w := by
  cases o with
  | none => rfl
  | some es =>
    have h : ∀ r ∈ es.map (·.2), Performs c r := h
    rw [pruneMap, StateT.run_bind, Inquiry.perform_bind, pruneNamed_inquired_of h]
    rfl

theorem prunePatterns_inquired_of {o : Option (List Rule)} (h : ∀ r ∈ o.getD [], Performs c r) (w : PruneWalk) :
    ((prunePatterns c.inquired o).run w).perform c.surroundings.decide c.diagnose = (prunePatterns c o).run w := by
  cases o with
  | none => rfl
  | some rs =>
    have h : ∀ r ∈ rs, Performs c r := h
    rw [prunePatterns_run, prunePatterns_run, Inquiry.perform_bind, pruneList_inquired_of h]
    rfl

theorem prune_inquired (r : Rule) : Performs c r := by
  induction r with
  | node r ih =>
    cases r with
    | mk head patterns repository captures begins ends =>
      intro w
      have hp := prunePatterns_inquired_of (o := patterns) fun r hr => ih r (mem_children.2 (.inr hr))
      have hm : ∀ o ∈ [captures, begins, ends], ∀ r ∈ (o.getD []).map (·.2), Performs c r := by
        intro o ho r hr
        exact ih r (mem_children.2 (.inl (mem_captured_mk ho hr)))
      simp only [prune_mk, StateT.run_bind, Inquiry.perform_bind, pruneMap_inquired_of (hm captures (by simp)),
        pruneMap_inquired_of (hm begins (by simp)), pruneMap_inquired_of (hm ends (by simp)), hp,
        keepInclusion_inquired]
      rfl

end Inquired

end Rule

namespace PruneWalk

/-- One step of draining. -/
theorem drain_run (c : PruneContext m) (n : Nat) (entries : List (String × Rule)) (w : PruneWalk) :
    (drain c (n + 1) entries).run w =
      match w.pending with
      | [] => pure (entries, w)
      | name :: pending =>
        match Assoc.get? entries name with
        | none => (drain c n entries).run { w with pending }
        | some rule => (rule.prune c).run { w with pending } >>= fun p =>
          (drain c n (Assoc.put entries name p.1.2)).run p.2 := by
  rw [drain, StateT.run_bind, StateT.run_get, pure_bind]
  dsimp only
  cases w.pending with
  | nil => rfl
  | cons name pending =>
    dsimp only
    rw [StateT.run_bind, StateT.run_modify, pure_bind]
    cases Assoc.get? entries name with
    | none => rfl
    | some rule => rfl

theorem drain_inquired (c : PruneContext m) (n : Nat) (entries : List (String × Rule)) (w : PruneWalk) :
    ((drain c.inquired n entries).run w).perform c.surroundings.decide c.diagnose = (drain c n entries).run w := by
  induction n generalizing entries w with
  | zero => rfl
  | succ n ih =>
    rw [drain_run, drain_run]
    cases w.pending with
    | nil => rfl
    | cons name pending =>
      dsimp only
      cases Assoc.get? entries name with
      | none => exact ih entries _
      | some rule =>
        dsimp only
        rw [Inquiry.perform_bind, Rule.prune_inquired rule _]
        exact bind_congr fun p => ih _ _

end PruneWalk

namespace Liveness
variable (s : Surroundings m) (diagnose : Diagnostic → m Unit) (entries : List (String × Rule))

theorem round_inquired (names known : List String) :
    (round s.inquired entries known names).perform s.decide diagnose = round s entries known names := by
  induction names generalizing known with
  | nil => rfl
  | cons name names ih =>
    rw [round, round]
    split
    · exact ih known
    · cases Assoc.get? entries name with
      | none => exact ih known
      | some rule =>
        dsimp only
        rw [Inquiry.perform_bind, Rule.live_inquired]
        refine bind_congr fun b => ?_
        cases b <;> exact ih _

theorem rounds_inquired (names : List String) (n : Nat) (known : List String) :
    (rounds s.inquired entries names n known).perform s.decide diagnose = rounds s entries names n known := by
  induction n generalizing known with
  | zero => rfl
  | succ n ih =>
    rw [rounds, rounds, Inquiry.perform_bind, round_inquired]
    refine bind_congr fun known' => ?_
    split
    · rfl
    · exact ih known'

end Liveness

namespace Grammar

/-- What the walk through the rules of the grammar goes by when these entries are live. -/
def context (s : Surroundings m) (diagnose : Diagnostic → m Unit) (g : Grammar) (live : List String) : PruneContext m :=
  { surroundings := s, grammar := g.scopeName, entries := Assoc.keys g.entries, live, diagnose }

/-- The grammar with what a walk leaves of its patterns and entries, and what the walk removed. -/
def leave (g : Grammar) (patterns : List Rule) (entries : List (String × Rule)) (w : PruneWalk) : PrunedGrammar :=
  match g.root with
  | .mk head _ repository captures begins ends =>
    let left := entries.filter fun e => w.marked.contains e.1
    { grammar := { g with root := .mk head (some patterns) (repository.map fun _ => left) captures begins ends }
      patternsLeft := !patterns.isEmpty
      removedPatterns := w.removed + (g.patterns.length - patterns.length)
      removedEntries := g.entries.length - left.length }

omit [LawfulMonad m] in
theorem pruneRules_none (s : Surroundings m) (diagnose : Diagnostic → m Unit) {g : Grammar}
    (h : g.root.patterns = none) : g.pruneRules s diagnose = pure { grammar := g, patternsLeft := false } := by
  rcases g with ⟨_, _, _, _, _ | _, _, _, _, _⟩
  · rfl
  · cases h

/-- The walk through a grammar, step by step. -/
theorem pruneRules_some (s : Surroundings m) (diagnose : Diagnostic → m Unit) {g : Grammar}
    (h : g.root.patterns.isSome) :
    g.pruneRules s diagnose = (do
      let live ← Liveness.liveEntries s g.entries (Liveness.reachable g.patterns g.entries)
      let (patterns, w) ← (Rule.pruneList (g.context s diagnose live) g.patterns).run {}
      let (entries, w) ← (PruneWalk.drain (g.context s diagnose live) g.entries.length g.entries).run w
      pure (g.leave patterns entries w)) := by
  rcases g with ⟨_, _, _, _, _ | _, _, _, _, _⟩
  · cases h
  · simp only [pruneRules, StateT.run_bind, StateT.run_pure, bind_assoc, pure_bind]
    rfl

/-- The inquiry of the walk through the grammar, in a set with these scopes. -/
def inquiry (keep : ScopeSet) (loaded : List String) (g : Grammar) : Inquiry PrunedGrammar :=
  g.pruneRules (Inquiry.surroundings keep loaded) fun d => .report d (.done ())

/-- Pruning the rules of a grammar performs the inquiry of the grammar. -/
theorem pruneRules_inquired (s : Surroundings m) (diagnose : Diagnostic → m Unit) (g : Grammar) :
    g.pruneRules s diagnose = (g.inquiry s.keep s.loaded).perform s.decide diagnose := by
  cases h : g.root.patterns with
  | none => rw [inquiry, pruneRules_none s diagnose h, pruneRules_none _ _ h, Inquiry.perform_pure]
  | some ps =>
    have h : g.root.patterns.isSome := by rw [h]; rfl
    rw [inquiry, pruneRules_some s diagnose h, pruneRules_some _ _ h, Inquiry.perform_bind]
    refine (bind_congr fun live => ?_).trans (congrArg (· >>= _) (Liveness.rounds_inquired s diagnose _ _ _ _).symm)
    rw [Inquiry.perform_bind]
    refine (bind_congr fun p => ?_).trans (congrArg (· >>= _)
      (Rule.pruneList_inquired_of (c := g.context s diagnose live) (fun r _ => Rule.prune_inquired r) _).symm)
    rw [Inquiry.perform_bind]
    exact (congrArg (· >>= _) (PruneWalk.drain_inquired (g.context s diagnose live) _ _ _).symm)

end Grammar
end Walks

end ScopeActions
