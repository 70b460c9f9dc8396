import ScopeActions.Proofs.Grammar.Leave
/-!
# Walks that give account

A walk throws most of its verdicts away. Here it writes them down: those on the rules that it decides, those on the entries
that it drains, and those that it is given in answer. Otherwise it is the walk that it was (`Grammar.fst_audited`). What it
writes is `Grammar.account`, where the verdicts on other grammars are given (`Grammar.value_audited`).
-/

namespace ScopeActions

/-! ## Answers written down -/

namespace Inquiry
variable {α β : Type}

/-- The inquiry, with the answers to its questions in their order. -/
def recorded : Inquiry α → Inquiry (α × List (String × Bool))
  | done a => done (a, [])
  | ask s k => ask s fun b => (k b).recorded >>= fun p => done (p.1, (s, b) :: p.2)
  | report d x => report d x.recorded

theorem fst_recorded (x : Inquiry α) : Prod.fst <$> x.recorded = x := by
  induction x with
  | done a => rfl
  | ask s k ih =>
    refine congrArg (ask s) (funext fun b => Eq.trans ?_ (ih b))
    exact bind_assoc (k b).recorded _ _
  | report d x ih => exact congrArg (report d) ih

/-- When `o` gives the verdicts, they are what is written down. -/
theorem value_recorded (o : String → Bool) (x : Inquiry α) :
    x.recorded.value o = (x.value o, (x.asked o).map fun s => (s, o s)) := by
  induction x with
  | done a => rfl
  | ask s k ih =>
    rw [recorded, value, value_bind, ih (o s)]
    rfl
  | report d x ih => exact ih

theorem value_map (o : String → Bool) (f : α → β) (x : Inquiry α) : (f <$> x).value o = f (x.value o) := by
  rw [← bind_pure_comp, value_bind, value_pure]

theorem asked_map (o : String → Bool) (f : α → β) (x : Inquiry α) : (f <$> x).asked o = x.asked o := by
  rw [← bind_pure_comp, asked_bind, asked_pure, List.append_nil]

theorem perform_map {m : Type → Type} [Monad m] [LawfulMonad m] (decide : String → m Bool)
    (diagnose : Diagnostic → m Unit) (f : α → β) (x : Inquiry α) : (f <$> x).perform decide diagnose = f <$> x.perform decide diagnose := by
  rw [← bind_pure_comp, ← bind_pure_comp, perform_bind]
  rfl

end Inquiry

/-! ## Verdicts on rules written down -/

section Audits
variable {m : Type → Type} [Monad m]

namespace Rule

mutual

/-- Prunes a rule, and tells the verdicts on it and on the rules beneath it, each on the rule as it was. -/
def audit (c : PruneContext m) : Rule → StateT PruneWalk m ((Bool × Rule) × List (Rule × Bool))
  | .mk head patterns repository captures begins ends => do
    let ((live₁, captures'), told₁) ←
      match captures with
      | none => pure ((false, none), [])
      | some rs => do
        let ((live, rs), told) ← auditNamed c rs
        pure ((live, some rs), told)
    let ((live₂, begins'), told₂) ←
      match begins with
      | none => pure ((false, none), [])
      | some rs => do
        let ((live, rs), told) ← auditNamed c rs
        pure ((live, some rs), told)
    let ((live₃, ends'), told₃) ←
      match ends with
      | none => pure ((false, none), [])
      | some rs => do
        let ((live, rs), told) ← auditNamed c rs
        pure ((live, some rs), told)
    let ((live₄, patterns'), told₄) ←
      match patterns with
      | none => pure ((false, none), [])
      | some rs => do
        let (rs', told) ← auditList c rs
        modify (·.remove (rs.length - rs'.length))
        pure ((!rs'.isEmpty, some rs'), told)
    let live₅ ← keepInclusion c head.inclusion
    let labelled := c.surroundings.keep.containsAny (head.name.toList ++ head.contentName.toList)
    let verdict := labelled || live₁ || live₂ || live₃ || live₄ || live₅
    return ((verdict, .mk head patterns' repository captures' begins' ends'),
      told₁ ++ told₂ ++ told₃ ++ told₄ ++ [(.mk head patterns repository captures begins ends, verdict)])

/-- Prunes the rules of a list and leaves the live ones. -/
def auditList (c : PruneContext m) : List Rule → StateT PruneWalk m (List Rule × List (Rule × Bool))
  | [] => pure ([], [])
  | r :: rs => do
    let ((live, r), told) ← audit c r
    let (rs, told') ← auditList c rs
    return (if live then r :: rs else rs, told ++ told')

/-- Prunes the rules of a map. -/
def auditNamed (c : PruneContext m) :
    List (String × Rule) → StateT PruneWalk m ((Bool × List (String × Rule)) × List (Rule × Bool))
  | [] => pure ((false, []), [])
  | (key, r) :: rs => do
    let ((live, r), told) ← audit c r
    let ((live', rs), told') ← auditNamed c rs
    return ((live || live', (key, r) :: rs), told ++ told')

end

/-- Prunes a map that a rule may have. -/
def auditMap (c : PruneContext m) :
    Option (List (String × Rule)) → StateT PruneWalk m ((Bool × Option (List (String × Rule))) × List (Rule × Bool))
  | none => pure ((false, none), [])
  | some es => do
    let ((live, es), told) ← auditNamed c es
    pure ((live, some es), told)

/-- Prunes the patterns that a rule may have. -/
def auditPatterns (c : PruneContext m) :
    Option (List Rule) → StateT PruneWalk m ((Bool × Option (List Rule)) × List (Rule × Bool))
  | none => pure ((false, none), [])
  | some rs => do
    let (rs', told) ← auditList c rs
    modify (·.remove (rs.length - rs'.length))
    pure ((!rs'.isEmpty, some rs'), told)

variable [LawfulMonad m] {c : PruneContext m}

theorem audit_mk (c : PruneContext m) (head : RuleHead) (patterns : Option (List Rule))
    (repository captures begins ends : Option (List (String × Rule))) :
    audit c (.mk head patterns repository captures begins ends) = (do
      let ((live₁, captures'), told₁) ← auditMap c captures
      let ((live₂, begins'), told₂) ← auditMap c begins
      let ((live₃, ends'), told₃) ← auditMap c ends
      let ((live₄, patterns'), told₄) ← auditPatterns c patterns
      let live₅ ← keepInclusion c head.inclusion
      let labelled := c.surroundings.keep.containsAny (head.name.toList ++ head.contentName.toList)
      let verdict := labelled || live₁ || live₂ || live₃ || live₄ || live₅
      return ((verdict, .mk head patterns' repository captures' begins' ends'),
        told₁ ++ told₂ ++ told₃ ++ told₄ ++ [(.mk head patterns repository captures begins ends, verdict)])) := by
  rw [audit.eq_def]
  cases captures <;> cases begins <;> cases ends <;> cases patterns <;>
    simp only [auditMap, auditPatterns, pure_bind, bind_assoc]

/-! ### The walk is the same -/

theorem fst_auditList_of {rs : List Rule} (h : ∀ r ∈ rs, Prod.fst <$> audit c r = prune c r) :
    Prod.fst <$> auditList c rs = pruneList c rs := by
  induction rs with
  | nil => simp [auditList, pruneList]
  | cons r rs ih =>
    rw [auditList, pruneList, ← h r List.mem_cons_self, ← ih fun x hx => h x (List.mem_cons_of_mem r hx)]
    simp only [map_bind, map_pure, bind_map_left]

theorem fst_auditMap_of {o : Option (List (String × Rule))}
    (h : ∀ r ∈ (o.getD []).map (·.2), Prod.fst <$> audit c r = prune c r) : Prod.fst <$> auditMap c o = pruneMap c o := by
  have named : ∀ es : List (String × Rule), (∀ r ∈ es.map (·.2), Prod.fst <$> audit c r = prune c r) →
      Prod.fst <$> auditNamed c es = pruneNamed c es := by
    intro es hes
    induction es with
    | nil => simp [auditNamed, pruneNamed]
    | cons e es ih =>
      rw [auditNamed, pruneNamed, ← hes e.2 List.mem_cons_self, ← ih fun x hx => hes x (List.mem_cons_of_mem e.2 hx)]
      simp only [map_bind, map_pure, bind_map_left]
  cases o with
  | none => simp [auditMap, pruneMap]
  | some es =>
    rw [auditMap, pruneMap, ← named es h]
    simp only [map_bind, map_pure, bind_map_left]

theorem fst_auditPatterns_of {o : Option (List Rule)} (h : ∀ r ∈ o.getD [], Prod.fst <$> audit c r = prune c r) :
    Prod.fst <$> auditPatterns c o = prunePatterns c o := by
  cases o with
  | none => simp [auditPatterns, prunePatterns]
  | some rs =>
    have h : ∀ r ∈ rs, Prod.fst <$> audit c r = prune c r := h
    rw [auditPatterns, prunePatterns, ← fst_auditList_of h]
    simp only [map_bind, map_pure, bind_map_left]

theorem fst_audit (r : Rule) : Prod.fst <$> audit c r = prune c r := by
  induction r with
  | node r ih =>
    cases r with
    | mk head patterns repository captures begins ends =>
      have hp : Prod.fst <$> auditPatterns c patterns = prunePatterns c patterns :=
        fst_auditPatterns_of fun r hr => ih r (mem_children.2 (.inr hr))
      have hm : ∀ o ∈ [captures, begins, ends], Prod.fst <$> auditMap c o = pruneMap c o := fun o ho =>
        fst_auditMap_of fun r hr => ih r (mem_children.2 (.inl (mem_captured_mk ho hr)))
      rw [audit_mk, prune_mk, ← hm captures (by simp), ← hm begins (by simp), ← hm ends (by simp), ← hp]
      simp only [map_bind, map_pure, bind_map_left]

end Rule

namespace PruneWalk

/-- Prunes the entries that are pending, and those that become so, and tells the verdicts on the rules of these and on the
entries taken. -/
def auditDrain (c : PruneContext m) :
    Nat → List (String × Rule) → StateT PruneWalk m (List (String × Rule) × List (Rule × Bool) × List (String × Bool))
  | 0, entries => pure (entries, [], [])
  | n + 1, entries => do
    match (← get).pending with
    | [] => pure (entries, [], [])
    | name :: pending =>
      modify fun w => { w with pending }
      match Assoc.get? entries name with
      | none => auditDrain c n entries
      | some rule =>
        let ((live, rule), told) ← rule.audit c
        let (entries, told', taken) ← auditDrain c n (Assoc.put entries name rule)
        pure (entries, told ++ told', (name, live) :: taken)

/-- One step of it. -/
theorem auditDrain_run [LawfulMonad m] (c : PruneContext m) (n : Nat) (entries : List (String × Rule)) (w : PruneWalk) :
    (auditDrain c (n + 1) entries).run w =
      match w.pending with
      | [] => pure ((entries, [], []), w)
      | name :: pending =>
        match Assoc.get? entries name with
        | none => (auditDrain c n entries).run { w with pending }
        | some rule => (rule.audit c).run { w with pending } >>= fun p =>
          (auditDrain c n (Assoc.put entries name p.1.1.2)).run p.2 >>= fun p' =>
            pure ((p'.1.1, p.1.2 ++ p'.1.2.1, (name, p.1.1.1) :: p'.1.2.2), p'.2) := by
  rw [auditDrain, StateT.run_bind, StateT.run_get, pure_bind]
  dsimp only
  cases w.pending with
  | nil => rfl
  | cons name pending =>
    dsimp only
    rw [StateT.run_bind, StateT.run_modify, pure_bind]
    cases Assoc.get? entries name with
    | none => rfl
    | some rule => rfl

theorem fst_auditDrain [LawfulMonad m] (c : PruneContext m) (n : Nat) (entries : List (String × Rule)) :
    Prod.fst <$> auditDrain c n entries = drain c n entries := by
  induction n generalizing entries with
  | zero => simp [auditDrain, drain]
  | succ n ih =>
    rw [auditDrain, drain, map_bind]
    refine bind_congr fun w => ?_
    cases w.pending with
    | nil => simp
    | cons name pending =>
      dsimp only
      rw [map_bind]
      refine bind_congr fun _ => ?_
      cases Assoc.get? entries name with
      | none => exact ih entries
      | some rule =>
        dsimp only
        rw [← Rule.fst_audit rule]
        simp only [← ih, map_bind, map_pure, bind_map_left]
        simp only [← bind_pure_comp]

end PruneWalk

end Audits

/-- What a walk through a grammar finds on its way. -/
structure Account where
  /-- The entries found live. -/
  live : List String := []
  /-- The rules decided, as they were, with the verdicts on them. -/
  decided : List (Rule × Bool) := []
  /-- The entries taken from those pending, with the verdicts on them. -/
  taken : List (String × Bool) := []
  /-- The entries marked in the end. -/
  marked : List String := []
  /-- The grammars asked about, with the answers. -/
  answers : List (String × Bool) := []

/-- The account with these answers. -/
def Account.answered (a : Account) (answers : List (String × Bool)) : Account :=
  { a with answers }

namespace Grammar

section Audit
variable {m : Type → Type} [Monad m]

/-- Prunes the rules of a grammar and gives account of it, but for the answers. -/
def audit (s : Surroundings m) (diagnose : Diagnostic → m Unit) (g : Grammar) : m (PrunedGrammar × Account) :=
  if g.root.patterns.isSome then do
    let live ← Liveness.liveEntries s g.entries (Liveness.reachable g.patterns g.entries)
    let ((patterns, told), w) ← (Rule.auditList (g.context s diagnose live) g.patterns).run {}
    let ((entries, told', taken), w) ←
      (PruneWalk.auditDrain (g.context s diagnose live) g.entries.length g.entries).run w
    pure (g.leave patterns entries w, { live, decided := told ++ told', taken, marked := w.marked })
  else pure ({ grammar := g, patternsLeft := false }, {})

variable [LawfulMonad m]

theorem fst_audit (s : Surroundings m) (diagnose : Diagnostic → m Unit) (g : Grammar) :
    Prod.fst <$> g.audit s diagnose = g.pruneRules s diagnose := by
  unfold audit
  split
  · next hg =>
    have hlist : ∀ live : List String, Prod.fst <$> Rule.auditList (g.context s diagnose live) g.patterns =
        Rule.pruneList (g.context s diagnose live) g.patterns := fun live =>
      Rule.fst_auditList_of fun r _ => Rule.fst_audit r
    rw [pruneRules_some s diagnose hg]
    simp only [← hlist, ← PruneWalk.fst_auditDrain, StateT.run_map, map_bind, map_pure, bind_map_left]
  · next hg => rw [pruneRules_none s diagnose (by simpa using hg), map_pure]

end Audit

/-- The inquiry of the walk through the grammar, with an account of all that it finds. -/
def audited (keep : ScopeSet) (loaded : List String) (g : Grammar) : Inquiry (PrunedGrammar × Account) :=
  (fun p => (p.1.1, p.1.2.answered p.2)) <$>
    (g.audit (Inquiry.surroundings keep loaded) fun d => .report d (.done ())).recorded

theorem fst_audited (keep : ScopeSet) (loaded : List String) (g : Grammar) :
    Prod.fst <$> g.audited keep loaded = g.inquiry keep loaded := by
  rw [inquiry, ← fst_audit, ← Inquiry.fst_recorded (g.audit _ _), audited]
  simp only [Functor.map_map]

end Grammar

/-! ## What is written down -/

/-- The verdicts on rules, when these are the entries known to be live. -/
def Verdicts.told (V : Verdicts) (live : List String) (rs : List Rule) : List (Rule × Bool) :=
  rs.map fun r => (r, V.sees live r)

theorem Verdicts.told_append (V : Verdicts) (live : List String) (rs rs' : List Rule) :
    V.told live (rs ++ rs') = V.told live rs ++ V.told live rs' := List.map_append

namespace Rule
variable {V : Verdicts} {grammar : String} {entries live : List String}

/-- The verdict on a rule is put together from those on its parts. -/
theorem sees_mk (V : Verdicts) (live : List String) (head : RuleHead) (patterns : Option (List Rule))
    (repository captures begins ends : Option (List (String × Rule))) :
    (V.keep.containsAny (head.name.toList ++ head.contentName.toList) ||
      ((captures.getD []).map (·.2)).any (V.sees live) || ((begins.getD []).map (·.2)).any (V.sees live) ||
      ((ends.getD []).map (·.2)).any (V.sees live) || (patterns.getD []).any (V.sees live) ||
      match head.inclusion.map Inclusion.parse with
      | some (.entry n) => live.contains n
      | some (.grammar t) => V.foreign t
      | _ => false) = V.sees live (.mk head patterns repository captures begins ends) := by
  rw [V.sees_eq, RuleHead.gives, captured, patternList]
  simp only [Rule.head, Rule.captures, beginCaptures, endCaptures, Rule.patterns, List.map_append, List.any_append]
  ac_rfl

/-- Besides what pruning does, the verdicts are told on the rules on the trail. -/
def AuditYields (V : Verdicts) (grammar : String) (entries live : List String) (r : Rule) : Prop :=
  Yields V (audit (V.context grammar entries live) r)
    ((V.sees live r, r.restrict (V.sees live)), V.told live r.trail) (V.effect live r.trail)

theorem auditList_yields_of {rs : List Rule} (h : ∀ r ∈ rs, AuditYields V grammar entries live r) :
    Yields V (auditList (V.context grammar entries live) rs)
      (restrictList (V.sees live) rs, V.told live (rs.flatMap trail)) (V.effect live (rs.flatMap trail)) := by
  induction rs with
  | nil => exact .pure ([], [])
  | cons r rs ih =>
    rw [auditList, List.flatMap_cons, V.effect_append, V.told_append]
    refine (h r List.mem_cons_self).bind ?_
    have := (ih fun x hx => h x (List.mem_cons_of_mem r hx)).bind_pure
      (g := fun p => (if V.sees live r then r.restrict (V.sees live) :: p.1 else p.1, V.told live r.trail ++ p.2))
    rwa [← restrictList] at this

theorem auditMap_yields_of {o : Option (List (String × Rule))}
    (h : ∀ r ∈ (o.getD []).map (·.2), AuditYields V grammar entries live r) :
    Yields V (auditMap (V.context grammar entries live) o)
      ((((o.getD []).map (·.2)).any (V.sees live), o.map (restrictNamed (V.sees live))),
        V.told live (((o.getD []).map (·.2)).flatMap trail))
      (V.effect live (((o.getD []).map (·.2)).flatMap trail)) := by
  have named : ∀ es : List (String × Rule), (∀ r ∈ es.map (·.2), AuditYields V grammar entries live r) →
      Yields V (auditNamed (V.context grammar entries live) es)
        (((es.map (·.2)).any (V.sees live), restrictNamed (V.sees live) es), V.told live ((es.map (·.2)).flatMap trail))
        (V.effect live ((es.map (·.2)).flatMap trail)) := by
    intro es hes
    induction es with
    | nil => exact .pure ((false, []), [])
    | cons e es ih =>
      rw [auditNamed, List.map_cons, List.flatMap_cons, V.effect_append, V.told_append]
      refine (hes e.2 List.mem_cons_self).bind ?_
      exact (ih fun x hx => hes x (List.mem_cons_of_mem e.2 hx)).bind_pure
        (g := fun p => ((V.sees live e.2 || p.1.1, (e.1, e.2.restrict (V.sees live)) :: p.1.2),
          V.told live e.2.trail ++ p.2))
  cases o with
  | none => exact .pure ((false, none), [])
  | some es => exact (named es h).bind_pure (g := fun p => ((p.1.1, some p.1.2), p.2))

theorem auditPatterns_yields_of {o : Option (List Rule)} (h : ∀ r ∈ o.getD [], AuditYields V grammar entries live r) :
    Yields V (auditPatterns (V.context grammar entries live) o)
      (((o.getD []).any (V.sees live), o.map (restrictList (V.sees live))), V.told live ((o.getD []).flatMap trail))
      ((V.effect live ((o.getD []).flatMap trail)).seq
        { removed := (o.getD []).length - ((o.getD []).filter (V.sees live)).length }) := by
  cases o with
  | none => exact .pure ((false, none), [])
  | some rs =>
    refine (auditList_yields_of h).bind ?_
    rw [Option.getD_some, ← length_restrictList, ← not_isEmpty_restrictList]
    exact (Yields.remove _).bind_pure (g := fun _ => ((!(restrictList (V.sees live) rs).isEmpty,
      some (restrictList (V.sees live) rs)), V.told live (rs.flatMap trail)))

variable (V grammar) in
theorem audit_yields (hl : ∀ n ∈ live, n ∈ entries) (r : Rule) : AuditYields V grammar entries live r := by
  induction r with
  | node r ih =>
    cases r with
    | mk head patterns repository captures begins ends =>
      have hp := auditPatterns_yields_of (o := patterns) fun r hr => ih r (mem_children.2 (.inr hr))
      have hm : ∀ o ∈ [captures, begins, ends], ∀ r ∈ (o.getD []).map (·.2), AuditYields V grammar entries live r := by
        intro o ho r hr
        exact ih r (mem_children.2 (.inl (mem_captured_mk ho hr)))
      have hi := keepInclusion_yields V grammar hl (.mk head patterns repository captures begins ends)
      rw [AuditYields, audit_mk]
      refine Yields.congr ((auditMap_yields_of (hm captures (by simp))).bind ((auditMap_yields_of (hm begins (by simp))).bind
        ((auditMap_yields_of (hm ends (by simp))).bind (hp.bind hi.bind_pure)))) ?_ ?_
      · rw [restrict_mk, trail_eq, V.told_append, children, captured, patternList]
        simp only [Rule.captures, beginCaptures, endCaptures, Rule.patterns, List.map_append, List.flatMap_append,
          V.told_append]
        -- the verdict is given back and written down
        exact congrArg (fun b => ((b, _), _ ++ [(_, b)])) (sees_mk V live head patterns repository captures begins ends)
      · rw [trail_eq, children, captured, patternList, V.effect_append, V.effect_one]
        simp only [Rule.captures, beginCaptures, endCaptures, Rule.patterns, List.map_append, List.flatMap_append,
          V.effect_append, Effect.seq_assoc]
        simp [Effect.seq, cut, patternList, Rule.patterns]

end Rule

namespace PruneWalk
variable {V : Verdicts} {live drained : List String} {entries : List (String × Rule)} {w : PruneWalk}

variable (V) in
/-- Each entry taken is live, and seen to be so when it is decided. -/
theorem auditDrain_spec (grammar : String) (hk : (Assoc.keys entries).Nodup) (hl : ∀ n ∈ live, n ∈ Assoc.keys entries)
    (hs : ∀ n ∈ live, ∀ e, Assoc.get? entries n = some e → V.sees live e = true) (n : Nat)
    (h : Draining live drained w) :
    let rest := flush V live entries n w
    ((auditDrain (V.context grammar (Assoc.keys entries) live) n
      (restrictAt (V.sees live) drained entries)).run w).value V.on =
        ((restrictAt (V.sees live) (drained ++ rest.1) entries, V.told live (rest.1.flatMap (entryTrail entries)),
          rest.1.map fun n => (n, true)), rest.2) := by
  induction n generalizing drained w with
  | zero => simp [auditDrain, flush, Verdicts.told]
  | succ n ih =>
    dsimp only
    rw [auditDrain_run, flush]
    cases hp : w.pending with
    | nil => simp [Verdicts.told]
    | cons name pending =>
      have hname : name ∈ live := h.live name (h.perm.mem_iff.2 (by simp [hp]))
      obtain ⟨e, he⟩ := Assoc.exists_of_mem_keys (hl name hname)
      -- an entry is taken once, so it is decided as it was
      have he' : Assoc.get? (restrictAt (V.sees live) drained entries) name = some e := by
        rw [get?_restrictAt, he, Option.map_some, if_neg (h.not_mem hp)]
      have htrail : entryTrail entries name = e.trail := by simp [entryTrail, he]
      obtain ⟨hv, -⟩ := Rule.audit_yields V grammar hl e { w with pending }
      have hrest := ih ((h.pop hp).after (e := V.effect live e.trail) fun k hk => mem_live_of_mem_marks hk)
      dsimp only
      rw [he']
      dsimp only
      rw [Inquiry.value_bind, Inquiry.value_bind, hv, put_restrictAt hk he, htrail, hrest, Inquiry.value_pure,
        hs name hname e he]
      simp [htrail, V.told_append]

end PruneWalk

namespace Grammar

/-- The account of a walk, where the verdicts on other grammars are given. -/
def account (V : Verdicts) (g : Grammar) : Account where
  live := g.liveNames V
  decided := V.told (g.liveNames V)
    (g.patterns.flatMap Rule.trail ++ (g.drained V).1.flatMap (PruneWalk.entryTrail g.entries))
  taken := (g.drained V).1.map fun n => (n, true)
  marked := (g.drained V).2.marked
  answers := ((g.inquiry V.keep V.loaded).asked V.on).map fun s => (s, V.on s)

variable {V : Verdicts} {g : Grammar}

theorem sees_of_mem_liveNames {n : String} {e : Rule} (hn : n ∈ g.liveNames V) (he : Assoc.get? g.entries n = some e) :
    V.sees (g.liveNames V) e = true := by
  obtain ⟨hleads, hlive⟩ := leads_of_mem_liveNames hn he
  exact (sees_iff_liveIn hleads).2 hlive

/-- Without root patterns nothing is found. -/
theorem account_of_patterns (hg : g.patterns = []) :
    g.account V = { answers := (g.account V).answers } := by
  have hlive : g.liveNames V = [] := by
    rw [liveNames, hg]
    cases g.entries <;> rfl
  have hdrained : g.drained V = ([], {}) := by
    rw [drained, hlive, hg]
    cases g.entries <;> rfl
  simp only [account, hlive, hdrained, hg, Verdicts.told, List.flatMap_nil, List.append_nil, List.map_nil]

theorem value_audit (hk : (Assoc.keys g.entries).Nodup) :
    ((g.audit V.inquired fun d => .report d (.done ())).value V.on).2.answered (g.account V).answers = g.account V := by
  unfold audit
  split
  · next hg =>
    have hyields : ∀ r ∈ g.patterns, Rule.AuditYields V g.scopeName (Assoc.keys g.entries) (g.liveNames V) r := fun r _ =>
      Rule.audit_yields V g.scopeName mem_keys_of_mem_liveNames r
    obtain ⟨hp, -⟩ := Rule.auditList_yields_of hyields {}
    have hd := PruneWalk.auditDrain_spec V g.scopeName hk mem_keys_of_mem_liveNames
      (fun n hn e he => sees_of_mem_liveNames hn he) g.entries.length draining_start
    have hstart : restrictAt (V.sees (g.liveNames V)) [] g.entries = g.entries := by simp [restrictAt]
    have hcontext : g.context V.inquired (fun d => .report d (.done ())) (g.liveNames V) =
      V.context g.scopeName (Assoc.keys g.entries) (g.liveNames V) := rfl
    have hlive : (Liveness.liveEntries V.inquired g.entries (Liveness.reachable g.patterns g.entries)).value V.on =
      g.liveNames V := rfl
    rw [hstart] at hd
    rw [Inquiry.value_bind, hlive, hcontext, Inquiry.value_bind, hp]
    dsimp only
    rw [Inquiry.value_bind, hd, Inquiry.value_pure, account, V.told_append]
    rfl
  · next hg =>
    have hpatterns : g.patterns = [] := by
      rw [patterns, Option.not_isSome_iff_eq_none.1 hg]
      rfl
    exact (account_of_patterns hpatterns).symm

/-- The walk leaves what it leaves without giving account, and the account is right. -/
theorem value_audited (hk : (Assoc.keys g.entries).Nodup) :
    (g.audited V.keep V.loaded).value V.on = ((g.inquiry V.keep V.loaded).value V.on, g.account V) := by
  have hfst := fst_audit V.inquired (fun d => .report d (.done ())) g
  have hvalue := congrArg (Inquiry.value V.on) hfst
  have hasked := congrArg (Inquiry.asked V.on) hfst
  rw [Inquiry.value_map] at hvalue
  rw [Inquiry.asked_map] at hasked
  have hanswers : ((g.audit V.inquired fun d => .report d (.done ())).asked V.on).map (fun s => (s, V.on s)) =
      (g.account V).answers := congrArg (List.map _) hasked
  rw [audited, Inquiry.value_map, Inquiry.value_recorded]
  refine Prod.ext hvalue (Eq.trans ?_ (value_audit hk))
  exact congrArg (Account.answered _) hanswers

end Grammar

end ScopeActions
