import ScopeActions.Proofs.Grammar.Leave
/-!
# What a walk reports

A walk reports the includes that it does not follow, on the rules that it passes: beneath the root patterns, and beneath
the entries that are live (`Grammar.mem_reported_inquiry`). The search for live rules reports nothing, so a walk is
silent about the entries that the search finds dead.
-/

namespace ScopeActions

namespace Inquiry

variable {α β : Type}

/-- The includes reported, in order, when `o` gives the verdicts. -/
def reported (o : String → Bool) : Inquiry α → List Diagnostic
  | done _ => []
  | ask s k => (k (o s)).reported o
  | report d x => d :: x.reported o

@[simp] theorem reported_pure (o : String → Bool) (a : α) : (pure a : Inquiry α).reported o = [] := rfl

@[simp] theorem reported_bind (o : String → Bool) (x : Inquiry α) (f : α → Inquiry β) :
    (x >>= f).reported o = x.reported o ++ (f (x.value o)).reported o := by
  induction x with
  | done a => rfl
  | ask s k ih => exact ih (o s)
  | report d x ih => exact congrArg (d :: ·) ih

/-! ## The search for live rules -/

/-- Nothing is reported, whatever the verdicts are. -/
def Silent (x : Inquiry α) : Prop :=
  ∀ o, x.reported o = []

variable {x y : Inquiry α}

theorem silent_pure (a : α) : (pure a : Inquiry α).Silent := fun _ => rfl

theorem Silent.bind {f : α → Inquiry β} (h : x.Silent) (hf : ∀ a, (f a).Silent) : (x >>= f).Silent := by
  intro o
  rw [reported_bind, h, hf, List.append_nil]

theorem Silent.orM {x y : Inquiry Bool} (h : x.Silent) (h' : y.Silent) : (x <||> y).Silent := by
  rw [orM_eq]
  refine h.bind fun b => ?_
  cases b
  · exact h'
  · exact silent_pure true

section Search
variable (keep : ScopeSet) (loaded known : List String)

theorem silent_inclusionLive (o : Option String) : (Rule.inclusionLive (surroundings keep loaded) known o).Silent := by
  cases o with
  | none => exact silent_pure false
  | some i =>
    rw [Rule.inclusionLive]
    cases Inclusion.parse i with
    | reserved => exact silent_pure false
    | entry n => exact silent_pure _
    | grammar t =>
      change (if loaded.contains t then ask t done else pure (keep.contains t) : Inquiry Bool).Silent
      split
      · exact fun _ => rfl
      · exact silent_pure _

theorem silent_live (r : Rule) : (r.live (surroundings keep loaded) known).Silent := by
  induction r with
  | node r ih =>
    have lists : ∀ rs : List Rule, (∀ c ∈ rs, c ∈ r.children) →
        (Rule.liveList (surroundings keep loaded) known rs).Silent := by
      intro rs hrs
      induction rs with
      | nil => exact silent_pure false
      | cons c rs ih' =>
        exact (ih c (hrs c List.mem_cons_self)).orM (ih' fun d hd => hrs d (List.mem_cons_of_mem c hd))
    rw [Rule.live_eq]
    apply (silent_pure _).orM
    apply (lists _ fun c hc => Rule.mem_children.2 (.inl hc)).orM
    apply (lists _ fun c hc => Rule.mem_children.2 (.inr hc)).orM
    exact silent_inclusionLive keep loaded known _

variable (entries : List (String × Rule))

theorem silent_round (names : List String) : (Liveness.round (surroundings keep loaded) entries known names).Silent := by
  induction names generalizing known with
  | nil => exact silent_pure known
  | cons name names ih =>
    unfold Liveness.round
    split
    · exact ih known
    · cases Assoc.get? entries name with
      | none => exact ih known
      | some e =>
        apply (silent_live keep loaded known e).bind
        intro b
        cases b <;> exact ih _

theorem silent_rounds (names : List String) (n : Nat) :
    (Liveness.rounds (surroundings keep loaded) entries names n known).Silent := by
  induction n generalizing known with
  | zero => exact silent_pure known
  | succ n ih =>
    apply (silent_round keep loaded known entries names).bind
    intro known'
    split
    · exact silent_pure known'
    · exact ih known'

end Search

end Inquiry

/-! ## The rules passed -/

/-- What a walk reports about the include of a rule in the grammar with this scope and these entries. -/
def Verdicts.diagnostic? (V : Verdicts) (grammar : String) (entries : List String) (r : Rule) : Option Diagnostic :=
  r.head.inclusion.bind fun i =>
    match Inclusion.parse i with
    | .reserved => some ⟨.reservedInclude, grammar, i⟩
    | .entry n => if entries.contains n then none else some ⟨.missingEntry, grammar, i⟩
    | .grammar t =>
      if V.loaded.contains t || V.keep.contains t then none else some ⟨.unknownGrammar, grammar, i⟩

theorem Verdicts.diagnostic?_eq_reserved {V : Verdicts} {grammar i : String} {entries : List String} {r : Rule}
    (hi : Inclusion.parse i = .reserved) :
    V.diagnostic? grammar entries r = some ⟨.reservedInclude, grammar, i⟩ ↔ r.head.inclusion = some i := by
  unfold diagnostic?
  constructor
  · intro h
    obtain ⟨j, hj, h⟩ := Option.bind_eq_some_iff.1 h
    split at h
    · cases h
      exact hj
    · split at h <;> cases h
    · split at h <;> cases h
  · intro h
    rw [h, Option.bind_some, hi]

/-- In every state the walk reports this. -/
def Reports {α : Type} (V : Verdicts) (x : StateT PruneWalk Inquiry α) (ds : List Diagnostic) : Prop :=
  ∀ w, (x.run w).reported V.on = ds

namespace Reports
variable {α β : Type} {V : Verdicts} {x : StateT PruneWalk Inquiry α} {f : α → StateT PruneWalk Inquiry β} {a : α}
  {e : Effect} {ds ds' : List Diagnostic}

theorem pure (a : α) : Reports V (pure a) [] := fun _ => rfl

theorem bind (hy : Yields V x a e) (hx : Reports V x ds) (hf : Reports V (f a) ds') : Reports V (x >>= f) (ds ++ ds') := by
  intro w
  rw [StateT.run_bind, Inquiry.reported_bind, (hy w).1, hx w]
  exact congrArg (ds ++ ·) (hf _)

theorem bind_pure {g : α → β} (hy : Yields V x a e) (hx : Reports V x ds) :
    Reports V (x >>= fun a => Pure.pure (g a)) ds := by
  simpa using bind (f := fun a => Pure.pure (g a)) hy hx (pure (g a))

end Reports

namespace Rule
variable {V : Verdicts} {grammar : String} {entries live : List String}

theorem keepInclusion_reports (V : Verdicts) (grammar : String) (entries live : List String) (r : Rule) :
    Reports V (keepInclusion (V.context grammar entries live) r.head.inclusion)
      (V.diagnostic? grammar entries r).toList := by
  intro w
  unfold Verdicts.diagnostic?
  cases r.head.inclusion with
  | none => rfl
  | some i =>
    rw [keepInclusion_run, Option.bind_some]
    cases Inclusion.parse i with
    | reserved => rfl
    | entry n =>
      change (if !entries.contains n then _ else if !live.contains n then pure (false, w)
        else pure (true, w.mark n) : Inquiry (Bool × PruneWalk)).reported V.on = _
      dsimp only
      cases entries.contains n
      · rfl
      · cases live.contains n <;> rfl
    | grammar t =>
      change (if V.loaded.contains t then _ else if V.keep.contains t then pure (true, w) else _ :
        Inquiry (Bool × PruneWalk)).reported V.on = _
      dsimp only
      cases V.loaded.contains t
      · cases V.keep.contains t <;> rfl
      · rfl

theorem filterMap_singleton {α β : Type} (f : α → Option β) (a : α) : [a].filterMap f = (f a).toList := by
  cases h : f a <;> simp [h]

/-- Pruning the rule reports about the rules on its trail. -/
def PruneReports (V : Verdicts) (grammar : String) (entries live : List String) (r : Rule) : Prop :=
  Reports V (prune (V.context grammar entries live) r) (r.trail.filterMap (V.diagnostic? grammar entries))

section Lists
variable (hl : ∀ n ∈ live, n ∈ entries)
include hl

theorem pruneList_reports_of {rs : List Rule} (h : ∀ r ∈ rs, PruneReports V grammar entries live r) :
    Reports V (pruneList (V.context grammar entries live) rs)
      ((rs.flatMap trail).filterMap (V.diagnostic? grammar entries)) := by
  induction rs with
  | nil => exact .pure []
  | cons r rs ih =>
    rw [pruneList, List.flatMap_cons, List.filterMap_append]
    refine .bind (prune_yields V grammar hl r) (h r List.mem_cons_self) ?_
    exact .bind_pure (pruneList_yields_of fun x _ => prune_yields V grammar hl x)
      (ih fun x hx => h x (List.mem_cons_of_mem r hx))

theorem pruneNamed_reports_of {es : List (String × Rule)} (h : ∀ r ∈ es.map (·.2), PruneReports V grammar entries live r) :
    Reports V (pruneNamed (V.context grammar entries live) es)
      (((es.map (·.2)).flatMap trail).filterMap (V.diagnostic? grammar entries)) := by
  induction es with
  | nil => exact .pure (false, [])
  | cons e es ih =>
    rw [pruneNamed, List.map_cons, List.flatMap_cons, List.filterMap_append]
    refine .bind (prune_yields V grammar hl e.2) (h e.2 List.mem_cons_self) ?_
    exact .bind_pure (pruneNamed_yields_of fun x _ => prune_yields V grammar hl x)
      (ih fun x hx => h x (List.mem_cons_of_mem e.2 hx))

theorem pruneMap_reports_of {o : Option (List (String × Rule))}
    (h : ∀ r ∈ (o.getD []).map (·.2), PruneReports V grammar entries live r) :
    Reports V (pruneMap (V.context grammar entries live) o)
      ((((o.getD []).map (·.2)).flatMap trail).filterMap (V.diagnostic? grammar entries)) := by
  cases o with
  | none => exact .pure (false, none)
  | some es =>
    exact .bind_pure (pruneNamed_yields_of fun x _ => prune_yields V grammar hl x) (pruneNamed_reports_of hl h)

theorem prunePatterns_reports_of {o : Option (List Rule)} (h : ∀ r ∈ o.getD [], PruneReports V grammar entries live r) :
    Reports V (prunePatterns (V.context grammar entries live) o)
      (((o.getD []).flatMap trail).filterMap (V.diagnostic? grammar entries)) := by
  cases o with
  | none => exact .pure (false, none)
  | some rs =>
    have hremoved : ∀ n, Reports V (modify (PruneWalk.remove · n)) [] := fun _ _ => rfl
    have hrest := fun rs' : List Rule => Reports.bind_pure (g := fun _ => (!rs'.isEmpty, some rs')) (Yields.remove _)
      (hremoved (rs.length - rs'.length))
    have hrs := pruneList_reports_of hl h
    rw [Option.getD_some, ← List.append_nil (List.filterMap _ _)]
    exact .bind (pruneList_yields_of fun x _ => prune_yields V grammar hl x) hrs (hrest _)

variable (V grammar) in
theorem prune_reports (r : Rule) : PruneReports V grammar entries live r := by
  induction r with
  | node r ih =>
    cases r with
    | mk head patterns repository captures begins ends =>
      have yields : ∀ r, PruneYields V grammar entries live r := prune_yields V grammar hl
      have hm : ∀ o ∈ [captures, begins, ends], ∀ r ∈ (o.getD []).map (·.2), PruneReports V grammar entries live r := by
        intro o ho r hr
        exact ih r (mem_children.2 (.inl (mem_captured_mk ho hr)))
      have hp := prunePatterns_reports_of hl (o := patterns) fun r hr => ih r (mem_children.2 (.inr hr))
      have hi := keepInclusion_reports V grammar entries live (.mk head patterns repository captures begins ends)
      rw [← filterMap_singleton] at hi
      unfold PruneReports
      rw [prune_mk, trail_eq, children, captured, patternList]
      simp only [Rule.captures, beginCaptures, endCaptures, Rule.patterns, List.map_append, List.flatMap_append,
        List.filterMap_append, List.append_assoc]
      refine .bind (pruneMap_yields_of fun r _ => yields r) (pruneMap_reports_of hl (hm captures (by simp))) ?_
      refine .bind (pruneMap_yields_of fun r _ => yields r) (pruneMap_reports_of hl (hm begins (by simp))) ?_
      refine .bind (pruneMap_yields_of fun r _ => yields r) (pruneMap_reports_of hl (hm ends (by simp))) ?_
      refine .bind (prunePatterns_yields_of fun r _ => yields r) hp ?_
      exact .bind_pure (keepInclusion_yields V grammar hl (.mk head patterns repository captures begins ends)) hi

end Lists

end Rule

namespace PruneWalk
variable {V : Verdicts} {grammar : String} {live drained : List String} {entries : List (String × Rule)} {w : PruneWalk}

variable (V grammar) in
/-- Draining reports about the rules of each entry that gets marked. -/
theorem drain_reports (hk : (Assoc.keys entries).Nodup) (hl : ∀ n ∈ live, n ∈ Assoc.keys entries) (n : Nat)
    (h : Draining live drained w) :
    let x := (drain (V.context grammar (Assoc.keys entries) live) n (restrictAt (V.sees live) drained entries)).run w
    x.reported V.on = ((flush V live entries n w).1.flatMap (entryTrail entries)).filterMap
      (V.diagnostic? grammar (Assoc.keys entries)) := by
  induction n generalizing drained w with
  | zero => rfl
  | succ n ih =>
    dsimp only
    rw [drain_run, flush]
    cases hp : w.pending with
    | nil => rfl
    | cons name pending =>
      have hname : name ∈ live := h.live name (h.perm.mem_iff.2 (by simp [hp]))
      obtain ⟨e, he⟩ := Assoc.exists_of_mem_keys (hl name hname)
      have he' : Assoc.get? (restrictAt (V.sees live) drained entries) name = some e := by
        rw [get?_restrictAt, he, Option.map_some, if_neg (h.not_mem hp)]
      have htrail : entryTrail entries name = e.trail := by simp [entryTrail, he]
      obtain ⟨hv, -⟩ := Rule.prune_yields V grammar hl e { w with pending }
      have hreports := Rule.prune_reports V grammar hl e { w with pending }
      have hrest := ih ((h.pop hp).after (e := V.effect live e.trail) fun k hk => mem_live_of_mem_marks hk)
      dsimp only at hrest ⊢
      rw [he']
      dsimp only
      rw [Inquiry.reported_bind, hv, hreports, put_restrictAt hk he, htrail, hrest]
      rw [List.flatMap_cons, htrail, List.filterMap_append]

end PruneWalk

namespace Grammar
variable {V : Verdicts} {g : Grammar}

/-- The walk through a grammar reports about the rules that it passes. -/
theorem reported_inquiry (hg : g.root.patterns.isSome) (hk : (Assoc.keys g.entries).Nodup) :
    (g.inquiry V.keep V.loaded).reported V.on =
      (g.patterns.flatMap Rule.trail ++ (g.drained V).1.flatMap (PruneWalk.entryTrail g.entries)).filterMap
        (V.diagnostic? g.scopeName (Assoc.keys g.entries)) := by
  have hlive := mem_keys_of_mem_liveNames (V := V) (g := g)
  obtain ⟨hp, -⟩ := Rule.pruneList_yields_of
    (fun r (_ : r ∈ g.patterns) => Rule.prune_yields V g.scopeName hlive r) {}
  have hps := Rule.pruneList_reports_of hlive
    (fun r (_ : r ∈ g.patterns) => Rule.prune_reports V g.scopeName hlive r) {}
  have hds := PruneWalk.drain_reports V g.scopeName hk hlive g.entries.length draining_start
  have hstart : restrictAt (V.sees (g.liveNames V)) [] g.entries = g.entries := by simp [restrictAt]
  have hcontext : g.context (Inquiry.surroundings V.keep V.loaded) (fun d => .report d (.done ())) (g.liveNames V) =
    V.context g.scopeName (Assoc.keys g.entries) (g.liveNames V) := rfl
  have hvalue : (Liveness.liveEntries (Inquiry.surroundings V.keep V.loaded) g.entries
    (Liveness.reachable g.patterns g.entries)).value V.on = g.liveNames V := rfl
  have hsilent := Inquiry.silent_rounds V.keep V.loaded [] g.entries (Liveness.reachable g.patterns g.entries)
    ((Liveness.reachable g.patterns g.entries).length + 1) V.on
  rw [hstart] at hds
  rw [inquiry, pruneRules_some _ _ hg, Inquiry.reported_bind, hvalue, hcontext, Inquiry.reported_bind, hp, hps]
  dsimp only at hds ⊢
  rw [Inquiry.reported_bind, hds, Inquiry.reported_pure, List.append_nil, List.filterMap_append]
  exact congrArg (· ++ _) hsilent

/-- A diagnostic is reported just when the include of a rule that the walk passes gives cause to it: a rule beneath a
root pattern, or beneath a live entry that the root patterns lead to. -/
theorem mem_reported_inquiry (hg : g.root.patterns.isSome) (hk : (Assoc.keys g.entries).Nodup) {d : Diagnostic} :
    d ∈ (g.inquiry V.keep V.loaded).reported V.on ↔
      ∃ r, ((∃ p ∈ g.patterns, r ∈ p.visit false) ∨
        ∃ n ∈ g.liveNames V, ∃ e, Assoc.get? g.entries n = some e ∧ r ∈ e.visit false) ∧
        V.diagnostic? g.scopeName (Assoc.keys g.entries) r = some d := by
  rw [reported_inquiry hg hk, List.mem_filterMap]
  refine exists_congr fun r => and_congr_left fun _ => ?_
  rw [List.mem_append]
  refine or_congr ?_ ?_
  · simp only [List.mem_flatMap, Rule.mem_trail]
  · rw [List.mem_flatMap]
    constructor
    · rintro ⟨n, hn, hr⟩
      have hlive := mem_marked.1 (mem_drained.1 hn)
      obtain ⟨-, e, he, -⟩ := mem_liveNames.1 hlive
      rw [PruneWalk.entryTrail, he] at hr
      exact ⟨n, hlive, e, he, Rule.mem_trail.1 hr⟩
    · rintro ⟨n, hn, e, he, hr⟩
      refine ⟨n, mem_drained.2 (mem_marked.2 hn), ?_⟩
      rw [PruneWalk.entryTrail, he]
      exact Rule.mem_trail.2 hr

/-- A grammar without root patterns is not walked through, and nothing is reported about it. -/
theorem reported_inquiry_none (h : g.root.patterns = none) : (g.inquiry V.keep V.loaded).reported V.on = [] := by
  rw [inquiry_none h, Inquiry.reported_pure]

/-- Whatever a walk reports, the include of a rule that it passes gives cause to it. -/
theorem exists_of_mem_reported (hk : (Assoc.keys g.entries).Nodup) {d : Diagnostic}
    (hd : d ∈ (g.inquiry V.keep V.loaded).reported V.on) :
    ∃ r, ((∃ p ∈ g.patterns, r ∈ p.visit false) ∨
      ∃ n ∈ g.liveNames V, ∃ e, Assoc.get? g.entries n = some e ∧ r ∈ e.visit false) ∧
      V.diagnostic? g.scopeName (Assoc.keys g.entries) r = some d := by
  cases hg : g.root.patterns with
  | none =>
    rw [reported_inquiry_none hg] at hd
    cases hd
  | some ps => exact (mem_reported_inquiry (by rw [hg]; rfl) hk).1 hd

/-- A walk reports about its own grammar. -/
theorem grammar_of_mem_reported (hk : (Assoc.keys g.entries).Nodup) {d : Diagnostic}
    (hd : d ∈ (g.inquiry V.keep V.loaded).reported V.on) : d.grammar = g.scopeName := by
  obtain ⟨r, -, hr⟩ := exists_of_mem_reported hk hd
  obtain ⟨i, -, hi⟩ := Option.bind_eq_some_iff.1 hr
  split at hi
  · cases hi
    rfl
  · split at hi
    · cases hi
    · cases hi
      rfl
  · split at hi
    · cases hi
    · cases hi
      rfl

end Grammar

end ScopeActions
