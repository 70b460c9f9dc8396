import ScopeActions.Proofs.Grammar.Account
import ScopeActions.Proofs.Grammar.History
import ScopeActions.Proofs.Grammar.Reached
import ScopeActions.Proofs.Grammar.Reports
/-!
# Search and pruning agree

A walk looks at the rules of a grammar twice: first it searches for the live entries, then it prunes. In both it asks for
verdicts on other grammars, and each question can set off further walks. Still an answer is the same whenever it is asked
for, and what pruning decides is what the search says of the rule as it was (`LoadedGrammars.walks_agree`). A walk within a
pass is told by `PrunePass.Begins`, and what it finds by its account.
-/

namespace ScopeActions

namespace PrunePass

/-! ## Where walks begin -/

/-- A walk through the grammar begins when the pass has become `q`, while it carries out an inquiry. -/
inductive Begins (keep : ScopeSet) : {α : Type} → Inquiry α → PrunePass → String → Grammar → PrunePass → Prop
  | report {α : Type} {d : Diagnostic} {x : Inquiry α} {p q : PrunePass} {s : String} {g : Grammar} :
      Begins keep x (p.diagnosed d) s g q → Begins keep (.report d x) p s g q
  | known {α : Type} {t : String} {k : Bool → Inquiry α} {p q : PrunePass} {s : String} {g : Grammar} :
      (∀ g, ¬p.Fresh t g) → Begins keep (k (p.answer keep t)) p s g q → Begins keep (.ask t k) p s g q
  /-- A question sets the walk off. -/
  | here {α : Type} {k : Bool → Inquiry α} {p : PrunePass} {s : String} {g : Grammar} :
      p.Fresh s g → Begins keep (.ask s k) p s g p
  /-- It begins within one that a question sets off. -/
  | within {α : Type} {t : String} {h : Grammar} {k : Bool → Inquiry α} {p q : PrunePass} {s : String} {g : Grammar} :
      p.Fresh t h → Begins keep (h.inquiry keep (Assoc.keys p.grammars)) (p.enter t) s g q → Begins keep (.ask t k) p s g q
  /-- It begins after that. -/
  | later {α : Type} {t : String} {h : Grammar} {pruned : PrunedGrammar} {k : Bool → Inquiry α} {p p' q : PrunePass}
      {s : String} {g : Grammar} : p.Fresh t h →
      Runs keep (h.inquiry keep (Assoc.keys p.grammars)) (p.enter t) pruned p' →
      Begins keep (k (keep.contains t || pruned.patternsLeft))
        (p'.finish t pruned (keep.contains t || pruned.patternsLeft)) s g q →
      Begins keep (.ask t k) p s g q

variable {keep : ScopeSet} {α : Type} {x : Inquiry α} {a : α} {p p' q : PrunePass} {s : String} {g : Grammar}

/-- Whatever a run visits is a grammar through which a walk begins. -/
theorem Runs.begins (h : Runs keep x p a p') (hs : s ∈ p'.visited) (hp : s ∉ p.visited) :
    ∃ g q, Begins keep x p s g q := by
  induction h with
  | done a p => exact absurd hs hp
  | report _ ih =>
    obtain ⟨g, q, h⟩ := ih hs hp
    exact ⟨g, q, .report h⟩
  | known hfresh _ ih =>
    obtain ⟨g, q, h⟩ := ih hs hp
    exact ⟨g, q, .known hfresh h⟩
  | @walk _ t h pruned k a p q p' hfresh hrun _ ih ih' =>
    -- it is visited in the walk that the question sets off, or after that
    by_cases hq : s ∈ q.visited
    · by_cases ht : s = t
      · subst ht
        exact ⟨h, p, .here hfresh⟩
      · obtain ⟨g, q, hbegins⟩ := ih hq (by simp [enter, hp, ht])
        exact ⟨g, q, .within hfresh hbegins⟩
    · obtain ⟨g, q, hbegins⟩ := ih' hs hq
      exact ⟨g, q, .later hfresh hrun hbegins⟩

/-- When a walk begins the pass has what every step keeps, and the grammar is fresh. -/
theorem Begins.invariant {I : PrunePass → Prop} (hI : Invariant keep I) (h : Begins keep x p s g q) (hp : Sound p)
    (hi : I p) : Sound q ∧ I q ∧ q.Fresh s g := by
  induction h with
  | report _ ih => exact ih (hp.diagnosed _) (hI.diagnosed _ _ hi)
  | known _ _ ih => exact ih hp hi
  | here hs => exact ⟨hp, hi, hs⟩
  | within ht _ ih => exact ih (hp.enter ht) (hI.enter _ _ hi)
  | later ht hrun _ ih =>
    obtain ⟨hext, hsound⟩ := hrun.extends (hp.enter ht)
    have hfinish := hI.finish _ _ _ _ ht hext hi (hI.runs hrun (hp.enter ht) (hI.enter _ _ hi))
    rw [← (hrun.value_eq (hp.enter ht)).1] at hfinish
    exact ih (hsound.finish hext ht) hfinish

theorem invariant_untouched (gs : Assoc Grammar) (keep : ScopeSet) : Invariant keep (Untouched gs) where
  diagnosed _ d h := h.diagnosed d
  enter _ s h := h.enter s
  finish _ _ _ _ hs hq _ h := h.finish hs hq

/-! ## Asking again -/

theorem Settled.not_fresh (h : Settled p s) (g : Grammar) : ¬p.Fresh s g := by
  intro hs
  rcases h with h | h
  · exact hs.unvisited h
  · exact h hs.mem_keys

/-- An inquiry that reports nothing and asks only what is settled leaves the pass as it is. -/
theorem perform_run_of_settled (n : Nat) (hx : x.reported (p.answer keep) = [])
    (hs : ∀ t ∈ x.asked (p.answer keep), Settled p t) :
    (x.perform (decide keep n) diagnose).run p = (x.value (p.answer keep), p) := by
  induction x with
  | done a => rfl
  | ask t k ih =>
    have ht : Settled p t := hs t List.mem_cons_self
    rw [perform_ask_run, decide_of_not_fresh n ht.not_fresh]
    exact ih _ hx fun u hu => hs u (List.mem_cons_of_mem t hu)
  | report d x ih => cases hx

end PrunePass

/-! ## Agreement -/

/-- What an account says is what the pass `q` says, in which the walk ends. -/
structure Account.Agrees (keep : ScopeSet) (loaded : List String) (q : PrunePass) (g : Grammar) (a : Account) : Prop where
  /-- Every answer is the one that the pass gives in the end. -/
  answers : ∀ t b, (t, b) ∈ a.answers → b = q.answer keep t
  /-- The rules decided are those beneath the root patterns and beneath the entries marked. -/
  decided : ∀ r, (∃ b, (r, b) ∈ a.decided) ↔
    ∃ x, (x ∈ g.patterns ∨ ∃ n ∈ a.marked, Assoc.get? g.entries n = some x) ∧ r ∈ x.visit false
  /-- The search, asked about a rule that was decided, says the same. -/
  verdicts : ∀ r b, (r, b) ∈ a.decided → ∀ n,
    (r.live { keep, loaded, decide := PrunePass.decide keep n } a.live).run q = (b, q)
  taken : ∀ n b, (n, b) ∈ a.taken → n ∈ a.live ∧ b = true
  drained : (a.taken.map (·.1)).Perm a.marked
  marked : ∀ n, n ∈ a.marked ↔ n ∈ a.live ∧ ∃ r, g.Leads r ∧ r.inclusion? = some (.entry n)
  /-- The live entries are those that can be reached of which the search says so. -/
  live : ∀ n, n ∈ a.live ↔ (∃ r, g.Leads r ∧ r.inclusion? = some (.entry n)) ∧
    ∃ e, Assoc.get? g.entries n = some e ∧
      ∀ k, (e.live { keep, loaded, decide := PrunePass.decide keep k } a.live).run q = (true, q)

namespace Grammar
variable {V : Verdicts} {g : Grammar} {q : PrunePass}

/-- The rules beneath the root patterns and beneath the entries marked are decided, by what is seen. -/
theorem mem_decided {r : Rule} {b : Bool} : (r, b) ∈ (g.account V).decided ↔
    (∃ x, (x ∈ g.patterns ∨ ∃ n ∈ (g.drained V).2.marked, Assoc.get? g.entries n = some x) ∧ r ∈ x.visit false) ∧
      b = V.sees (g.liveNames V) r := by
  have hentry : ∀ n, r ∈ PruneWalk.entryTrail g.entries n ↔ ∃ x, Assoc.get? g.entries n = some x ∧ r ∈ x.visit false := by
    intro n
    rw [PruneWalk.entryTrail]
    cases Assoc.get? g.entries n <;> simp [Rule.mem_trail]
  have htold : (r, b) ∈ (g.account V).decided ↔ (r ∈ g.patterns.flatMap Rule.trail ∨
      r ∈ (g.drained V).1.flatMap (PruneWalk.entryTrail g.entries)) ∧ b = V.sees (g.liveNames V) r := by
    rw [account, Verdicts.told, List.mem_map, ← List.mem_append]
    constructor
    · rintro ⟨x, hx, heq⟩
      cases heq
      exact ⟨hx, rfl⟩
    · rintro ⟨hr, rfl⟩
      exact ⟨r, hr, rfl⟩
  rw [htold]
  refine and_congr_left fun _ => ?_
  simp only [List.mem_flatMap, Rule.mem_trail, hentry, mem_drained]
  constructor
  · rintro (⟨x, hx, hr⟩ | ⟨n, hn, x, hx, hr⟩)
    · exact ⟨x, .inl hx, hr⟩
    · exact ⟨x, .inr ⟨n, hn, hx⟩, hr⟩
  · rintro ⟨x, hx | ⟨n, hn, hx⟩, hr⟩
    · exact .inl ⟨x, hx, hr⟩
    · exact .inr ⟨n, hn, x, hx, hr⟩

/-- What is decided are rules to which the root patterns lead. -/
theorem leads_of_mem_decided {r : Rule} {b : Bool} (h : (r, b) ∈ (g.account V).decided) : g.Leads r := by
  obtain ⟨⟨x, hx | ⟨n, hn, hx⟩, hr⟩, -⟩ := mem_decided.1 h
  · exact (Leads.root hx).of_mem_visit hr
  · exact (leads_of_mem_liveNames (mem_marked.1 hn) hx).1.of_mem_visit hr

/-- When all that a walk asks about is settled, the search says what is seen, and leaves the pass as it is. -/
theorem Leads.live_run (hV : V.on = q.answer V.keep) (hk : (Assoc.keys g.entries).Nodup)
    (hq : ∀ t ∈ (g.inquiry V.keep V.loaded).asked V.on, PrunePass.Settled q t) {r : Rule} (hr : g.Leads r)
    (known : List String) (n : Nat) :
    (r.live { keep := V.keep, loaded := V.loaded, decide := PrunePass.decide V.keep n } known).run q =
      (V.sees known r, q) := by
  have hasked : ∀ t ∈ (r.live V.inquired known).asked V.on, PrunePass.Settled q t := by
    intro t ht
    obtain ⟨hl, x, hx, hi⟩ := Inquiry.mentions_of_asked_live V known ht
    exact hq t ((mem_asked_inquiry hk).2 ⟨hl, x, hr.of_mem_visit hx, hi⟩)
  have hsilent := Inquiry.silent_live V.keep V.loaded known r (q.answer V.keep)
  rw [← Rule.live_inquired _ known PrunePass.diagnose r]
  refine (PrunePass.perform_run_of_settled n hsilent (hV ▸ hasked)).trans ?_
  rw [← hV]
  exact congrArg (·, q) (Inquiry.value_live V known r)

/-- The account of a walk agrees with the pass in which all that it asks about is settled. -/
theorem agrees_account (hV : V.on = q.answer V.keep) (hk : (Assoc.keys g.entries).Nodup)
    (hq : ∀ t ∈ (g.inquiry V.keep V.loaded).asked V.on, PrunePass.Settled q t) :
    (g.account V).Agrees V.keep V.loaded q g where
  answers t b h := by
    obtain ⟨u, -, heq⟩ := List.mem_map.1 h
    cases heq
    rw [hV]
  decided r := by
    simp only [mem_decided, exists_and_left, exists_eq, and_true]
    rfl
  verdicts r b h n := by
    rw [(leads_of_mem_decided h).live_run hV hk hq, (mem_decided.1 h).2]
    rfl
  taken n b h := by
    obtain ⟨k, hk, heq⟩ := List.mem_map.1 h
    cases heq
    exact ⟨mem_marked.1 (mem_drained.1 hk), rfl⟩
  drained := by
    obtain ⟨-, hperm, -⟩ := draining_end (V := V) (g := g)
    have hnames : (g.account V).taken.map (·.1) = (g.drained V).1 := by simp [account, Function.comp_def]
    rw [hnames]
    exact hperm.symm
  marked n := by
    change n ∈ (g.drained V).2.marked ↔ n ∈ g.liveNames V ∧ _
    rw [mem_marked]
    refine (and_iff_left_of_imp fun hn => ?_).symm
    exact (reach_iff.1 (mem_liveNames.1 hn).1).2
  live n := by
    change n ∈ g.liveNames V ↔ _
    constructor
    · intro hn
      obtain ⟨hreach, e, he, -⟩ := mem_liveNames.1 hn
      refine ⟨(reach_iff.1 hreach).2, e, he, fun k => ?_⟩
      rw [(leads_of_reach hreach he).live_run hV hk hq, ← sees_of_mem_liveNames hn he]
      rfl
    · rintro ⟨hreached, e, he, hlive⟩
      have hreach := reach_iff.2 ⟨Assoc.contains_of_get? he, hreached⟩
      have hleads := leads_of_reach hreach he
      have hsees := congrArg Prod.fst ((hleads.live_run hV hk hq _ 0).symm.trans (hlive 0))
      exact mem_liveNames.2 ⟨hreach, e, he, (sees_iff_liveIn hleads).1 hsees⟩

end Grammar

namespace PrunePass
variable {keep : ScopeSet} {p q : PrunePass} {s : String} {g : Grammar} {pruned : PrunedGrammar} {account : Account}

/-- A walk that gives account ends in a pass with which the account agrees. -/
theorem Runs.agrees (h : Runs keep (g.audited keep (Assoc.keys p.grammars)) (p.enter s) (pruned, account) q) (hp : Sound p)
    (hs : p.Fresh s g) (hk : g.Distinct) : account.Agrees keep (Assoc.keys p.grammars) q g := by
  obtain ⟨hvalue, hsettled⟩ := h.value_eq (hp.enter hs)
  have hasked := congrArg (Inquiry.asked (q.answer keep)) (g.fst_audited keep (Assoc.keys p.grammars))
  rw [Inquiry.asked_map] at hasked
  obtain ⟨-, rfl⟩ := Prod.mk.inj (hvalue.trans (Grammar.value_audited (V := verdicts keep p q) hk))
  exact Grammar.agrees_account (V := verdicts keep p q) rfl hk fun t ht => hsettled t (hasked ▸ ht)

/-- What a walk does is what it does when it gives account. -/
theorem pruneRules_run (n : Nat) (keep : ScopeSet) (loaded : List String) (g : Grammar) (p : PrunePass) :
    (g.pruneRules { keep, loaded, decide := decide keep n } diagnose).run p =
      ((((g.audited keep loaded).perform (decide keep n) diagnose).run p).1.1,
        (((g.audited keep loaded).perform (decide keep n) diagnose).run p).2) := by
  rw [Grammar.pruneRules_inquired, ← Grammar.fst_audited, Inquiry.perform_map]
  rfl

/-- With a step for each grammar still to be visited, the walk through a fresh grammar gives account, and one that agrees. -/
theorem Fresh.agrees (hs : p.Fresh s g) (hp : Sound p) (hk : g.Distinct) (keep : ScopeSet) :
    ∃ pruned account q, account.Agrees keep (Assoc.keys p.grammars) q g ∧
      ∀ n ≥ (p.enter s).unvisited.length,
        (g.pruneRules { keep, loaded := Assoc.keys p.grammars, decide := decide keep n } diagnose).run (p.enter s) =
          (pruned, q) ∧
        ((g.audited keep (Assoc.keys p.grammars)).perform (decide keep n) diagnose).run (p.enter s) =
          ((pruned, account), q) := by
  obtain ⟨⟨pruned, account⟩, q, hrun⟩ :
      ∃ a q, Runs keep (g.audited keep (Assoc.keys p.grammars)) (p.enter s) a q :=
    ⟨_, _, runs_perform _ _ (hp.enter hs) (Nat.le_refl _)⟩
  refine ⟨pruned, account, q, hrun.agrees hp hs hk, fun n hn => ?_⟩
  have haudited : ((g.audited keep (Assoc.keys p.grammars)).perform (decide keep n) diagnose).run (p.enter s) =
      ((pruned, account), q) := by
    obtain ⟨hresult, hpass⟩ := (runs_perform n _ (hp.enter hs) hn).unique hrun
    exact Prod.ext hresult hpass
  refine ⟨?_, haudited⟩
  rw [pruneRules_run, haudited]

end PrunePass

namespace LoadedGrammars

/-- In every pass over a set of grammars, as any history leaves it, a walk begins for each grammar that the pass visits.
Giving account changes nothing about a walk, and the account agrees with the pass in which the walk ends. -/
theorem walks_agree (steps : List GrammarStep) (keep : ScopeSet) (scopes : List String) :
    let l := after steps
    (∀ s ∈ (PrunePass.run l.current keep scopes).visited,
      ∃ g p, PrunePass.Begins keep (Inquiry.askAll scopes) { grammars := l.current } s g p) ∧
    ∀ s g p, PrunePass.Begins keep (Inquiry.askAll scopes) { grammars := l.current } s g p →
      l.get? s = some g ∧ Assoc.keys p.grammars = l.scopes ∧
      ∃ pruned account q, account.Agrees keep l.scopes q g ∧
        ∀ n ≥ (p.enter s).unvisited.length,
          (g.pruneRules { keep, loaded := l.scopes, decide := PrunePass.decide keep n } PrunePass.diagnose).run (p.enter s) =
            (pruned, q) ∧
          ((g.audited keep l.scopes).perform (PrunePass.decide keep n) PrunePass.diagnose).run (p.enter s) =
            ((pruned, account), q) := by
  intro l
  have hl : l.WellFormed := wellFormed_after steps
  refine ⟨fun s hs => (PrunePass.runs_run l.current keep scopes).begins hs List.not_mem_nil, fun s g p h => ?_⟩
  obtain ⟨hp, hd, hs⟩ := h.invariant (PrunePass.invariant_distinct keep) (PrunePass.sound_start _) hl.distinct.current
  obtain ⟨-, hu, -⟩ := h.invariant (PrunePass.invariant_untouched l.current keep) (PrunePass.sound_start _)
    (PrunePass.untouched_start _)
  have hkeys : Assoc.keys p.grammars = l.scopes := hu.keys
  exact ⟨hu.get?_fresh hs, hkeys, hkeys ▸ hs.agrees hp (hd s g hs.loaded) keep⟩

/-- A grammar with an entry that includes itself and another grammar. -/
def outgoing : Grammar :=
  (Grammar.ofPatterns "a" [.including "#x"]).addEntry "x"
    (.mk {} (some [.including "#x", .including "b"]) none none none none)

theorem distinct_outgoing : outgoing.Distinct := (Grammar.distinct_ofPatterns "a" _).addEntry _ _

/-- The other grammar, which includes the first. -/
def returning : Grammar := Grammar.ofPatterns "b" [.including "a", .named "k"]

/-- Both grammars are inserted. -/
def cyclic : List GrammarStep :=
  [.insert outgoing distinct_outgoing, .insert returning (Grammar.distinct_ofPatterns "b" _)]

/-- The search asks about the other grammar, and so does pruning, when it decides the entry. -/
theorem walks_agree_cyclic :
    let start : PrunePass := { grammars := (after cyclic).current }
    PrunePass.Begins ["k"] (Inquiry.askAll ["a"]) start "a" outgoing start ∧
    ∃ (account : Account) (q : PrunePass), account.Agrees ["k"] ["a", "b"] q outgoing ∧
      account.answers = [("b", true), ("b", true)] ∧ account.live = ["x"] ∧ account.taken = [("x", true)] ∧ account.marked = ["x"] := by
  intro start
  have hbegins : PrunePass.Begins ["k"] (Inquiry.askAll ["a"]) start "a" outgoing start :=
    .here ⟨rfl, List.not_mem_nil, rfl⟩
  obtain ⟨-, hwalks⟩ := walks_agree cyclic ["k"] ["a"]
  obtain ⟨-, -, pruned, account, q, hagrees, hruns⟩ := hwalks "a" outgoing start hbegins
  obtain ⟨-, haudited⟩ := hruns 2 (by decide +kernel)
  have hfound : let found := (((outgoing.audited ["k"] ["a", "b"]).perform (PrunePass.decide ["k"] 2)
      PrunePass.diagnose).run (start.enter "a")).1.2
      found.answers = [("b", true), ("b", true)] ∧ found.live = ["x"] ∧ found.taken = [("x", true)] ∧
        found.marked = ["x"] := by
    decide +kernel
  have hscopes : (after cyclic).scopes = ["a", "b"] := by decide +kernel
  rw [hscopes] at hagrees haudited
  rw [haudited] at hfound
  exact ⟨hbegins, account, q, hagrees, hfound⟩

end LoadedGrammars

end ScopeActions
