import ScopeActions.Proofs.Grammar.Drain
/-!
# Steps suffice

The loops of a walk are given a number of steps, and stop when it is used up. Here they fail instead.
`Grammar.pruneRulesWithin_eq` says that none does: with as many steps as there are patterns and entries
(`Grammar.steps`) every loop of a walk ends by itself, whatever the verdicts are that it asks for.
-/

namespace ScopeActions

section Loops
variable {m : Type → Type} [Monad m] [MonadExceptOf Unit m]

namespace Liveness

/-- Follows rules from the top of a stack. -/
def followWithin (entries : List (String × Rule)) : Nat → List String → List Rule → m (List String)
  | _, found, [] => pure found
  | 0, _, _ :: _ => throw ()
  | n + 1, found, r :: stack =>
    let found' := discover entries found r.entryInclusions
    let fresh := (found'.drop found.length).filterMap (Assoc.get? entries)
    followWithin entries n found' (fresh.reverse ++ stack)

/-- Rounds until one finds nothing new. -/
def roundsWithin (s : Surroundings m) (entries : List (String × Rule)) (names : List String) :
    Nat → List String → m (List String)
  | 0, _ => throw ()
  | n + 1, known => do
    let known' ← round s entries known names
    if known'.length = known.length then pure known' else roundsWithin s entries names n known'

end Liveness

/-- Prunes the entries that are pending, and those that become so. -/
def PruneWalk.drainWithin (c : PruneContext m) :
    Nat → List (String × Rule) → StateT PruneWalk m (List (String × Rule))
  | 0, entries => do
    if (← get).pending.isEmpty then pure entries else throw ()
  | n + 1, entries => do
    match (← get).pending with
    | [] => pure entries
    | name :: pending =>
      modify fun w => { w with pending }
      match Assoc.get? entries name with
      | none => drainWithin c n entries
      | some rule =>
        let (_, rule) ← rule.prune c
        drainWithin c n (Assoc.put entries name rule)

/-- Prunes the rules of one grammar; each loop has `n` steps. -/
def Grammar.pruneRulesWithin (n : Nat) (s : Surroundings m) (diagnose : Diagnostic → m Unit) (g : Grammar) :
    m PrunedGrammar :=
  if g.root.patterns.isSome then do
    let names ← Liveness.followWithin g.entries n [] g.patterns.reverse
    let live ← Liveness.roundsWithin s g.entries names n []
    let (patterns, w) ← (Rule.pruneList (g.context s diagnose live) g.patterns).run {}
    let (entries, w) ← (PruneWalk.drainWithin (g.context s diagnose live) n g.entries).run w
    pure (g.leave patterns entries w)
  else pure { grammar := g, patternsLeft := false }

end Loops

/-- A number of steps with which no loop of a walk through the grammar runs out of them. -/
def Grammar.steps (g : Grammar) : Nat := g.patterns.length + g.entries.length + 1

/-! ## How inquiries end -/

namespace Inquiry
variable {α β : Type} {P : α → Prop} {Q : β → Prop} {x : Inquiry α} {f : α → Inquiry β}

/-- Whatever the verdicts are, the result has the property. -/
def Ends (P : α → Prop) : Inquiry α → Prop
  | done a => P a
  | ask _ k => ∀ b, (k b).Ends P
  | report _ x => x.Ends P

theorem Ends.bind (hx : x.Ends P) (hf : ∀ a, P a → (f a).Ends Q) : (x >>= f).Ends Q := by
  induction x with
  | done a => exact hf a hx
  | ask s k ih => exact fun b => ih b (hx b)
  | report d x ih => exact ih hx

theorem Ends.mono {P' : α → Prop} (hx : x.Ends P) (h : ∀ a, P a → P' a) : x.Ends P' := by
  induction x with
  | done a => exact h a hx
  | ask s k ih => exact fun b => ih b (hx b)
  | report d x ih => exact ih hx

theorem ends_true (x : Inquiry α) : x.Ends fun _ => True := by
  induction x with
  | done a => trivial
  | ask s k ih => exact ih
  | report d x ih => exact ih

/-- What follows an inquiry matters only for the results that it can have. -/
theorem Ends.perform_bind_congr {m : Type → Type} [Monad m] [LawfulMonad m] {γ : Type} (hx : x.Ends P)
    {decide : String → m Bool} {diagnose : Diagnostic → m Unit} {h h' : α → m γ} (hh : ∀ a, P a → h a = h' a) :
    x.perform decide diagnose >>= h = x.perform decide diagnose >>= h' := by
  induction x with
  | done a => simpa [perform] using hh a hx
  | ask s k ih =>
    simp only [perform, bind_assoc]
    exact bind_congr fun b => ih b (hx b)
  | report d x ih =>
    simp only [perform, bind_assoc]
    exact bind_congr fun _ => ih hx

end Inquiry

/-- The walk, by inquiry, keeps what is said of its state. -/
def Steady {α : Type} (I : PruneWalk → Prop) (x : StateT PruneWalk Inquiry α) : Prop :=
  ∀ w, I w → (x.run w).Ends fun p => I p.2

namespace Steady
variable {α β : Type} {I : PruneWalk → Prop} {x : StateT PruneWalk Inquiry α} {f : α → StateT PruneWalk Inquiry β}

theorem pure (a : α) : Steady I (pure a) := fun _ h => h

theorem bind (hx : Steady I x) (hf : ∀ a, Steady I (f a)) : Steady I (x >>= f) := fun w hw =>
  (hx w hw).bind fun p hp => hf p.1 p.2 hp

end Steady

namespace Rule
variable {c : PruneContext Inquiry} {I : PruneWalk → Prop}

/-- Marking entries, which are live, and counting what is removed is all that a walk does to its state. -/
structure Kept (live : List String) (I : PruneWalk → Prop) : Prop where
  mark : ∀ w n, n ∈ live → I w → I (w.mark n)
  remove : ∀ w n, I w → I (w.remove n)

theorem keepInclusion_steady (hI : Kept c.live I) (o : Option String) : Steady I (keepInclusion c o) := by
  intro w hw
  have rejects : ∀ x : Inquiry Unit, (x >>= fun _ => Pure.pure (false, w)).Ends fun p => I p.2 := fun x =>
    (Inquiry.ends_true x).bind fun _ _ => hw
  cases o with
  | none => exact hw
  | some i =>
    rw [keepInclusion_run]
    cases Inclusion.parse i with
    | reserved => exact rejects _
    | entry n =>
      dsimp only
      split
      · exact rejects _
      split
      · exact hw
      · next hn => exact hI.mark w n (by simpa using hn) hw
    | grammar t =>
      dsimp only
      split
      · exact (Inquiry.ends_true _).bind fun _ _ => hw
      split
      · exact hw
      · exact rejects _

theorem pruneList_steady_of {rs : List Rule} (h : ∀ r ∈ rs, Steady I (prune c r)) : Steady I (pruneList c rs) := by
  induction rs with
  | nil => exact .pure []
  | cons r rs ih =>
    rw [pruneList]
    exact (h r List.mem_cons_self).bind fun _ => (ih fun x hx => h x (List.mem_cons_of_mem r hx)).bind fun _ => .pure _

theorem pruneMap_steady_of {o : Option (List (String × Rule))} (h : ∀ r ∈ (o.getD []).map (·.2), Steady I (prune c r)) :
    Steady I (pruneMap c o) := by
  have named : ∀ es : List (String × Rule), (∀ r ∈ es.map (·.2), Steady I (prune c r)) → Steady I (pruneNamed c es) := by
    intro es hes
    induction es with
    | nil => exact .pure (false, [])
    | cons e es ih =>
      rw [pruneNamed]
      exact (hes e.2 List.mem_cons_self).bind fun _ =>
        (ih fun x hx => hes x (List.mem_cons_of_mem e.2 hx)).bind fun _ => .pure _
  cases o with
  | none => exact .pure (false, none)
  | some es => exact (named es h).bind fun _ => .pure _

theorem prunePatterns_steady_of (hI : Kept c.live I) {o : Option (List Rule)}
    (h : ∀ r ∈ o.getD [], Steady I (prune c r)) : Steady I (prunePatterns c o) := by
  cases o with
  | none => exact .pure (false, none)
  | some rs =>
    have hrs : ∀ r ∈ rs, Steady I (prune c r) := h
    exact (pruneList_steady_of hrs).bind fun rs' => Steady.bind (fun w hw => hI.remove w _ hw) fun _ => .pure _

theorem prune_steady (hI : Kept c.live I) (r : Rule) : Steady I (prune c r) := by
  induction r with
  | node r ih =>
    cases r with
    | mk head patterns repository captures begins ends =>
      have hm : ∀ o ∈ [captures, begins, ends], Steady I (pruneMap c o) := fun o ho =>
        pruneMap_steady_of fun r hr => ih r (mem_children.2 (.inl (mem_captured_mk ho hr)))
      have hp : Steady I (prunePatterns c patterns) :=
        prunePatterns_steady_of hI fun r hr => ih r (mem_children.2 (.inr hr))
      rw [prune_mk]
      exact (hm captures (by simp)).bind fun _ => (hm begins (by simp)).bind fun _ => (hm ends (by simp)).bind fun _ =>
        hp.bind fun _ => (keepInclusion_steady hI head.inclusion).bind fun _ => .pure _

end Rule

/-! ## No loop runs out of steps -/

section Loops
variable {m : Type → Type} [Monad m] [MonadExceptOf Unit m]

namespace Liveness
variable {patterns stack : List Rule} {entries : List (String × Rule)} {found names known : List String}

/-- Every rule on the stack is a pattern or an entry found for the first time. -/
theorem followWithin_eq (k : Nat) (h : Searching patterns entries found stack)
    (hk : stack.length + entries.length ≤ k + found.length) (n : Nat) (hn : k ≤ n) :
    followWithin entries n found stack = (pure (follow entries k found stack) : m (List String)) := by
  induction k generalizing found stack n with
  | zero =>
    have := h.length_le
    obtain rfl : stack = [] := List.eq_nil_of_length_eq_zero (by omega)
    rw [followWithin]
    rfl
  | succ k ih =>
    cases stack with
    | nil =>
      rw [followWithin]
      rfl
    | cons r stack =>
      obtain ⟨n, rfl⟩ : ∃ j, n = j + 1 := ⟨n - 1, by omega⟩
      obtain ⟨fresh, hf, hnodup, hm⟩ := discover_spec entries found r.entryInclusions
      have hlen := length_filterMap_get? fun n hn => ((hm n).1 hn).2.1
      rw [follow_cons hf, followWithin]
      simp only [hf, List.drop_left]
      refine ih (h.next hnodup hm) ?_ n (by omega)
      simp only [List.length_append, List.length_reverse, hlen, List.length_cons] at hk ⊢
      omega

theorem followWithin_reachable (patterns : List Rule) (entries : List (String × Rule)) (n : Nat)
    (hn : patterns.length + entries.length ≤ n) :
    followWithin entries n [] patterns.reverse = (pure (reachable patterns entries) : m (List String)) :=
  followWithin_eq _ Searching.start (by simp) n hn

/-- The entries known are among the names, each once. -/
structure Among (names known : List String) : Prop where
  nodup : known.Nodup
  mem : ∀ n ∈ known, n ∈ names

theorem among_nil (names : List String) : Among names [] := ⟨List.nodup_nil, by simp⟩

theorem Among.length_le (h : Among names known) : known.length ≤ names.length := (h.nodup.subperm h.mem).length_le

theorem Among.concat {name : String} (h : Among names known) (hn : name ∈ names) (hk : name ∉ known) :
    Among names (known ++ [name]) where
  nodup := List.nodup_append.2 ⟨h.nodup, by simp, by simpa using fun a ha => ne_of_mem_of_not_mem ha hk⟩
  mem n hm := by
    rcases List.mem_append.1 hm with hm | hm
    · exact h.mem n hm
    · exact List.mem_singleton.1 hm ▸ hn

theorem round_ends (s : Surroundings Inquiry) {looked : List String} (h : Among names known)
    (hl : ∀ n ∈ looked, n ∈ names) :
    (round s entries known looked).Ends fun known' => Among names known' ∧ known.length ≤ known'.length := by
  induction looked generalizing known with
  | nil => exact ⟨h, Nat.le_refl _⟩
  | cons name looked ih =>
    have hlooked : ∀ n ∈ looked, n ∈ names := fun n hn => hl n (List.mem_cons_of_mem name hn)
    rw [round]
    split
    · exact ih h hlooked
    · next hk =>
      cases Assoc.get? entries name with
      | none => exact ih h hlooked
      | some rule =>
        refine (Inquiry.ends_true _).bind fun b _ => ?_
        cases b with
        | false => exact ih h hlooked
        | true =>
          refine (ih (h.concat (hl name List.mem_cons_self) (by simpa using hk)) hlooked).mono fun known' hk' => ?_
          have := hk'.2
          rw [List.length_append, List.length_singleton] at this
          exact ⟨hk'.1, by omega⟩

theorem rounds_ends (s : Surroundings Inquiry) (entries : List (String × Rule)) (k : Nat) (h : Among names known) :
    (rounds s entries names k known).Ends (Among names) := by
  induction k generalizing known with
  | zero => exact h
  | succ k ih =>
    rw [rounds]
    refine (round_ends s h fun _ hn => hn).bind fun known' hk' => ?_
    split
    · exact hk'.1
    · exact ih hk'.1

variable [LawfulMonad m]

/-- Every round but the last finds an entry. -/
theorem roundsWithin_eq (s : Surroundings m) (k : Nat) (h : Among names known)
    (hk : names.length + 1 ≤ k + known.length) (n : Nat) (hn : k ≤ n) :
    roundsWithin s entries names n known = rounds s entries names k known := by
  induction k generalizing known n with
  | zero =>
    have := h.length_le
    omega
  | succ k ih =>
    obtain ⟨n, rfl⟩ : ∃ j, n = j + 1 := ⟨n - 1, by omega⟩
    rw [roundsWithin, rounds, ← round_inquired s (fun _ => throw ()) entries]
    refine (round_ends s.inquired h fun _ hn => hn).perform_bind_congr fun known' hk' => ?_
    split
    · rfl
    · exact ih hk'.1 (by omega) n (by omega)

theorem roundsWithin_liveEntries (s : Surroundings m) (entries : List (String × Rule)) (names : List String) (n : Nat)
    (hn : names.length + 1 ≤ n) : roundsWithin s entries names n [] = liveEntries s entries names :=
  roundsWithin_eq s _ (among_nil names) (by simp) n hn

end Liveness

namespace PruneWalk
variable {live drained : List String} {entries : List (String × Rule)} {w : PruneWalk}

theorem kept_draining (live drained : List String) : Rule.Kept live (Draining live drained) where
  mark _ _ hn h := h.mark hn
  remove _ _ h := ⟨h.nodup, h.perm, h.live⟩

/-- There are no more entries pending than have still to be drained. -/
theorem Draining.length_pending_le (h : Draining live drained w) (hl : ∀ n ∈ live, n ∈ Assoc.keys entries) :
    drained.length + w.pending.length ≤ entries.length := by
  have hlen := (h.nodup.subperm fun n hn => hl n (h.live n hn)).length_le
  rwa [h.perm.length_eq, List.length_append, Assoc.keys, List.length_map] at hlen

variable [LawfulMonad m] {c : PruneContext m}

theorem drainWithin_nil (hp : w.pending = []) (n : Nat) : (drainWithin c n entries).run w = pure (entries, w) := by
  cases n <;> simp [drainWithin, hp]

theorem drainWithin_run (n : Nat) {name : String} {pending : List String} (hp : w.pending = name :: pending) :
    (drainWithin c (n + 1) entries).run w =
      match Assoc.get? entries name with
      | none => (drainWithin c n entries).run { w with pending }
      | some rule => (rule.prune c).run { w with pending } >>= fun p =>
        (drainWithin c n (Assoc.put entries name p.1.2)).run p.2 := by
  rw [drainWithin, StateT.run_bind, StateT.run_get, pure_bind, hp]
  dsimp only
  rw [StateT.run_bind, StateT.run_modify, pure_bind]
  cases Assoc.get? entries name with
  | none => rfl
  | some rule => rfl

/-- Every step drains an entry that was marked, and each is marked once. -/
theorem drainWithin_eq (k : Nat) (h : Draining c.live drained w) (hl : ∀ n ∈ c.live, n ∈ Assoc.keys entries)
    (hk : entries.length ≤ k + drained.length) (n : Nat) (hn : k ≤ n) :
    (drainWithin c n entries).run w = (drain c k entries).run w := by
  induction k generalizing entries drained w n with
  | zero =>
    have hp : w.pending.length = 0 := by
      have := h.length_pending_le hl
      omega
    rw [drainWithin_nil (List.eq_nil_of_length_eq_zero hp)]
    rfl
  | succ k ih =>
    obtain ⟨n, rfl⟩ : ∃ j, n = j + 1 := ⟨n - 1, by omega⟩
    rw [drain_run]
    cases hp : w.pending with
    | nil => exact drainWithin_nil hp _
    | cons name pending =>
      have hname : name ∈ Assoc.keys entries := hl name (h.live name (h.perm.mem_iff.2 (by simp [hp])))
      obtain ⟨rule, he⟩ := Assoc.exists_of_mem_keys hname
      have hpop := h.pop hp
      dsimp only
      rw [drainWithin_run n hp, he]
      dsimp only
      rw [← Rule.prune_inquired rule]
      have hends := Rule.prune_steady (c := c.inquired) (kept_draining c.live (drained ++ [name])) rule _ hpop
      refine hends.perform_bind_congr fun p hp => ih hp ?_ ?_ n (by omega)
      · rwa [Assoc.keys_put, if_pos hname]
      · have hlen : (Assoc.put entries name p.1.2).length = entries.length := by
          have hkeys := congrArg List.length (Assoc.keys_put entries name p.1.2)
          rwa [if_pos hname, Assoc.keys, Assoc.keys, List.length_map, List.length_map] at hkeys
        rw [hlen, List.length_append, List.length_singleton]
        omega

end PruneWalk

namespace Grammar
variable [LawfulMonad m]

/-- With enough steps for each loop a walk does not run out of them. -/
theorem pruneRulesWithin_eq (s : Surroundings m) (diagnose : Diagnostic → m Unit) (g : Grammar) (n : Nat)
    (hn : g.steps ≤ n) : g.pruneRulesWithin n s diagnose = g.pruneRules s diagnose := by
  unfold steps at hn
  unfold pruneRulesWithin
  split
  · next hg =>
    have hlen := (Liveness.searching_reachable g.patterns g.entries).length_le
    have hends := Liveness.rounds_ends s.inquired g.entries ((Liveness.reachable g.patterns g.entries).length + 1)
      (Liveness.among_nil (Liveness.reachable g.patterns g.entries))
    rw [pruneRules_some s diagnose hg, Liveness.followWithin_reachable _ _ n (by omega), pure_bind,
      Liveness.roundsWithin_liveEntries _ _ _ n (by omega), Liveness.liveEntries,
      ← Liveness.rounds_inquired s diagnose]
    refine hends.perform_bind_congr fun live hlive => ?_
    have hkeys : ∀ k ∈ live, k ∈ Assoc.keys g.entries := fun k hk =>
      Assoc.contains_iff_mem_keys.1 (Liveness.mem_reachable.1 (hlive.mem k hk)).contains
    have hlist : Steady (PruneWalk.Draining live []) (Rule.pruneList (g.context s diagnose live).inquired g.patterns) :=
      Rule.pruneList_steady_of fun r _ => Rule.prune_steady (PruneWalk.kept_draining live []) r
    rw [← Rule.pruneList_inquired_of (c := g.context s diagnose live) fun r _ => Rule.prune_inquired r]
    refine (hlist {} ⟨List.nodup_nil, .refl _, by simp⟩).perform_bind_congr fun p hp => ?_
    have hdrain := PruneWalk.drainWithin_eq (c := g.context s diagnose live) g.entries.length hp hkeys (by simp) n
      (by omega)
    exact congrArg (· >>= _) hdrain
  · next hg => exact (pruneRules_none s diagnose (by simpa using hg)).symm

end Grammar

end Loops

end ScopeActions
