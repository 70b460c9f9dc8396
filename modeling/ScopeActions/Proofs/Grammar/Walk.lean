import Mathlib.Algebra.GroupWithZero.Nat
import ScopeActions.Proofs.Grammar.Liveness
/-!
# Walking through a rule

With the verdicts on other grammars given, pruning a rule restricts it to the rules that are seen to be
live, and what it does on the way can be read off the rules it passes (`Rule.prune_yields`).
-/

namespace ScopeActions

/-! ## The effect of a walk -/

/-- What a stretch of a walk does besides its result. -/
structure Effect where
  /-- The live entries included, in order. -/
  marks : List String := []
  /-- Number of patterns removed. -/
  removed : Nat := 0
  /-- The grammars asked about, in order. -/
  asks : List String := []

namespace Effect

/-- One effect after another. -/
def seq (d e : Effect) : Effect :=
  { marks := d.marks ++ e.marks, removed := d.removed + e.removed, asks := d.asks ++ e.asks }

@[simp] theorem seq_nil (e : Effect) : e.seq {} = e := by simp [seq]

theorem seq_assoc (d e f : Effect) : (d.seq e).seq f = d.seq (e.seq f) := by simp [seq, Nat.add_assoc]

end Effect

namespace Rule

/-- The live entry that the rule itself includes. -/
def marked? (live : List String) (r : Rule) : Option String :=
  match r.inclusion? with
  | some (.entry n) => if live.contains n then some n else none
  | _ => none

/-- The loaded grammar that the rule itself includes. -/
def foreign? (loaded : List String) (r : Rule) : Option String :=
  match r.inclusion? with
  | some (.grammar t) => if loaded.contains t then some t else none
  | _ => none

/-- Number of patterns of the rule that `p` rejects. -/
def cut (p : Rule → Bool) (r : Rule) : Nat :=
  r.patternList.length - (r.patternList.filter p).length

end Rule

/-- The effect of passing these rules. -/
def Verdicts.effect (V : Verdicts) (live : List String) (rs : List Rule) : Effect :=
  { marks := rs.filterMap (Rule.marked? live)
    removed := (rs.map (Rule.cut (V.sees live))).sum
    asks := rs.filterMap (Rule.foreign? V.loaded) }

theorem Verdicts.effect_append (V : Verdicts) (live : List String) (rs rs' : List Rule) :
    V.effect live (rs ++ rs') = (V.effect live rs).seq (V.effect live rs') := by
  simp [effect, Effect.seq]

theorem Verdicts.effect_one (V : Verdicts) (live : List String) (r : Rule) :
    V.effect live [r] =
      { marks := (r.marked? live).toList, removed := r.cut (V.sees live), asks := (r.foreign? V.loaded).toList } := by
  rw [effect, List.map_singleton, List.sum_singleton]
  cases h : r.marked? live <;> cases h' : r.foreign? V.loaded <;> simp [h, h']

namespace PruneWalk

/-- The state of a walk after an effect. -/
def after (w : PruneWalk) (e : Effect) : PruneWalk :=
  (e.marks.foldl mark w).remove e.removed

theorem mark_remove (w : PruneWalk) (k : Nat) (n : String) : (w.remove k).mark n = (w.mark n).remove k := by
  simp only [mark]
  rw [apply_ite (remove · k)]
  rfl

theorem foldl_mark_remove (w : PruneWalk) (k : Nat) (ns : List String) :
    ns.foldl mark (w.remove k) = (ns.foldl mark w).remove k := by
  induction ns generalizing w with
  | nil => rfl
  | cons n ns ih => rw [List.foldl_cons, mark_remove, ih, List.foldl_cons]

theorem removed_after (w : PruneWalk) (e : Effect) : (w.after e).removed = w.removed + e.removed := by
  have marks : ∀ (ns : List String) (w : PruneWalk), (ns.foldl mark w).removed = w.removed := by
    intro ns
    induction ns with
    | nil => exact fun _ => rfl
    | cons n ns ih =>
      intro w
      rw [List.foldl_cons, ih, mark]
      split <;> rfl
  exact congrArg (· + e.removed) (marks e.marks w)

theorem after_seq (w : PruneWalk) (d e : Effect) : w.after (d.seq e) = (w.after d).after e := by
  rw [after, after, after, foldl_mark_remove, Effect.seq, List.foldl_append]
  simp [remove, Nat.add_assoc]

end PruneWalk

/-- In every state the walk has this result and this effect. -/
def Yields {α : Type} (V : Verdicts) (x : StateT PruneWalk Inquiry α) (a : α) (e : Effect) : Prop :=
  ∀ w, (x.run w).value V.on = (a, w.after e) ∧ (x.run w).asked V.on = e.asks

namespace Yields
variable {α β : Type} {V : Verdicts} {x : StateT PruneWalk Inquiry α} {f : α → StateT PruneWalk Inquiry β}
  {a : α} {b : β} {d e : Effect}

theorem pure (a : α) : Yields V (pure a) a {} := fun _ => ⟨rfl, rfl⟩

theorem bind (hx : Yields V x a d) (hf : Yields V (f a) b e) : Yields V (x >>= f) b (d.seq e) := by
  intro w
  obtain ⟨hv, hs⟩ := hx w
  obtain ⟨hv', hs'⟩ := hf (w.after d)
  rw [StateT.run_bind, Inquiry.value_bind, Inquiry.asked_bind, hv, hs, hv', hs', PruneWalk.after_seq]
  exact ⟨rfl, rfl⟩

theorem bind_pure {g : α → β} (hx : Yields V x a e) : Yields V (x >>= fun a => Pure.pure (g a)) (g a) e := by
  simpa using hx.bind (f := fun a => Pure.pure (g a)) (pure (g a))

theorem congr {a' : α} {e' : Effect} (h : Yields V x a e) (ha : a = a') (he : e = e') : Yields V x a' e' :=
  ha ▸ he ▸ h

theorem remove (n : Nat) : Yields V (modify (PruneWalk.remove · n)) ⟨⟩ { removed := n } := fun _ => ⟨rfl, rfl⟩

end Yields

/-- A walk by inquiry. -/
def Verdicts.context (V : Verdicts) (grammar : String) (entries live : List String) : PruneContext Inquiry :=
  { surroundings := V.inquired, grammar, entries, live, diagnose := fun d => .report d (.done ()) }

namespace Rule
variable {V : Verdicts} {grammar : String} {entries live : List String}

/-! ## Pruning a rule -/

variable (V grammar) in
/-- What decides the include of a rule. -/
theorem keepInclusion_yields (hl : ∀ n ∈ live, n ∈ entries) (r : Rule) :
    Yields V (keepInclusion (V.context grammar entries live) r.head.inclusion)
      (match r.head.inclusion.map Inclusion.parse with
        | some (.entry n) => live.contains n
        | some (.grammar t) => V.foreign t
        | _ => false)
      { marks := (r.marked? live).toList, asks := (r.foreign? V.loaded).toList } := by
  intro w
  rw [marked?, foreign?, inclusion?]
  cases r.head.inclusion with
  | none => exact ⟨rfl, rfl⟩
  | some i =>
    rw [keepInclusion_run, Option.map_some]
    cases Inclusion.parse i with
    | reserved => exact ⟨rfl, rfl⟩
    | entry n =>
      change (if !entries.contains n then _ else if !live.contains n then pure (false, w)
        else pure (true, w.mark n) : Inquiry (Bool × PruneWalk)).value V.on = _ ∧
        (if !entries.contains n then _ else if !live.contains n then pure (false, w)
        else pure (true, w.mark n) : Inquiry (Bool × PruneWalk)).asked V.on = _
      dsimp only
      by_cases hn : live.contains n = true
      · have he : entries.contains n = true := by simpa using hl n (by simpa using hn)
        simp only [hn, he, Bool.not_true, Bool.false_eq_true, if_false, if_true]
        exact ⟨rfl, rfl⟩
      · simp only [hn]
        split <;> exact ⟨rfl, rfl⟩
    | grammar t =>
      change (if V.loaded.contains t then _ else if V.keep.contains t then pure (true, w) else _ :
        Inquiry (Bool × PruneWalk)).value V.on = _ ∧
        (if V.loaded.contains t then _ else if V.keep.contains t then pure (true, w) else _ :
        Inquiry (Bool × PruneWalk)).asked V.on = _
      dsimp only
      rw [Verdicts.foreign]
      split
      · exact ⟨rfl, rfl⟩
      · split
        · next h =>
          rw [h]
          exact ⟨rfl, rfl⟩
        · next h =>
          rw [Bool.not_eq_true] at h
          rw [h]
          exact ⟨rfl, rfl⟩

/-- Pruning the rule restricts it to what is live, and has the effect of passing the rules on its trail. -/
def PruneYields (V : Verdicts) (grammar : String) (entries live : List String) (r : Rule) : Prop :=
  Yields V (prune (V.context grammar entries live) r) (V.sees live r, r.restrict (V.sees live)) (V.effect live r.trail)

theorem pruneList_yields_of {rs : List Rule} (h : ∀ r ∈ rs, PruneYields V grammar entries live r) :
    Yields V (pruneList (V.context grammar entries live) rs) (restrictList (V.sees live) rs)
      (V.effect live (rs.flatMap trail)) := by
  induction rs with
  | nil => exact .pure []
  | cons r rs ih =>
    rw [pruneList, List.flatMap_cons, V.effect_append]
    refine (h r List.mem_cons_self).bind ?_
    have := (ih fun x hx => h x (List.mem_cons_of_mem r hx)).bind_pure
      (g := fun rs => if V.sees live r then r.restrict (V.sees live) :: rs else rs)
    rwa [← restrictList] at this

theorem pruneNamed_yields_of {es : List (String × Rule)} (h : ∀ r ∈ es.map (·.2), PruneYields V grammar entries live r) :
    Yields V (pruneNamed (V.context grammar entries live) es)
      ((es.map (·.2)).any (V.sees live), restrictNamed (V.sees live) es)
      (V.effect live ((es.map (·.2)).flatMap trail)) := by
  induction es with
  | nil => exact .pure (false, [])
  | cons e es ih =>
    rw [pruneNamed, List.map_cons, List.flatMap_cons, V.effect_append]
    refine (h e.2 List.mem_cons_self).bind ?_
    exact (ih fun x hx => h x (List.mem_cons_of_mem e.2 hx)).bind_pure
      (g := fun p => (V.sees live e.2 || p.1, (e.1, e.2.restrict (V.sees live)) :: p.2))

theorem pruneMap_yields_of {o : Option (List (String × Rule))}
    (h : ∀ r ∈ (o.getD []).map (·.2), PruneYields V grammar entries live r) :
    Yields V (pruneMap (V.context grammar entries live) o)
      (((o.getD []).map (·.2)).any (V.sees live), o.map (restrictNamed (V.sees live)))
      (V.effect live (((o.getD []).map (·.2)).flatMap trail)) := by
  cases o with
  | none => exact .pure (false, none)
  | some es => exact (pruneNamed_yields_of h).bind_pure (g := fun p => (p.1, some p.2))

theorem prunePatterns_yields_of {o : Option (List Rule)}
    (h : ∀ r ∈ o.getD [], PruneYields V grammar entries live r) :
    Yields V (prunePatterns (V.context grammar entries live) o)
      ((o.getD []).any (V.sees live), o.map (restrictList (V.sees live)))
      ((V.effect live ((o.getD []).flatMap trail)).seq
        { removed := (o.getD []).length - ((o.getD []).filter (V.sees live)).length }) := by
  cases o with
  | none => exact .pure (false, none)
  | some rs =>
    refine (pruneList_yields_of h).bind ?_
    rw [Option.getD_some, ← length_restrictList, ← not_isEmpty_restrictList]
    exact (Yields.remove _).bind_pure (g := fun _ => (!(restrictList (V.sees live) rs).isEmpty,
      some (restrictList (V.sees live) rs)))

variable (V grammar) in
theorem prune_yields (hl : ∀ n ∈ live, n ∈ entries) (r : Rule) : PruneYields V grammar entries live r := by
  induction r with
  | node r ih =>
    cases r with
    | mk head patterns repository captures begins ends =>
      have hp := prunePatterns_yields_of (o := patterns) fun r hr => ih r (mem_children.2 (.inr hr))
      have hm : ∀ o ∈ [captures, begins, ends], ∀ r ∈ (o.getD []).map (·.2), PruneYields V grammar entries live r := by
        intro o ho r hr
        exact ih r (mem_children.2 (.inl (mem_captured_mk ho hr)))
      have hi := keepInclusion_yields V grammar hl
        (.mk head patterns repository captures begins ends)
      rw [PruneYields, prune_mk]
      refine Yields.congr ((pruneMap_yields_of (hm captures (by simp))).bind ((pruneMap_yields_of (hm begins (by simp))).bind
        ((pruneMap_yields_of (hm ends (by simp))).bind (hp.bind hi.bind_pure)))) ?_ ?_
      · rw [restrict_mk, V.sees_eq, RuleHead.gives, captured, patternList]
        simp only [Rule.head, Rule.captures, beginCaptures, endCaptures, Rule.patterns, List.map_append, List.any_append]
        refine Prod.ext ?_ rfl
        change (((((_ || _) || _) || _) || _) || _) = ((_ || _) || (((_ || _) || _) || _))
        ac_rfl
      · rw [trail_eq, children, captured, patternList, V.effect_append, V.effect_one]
        simp only [Rule.captures, beginCaptures, endCaptures, Rule.patterns, List.map_append, List.flatMap_append,
          V.effect_append, Effect.seq_assoc]
        simp [Effect.seq, cut, patternList, Rule.patterns]

end Rule

end ScopeActions
