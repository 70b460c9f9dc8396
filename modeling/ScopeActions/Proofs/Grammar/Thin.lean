import ScopeActions.Proofs.Grammar.Leave
/-!
# What is taken out of a walk

A rule that is restricted to what is live has the trail that it had, but for rules that give nothing to keep
(`Rule.trail_cuts`). So a walk through it takes the same course as before and asks the same, but for grammars that
are not kept: what it asks thins what was asked. `Liveness.liveEntries_left` says this of the search for live
entries.
-/

namespace ScopeActions

/-! ## Thinning -/

/-- The second list is the first but for some grammars that are not kept. -/
inductive Thins (o : String → Bool) : List String → List String → Prop
  | nil : Thins o [] []
  | keep {l l' : List String} (s : String) : Thins o l l' → Thins o (s :: l) (s :: l')
  | drop {l l' : List String} {s : String} : o s = false → Thins o l l' → Thins o (s :: l) l'

namespace Thins
variable {o : String → Bool} {l l' k k' : List String}

theorem refl (o : String → Bool) (l : List String) : Thins o l l := by
  induction l with
  | nil => exact .nil
  | cons s l ih => exact .keep s ih

theorem append (h : Thins o l l') (hk : Thins o k k') : Thins o (l ++ k) (l' ++ k') := by
  induction h with
  | nil => exact hk
  | keep s _ ih => exact .keep s ih
  | drop hs _ ih => exact .drop hs ih

theorem trans (h : Thins o l l') (h' : Thins o l' k) : Thins o l k := by
  induction h generalizing k with
  | nil => exact h'
  | keep s _ ih =>
    cases h' with
    | keep _ h' => exact .keep s (ih h')
    | drop hs h' => exact .drop hs (ih h')
  | drop hs _ ih => exact .drop hs (ih h')

theorem of_forall (h : ∀ s ∈ l, o s = false) : Thins o l [] := by
  induction l with
  | nil => exact .nil
  | cons s l ih => exact .drop (h s List.mem_cons_self) (ih fun t ht => h t (List.mem_cons_of_mem s ht))

theorem append_left (h : ∀ s ∈ k, o s = false) (hl : Thins o l l') : Thins o (k ++ l) l' :=
  (of_forall h).append hl

theorem flatMap {α : Type} {f f' : α → List String} (xs : List α) (h : ∀ x ∈ xs, Thins o (f x) (f' x)) :
    Thins o (xs.flatMap f) (xs.flatMap f') := by
  induction xs with
  | nil => exact .nil
  | cons x xs ih =>
    rw [List.flatMap_cons, List.flatMap_cons]
    exact (h x List.mem_cons_self).append (ih fun y hy => h y (List.mem_cons_of_mem x hy))

end Thins

namespace Rule

/-- The second list is the first with its rules restricted, but for some whose heads give nothing. -/
inductive Cuts (p : Rule → Bool) (w : RuleHead → Bool) : List Rule → List Rule → Prop
  | nil : Cuts p w [] []
  | keep {rs rs' : List Rule} (r : Rule) : Cuts p w rs rs' → Cuts p w (r :: rs) (r.restrict p :: rs')
  | drop {rs rs' : List Rule} {r : Rule} : w r.head = false → Cuts p w rs rs' → Cuts p w (r :: rs) rs'

section Cuts
variable {p : Rule → Bool} {w : RuleHead → Bool} {rs rs' qs qs' : List Rule}

theorem Cuts.append (h : Cuts p w rs rs') (hq : Cuts p w qs qs') : Cuts p w (rs ++ qs) (rs' ++ qs') := by
  induction h with
  | nil => exact hq
  | keep r _ ih => exact .keep r ih
  | drop hr _ ih => exact .drop hr ih

theorem Cuts.of_forall (h : ∀ r ∈ rs, w r.head = false) : Cuts p w rs [] := by
  induction rs with
  | nil => exact .nil
  | cons r rs ih => exact .drop (h r List.mem_cons_self) (ih fun x hx => h x (List.mem_cons_of_mem r hx))

/-- What is below a rule that has nothing accepted below it is not accepted. -/
theorem head_eq_false {r x : Rule} (hr : r.anyHead w = false) (hx : x ∈ r.visit false) : w x.head = false := by
  rw [← Bool.not_eq_true]
  intro h
  rw [anyHead_iff.2 ⟨x, hx, h⟩] at hr
  cases hr

variable {f : Rule → List Rule}

/-- All rules of a list are restricted. -/
theorem Cuts.flatMap_restrict (h : ∀ r ∈ rs, Cuts p w (f r) (f (r.restrict p))) :
    Cuts p w (rs.flatMap f) ((rs.map (restrict p)).flatMap f) := by
  induction rs with
  | nil => exact .nil
  | cons r rs ih =>
    rw [List.flatMap_cons, List.map_cons, List.flatMap_cons]
    exact (h r List.mem_cons_self).append (ih fun x hx => h x (List.mem_cons_of_mem r hx))

/-- The rules of a list that have something accepted below them are restricted, and the others taken out. -/
theorem Cuts.flatMap_filter (hf : ∀ r x, x ∈ f r → x ∈ r.visit false)
    (h : ∀ r ∈ rs, Cuts (anyHead w) w (f r) (f (r.restrict (anyHead w)))) :
    Cuts (anyHead w) w (rs.flatMap f) (((rs.filter (anyHead w)).map (restrict (anyHead w))).flatMap f) := by
  induction rs with
  | nil => exact .nil
  | cons r rs ih =>
    have hrs := ih fun x hx => h x (List.mem_cons_of_mem r hx)
    rw [List.flatMap_cons]
    by_cases hr : r.anyHead w = true
    · rw [List.filter_cons_of_pos hr, List.map_cons, List.flatMap_cons]
      exact (h r List.mem_cons_self).append hrs
    · rw [List.filter_cons_of_neg hr]
      rw [Bool.not_eq_true] at hr
      exact (Cuts.of_forall fun x hx => head_eq_false hr (hf r x hx)).append hrs

theorem trail_cuts (r : Rule) : Cuts (anyHead w) w r.trail (r.restrict (anyHead w)).trail := by
  induction r with
  | node r ih =>
    rw [trail_eq, trail_eq, children, children, captured_restrict, patternList_restrict, List.flatMap_append,
      List.flatMap_append]
    refine (Cuts.append ?_ ?_).append (.keep r .nil)
    · exact Cuts.flatMap_restrict fun c hc => ih c (mem_children.2 (.inl hc))
    · exact Cuts.flatMap_filter (fun r x => mem_trail.1) fun c hc => ih c (mem_children.2 (.inr hc))

theorem visit_cuts (r : Rule) : Cuts (anyHead w) w (r.visit false) ((r.restrict (anyHead w)).visit false) := by
  induction r with
  | node r ih =>
    rw [visit_eq, visit_eq, captured_restrict, patternList_restrict]
    refine .keep r (Cuts.append ?_ ?_)
    · exact Cuts.flatMap_filter (fun r x hx => hx) fun c hc => ih c (mem_children.2 (.inr hc))
    · exact Cuts.flatMap_restrict fun c hc => ih c (mem_children.2 (.inl hc))

end Cuts

end Rule

namespace Verdicts
variable {V : Verdicts} {live known : List String} {rs rs' : List Rule} {r : Rule}

/-- A loaded grammar that does not make a rule live is not kept. -/
theorem on_eq_false {t : String} (hl : V.loaded.contains t = true) (h : V.foreign t = false) : V.on t = false := by
  unfold foreign at h
  rwa [if_pos hl] at h

/-- Restricting to what is seen to be live by more does not change what is seen. -/
theorem sees_restrict (h : ∀ n ∈ known, n ∈ live) (r : Rule) :
    V.sees known (r.restrict (V.sees live)) = V.sees known r :=
  Rule.anyHead_restrict (fun _ hx => gives_mono h hx) r

theorem any_restrict (h : ∀ n ∈ known, n ∈ live) (rs : List Rule) :
    (rs.map (Rule.restrict (V.sees live))).any (V.sees known) = rs.any (V.sees known) := by
  rw [List.any_map]
  exact congrArg rs.any (funext fun r => sees_restrict h r)

/-- What is taken out of a list is not seen to be live. -/
theorem any_filter (h : ∀ n ∈ known, n ∈ live) (rs : List Rule) :
    (rs.filter (V.sees live)).any (V.sees known) = rs.any (V.sees known) := by
  rw [List.any_filter]
  refine congrArg rs.any (funext fun r => ?_)
  have hmono : V.sees known r = true → V.sees live r = true := gives_mono h
  cases hr : V.sees known r with
  | false => exact Bool.and_false _
  | true => rw [hmono hr, Bool.and_true]

theorem marked?_eq_none (h : r.head.gives V.keep V.foreign live = false) : r.marked? live = none := by
  unfold Rule.marked?
  split
  · next n hi =>
    rw [← Bool.not_eq_true, gives_iff] at h
    rw [if_neg]
    intro hn
    exact h (.inr (.inl ⟨n, List.contains_iff_mem.1 hn, hi⟩))
  · rfl

theorem on_of_foreign? (h : r.head.gives V.keep V.foreign live = false) {t : String}
    (ht : r.foreign? V.loaded = some t) : V.on t = false := by
  unfold Rule.foreign? at ht
  split at ht
  · next u hi =>
    split at ht
    · next hl =>
      obtain rfl := Option.some.inj ht
      rw [← Bool.not_eq_true, gives_iff] at h
      refine on_eq_false hl ?_
      rw [← Bool.not_eq_true]
      intro hu
      exact h (.inr (.inr ⟨u, hu, hi⟩))
    · cases ht
  · cases ht

/-- What is taken out of a trail marks nothing. -/
theorem marks_of_cuts (h : Rule.Cuts (V.sees live) (RuleHead.gives V.keep V.foreign live) rs rs') :
    rs'.filterMap (Rule.marked? live) = rs.filterMap (Rule.marked? live) := by
  induction h with
  | nil => rfl
  | keep r _ ih =>
    have hr : (r.restrict (V.sees live)).marked? live = r.marked? live := by simp [Rule.marked?]
    rw [List.filterMap_cons, List.filterMap_cons, hr, ih]
  | drop hr _ ih => rw [ih, List.filterMap_cons, marked?_eq_none hr]

/-- What is taken out of a trail asks only about what is not kept. -/
theorem asks_of_cuts (h : Rule.Cuts (V.sees live) (RuleHead.gives V.keep V.foreign live) rs rs') :
    Thins V.on (rs.filterMap (Rule.foreign? V.loaded)) (rs'.filterMap (Rule.foreign? V.loaded)) := by
  induction h with
  | nil => exact .nil
  | keep r _ ih =>
    have hr : (r.restrict (V.sees live)).foreign? V.loaded = r.foreign? V.loaded := by simp [Rule.foreign?]
    rw [List.filterMap_cons, List.filterMap_cons, hr]
    cases r.foreign? V.loaded with
    | none => exact ih
    | some t => exact .keep t ih
  | @drop rs rs' r hr _ ih =>
    rw [List.filterMap_cons]
    cases ht : r.foreign? V.loaded with
    | none => exact ih
    | some t => exact .drop (on_of_foreign? hr ht) ih

/-- Nothing is taken out of a restricted rule once more. -/
theorem cut_restrict (r : Rule) : (r.restrict (V.sees live)).cut (V.sees live) = 0 := by
  have hall : (r.restrict (V.sees live)).patternList.filter (V.sees live) = (r.restrict (V.sees live)).patternList := by
    rw [Rule.patternList_restrict, List.filter_eq_self]
    intro c hc
    obtain ⟨d, hd, rfl⟩ := List.mem_map.1 hc
    rw [sees_restrict fun _ hn => hn]
    exact (List.mem_filter.1 hd).2
  rw [Rule.cut, hall, Nat.sub_self]

/-- Walking through the rules that are left has the effect that it had, but it removes nothing. -/
theorem effect_of_cuts (h : Rule.Cuts (V.sees live) (RuleHead.gives V.keep V.foreign live) rs rs')
    (hr : ∀ r ∈ rs', ∃ x, r = Rule.restrict (V.sees live) x) :
    (V.effect live rs').marks = (V.effect live rs).marks ∧ (V.effect live rs').removed = 0 ∧
      Thins V.on (V.effect live rs).asks (V.effect live rs').asks := by
  refine ⟨marks_of_cuts h, ?_, asks_of_cuts h⟩
  refine List.sum_eq_zero_iff_forall_eq_nat.2 fun n hn => ?_
  obtain ⟨r, hr', rfl⟩ := List.mem_map.1 hn
  obtain ⟨x, rfl⟩ := hr r hr'
  exact cut_restrict x

end Verdicts

/-! ## Searching for live rules again -/

namespace Inquiry
variable {V : Verdicts} {live known : List String}

/-- A search that finds a rule not live has been told of every grammar that it is not kept. -/
theorem on_of_asked_live {r : Rule} (h : V.sees known r = false) {t : String}
    (ht : t ∈ (r.live V.inquired known).asked V.on) : V.on t = false := by
  obtain ⟨hl, hm⟩ := mentions_of_asked_live V known ht
  exact Verdicts.on_eq_false hl (foreign_eq_false_of_mentions h hm)

theorem thins_orM {o : String → Bool} {x x' y y' : Inquiry Bool} (hx : Thins o (x.asked o) (x'.asked o))
    (hv : x'.value o = x.value o) (hy : Thins o (y.asked o) (y'.asked o)) :
    Thins o ((x <||> y).asked o) ((x' <||> y').asked o) := by
  rw [asked_orM, asked_orM, hv]
  refine hx.append ?_
  split
  · exact .nil
  · exact hy

theorem value_liveList_sees (rs : List Rule) :
    (Rule.liveList V.inquired known rs).value V.on = rs.any (V.sees known) := by
  rw [value_liveList]
  exact congrArg rs.any (funext fun r => value_live V known r)

theorem value_live_restrict (h : ∀ n ∈ known, n ∈ live) (r : Rule) :
    ((r.restrict (V.sees live)).live V.inquired known).value V.on = (r.live V.inquired known).value V.on := by
  rw [value_live, value_live, Verdicts.sees_restrict h]

/-- The search in a list of rules asks the same when they are restricted, but for what is not kept. -/
theorem liveList_thins {rs : List Rule} (h : ∀ n ∈ known, n ∈ live)
    (hrs : ∀ r ∈ rs, Thins V.on ((r.live V.inquired known).asked V.on)
      (((r.restrict (V.sees live)).live V.inquired known).asked V.on)) :
    Thins V.on ((Rule.liveList V.inquired known rs).asked V.on)
      ((Rule.liveList V.inquired known (rs.map (Rule.restrict (V.sees live)))).asked V.on) := by
  induction rs with
  | nil => exact .nil
  | cons r rs ih =>
    refine thins_orM (hrs r List.mem_cons_self) (value_live_restrict h r) ?_
    exact ih fun x hx => hrs x (List.mem_cons_of_mem r hx)

/-- The search in a list of rules asks the same when those not live are taken out, but for what is not kept. -/
theorem liveList_filter_thins (h : ∀ n ∈ known, n ∈ live) (rs : List Rule) :
    Thins V.on ((Rule.liveList V.inquired known rs).asked V.on)
      ((Rule.liveList V.inquired known (rs.filter (V.sees live))).asked V.on) := by
  induction rs with
  | nil => exact .nil
  | cons r rs ih =>
    by_cases hr : V.sees live r = true
    · rw [List.filter_cons_of_pos hr]
      exact thins_orM (.refl _ _) rfl ih
    -- a rule taken out was not seen to be live, so the search went on behind it
    · have hknown : V.sees known r = false := by
        rw [← Bool.not_eq_true]
        intro hs
        exact hr (gives_mono h hs)
      rw [List.filter_cons_of_neg hr, Rule.liveList, asked_orM, value_live, hknown, if_neg Bool.false_ne_true]
      exact Thins.append_left (fun t => on_of_asked_live hknown) ih

/-- The search in what is left of a rule asks the same, but for what is not kept. -/
theorem live_thins (h : ∀ n ∈ known, n ∈ live) (r : Rule) :
    Thins V.on ((r.live V.inquired known).asked V.on)
      (((r.restrict (V.sees live)).live V.inquired known).asked V.on) := by
  induction r with
  | node r ih =>
    rw [Rule.live_eq, Rule.live_eq _ _ (Rule.restrict _ _), Rule.labels_restrict, Rule.captured_restrict,
      Rule.patternList_restrict, Rule.head_restrict]
    have hc := liveList_thins h fun c hc => ih c (Rule.mem_children.2 (.inl hc))
    have hp := (liveList_filter_thins h r.patternList).trans (liveList_thins h fun c hc =>
      ih c (Rule.mem_children.2 (.inr (List.mem_filter.1 hc).1)))
    refine thins_orM (.refl _ _) rfl (thins_orM hc ?_ (thins_orM hp ?_ (.refl _ _)))
    · rw [value_liveList_sees, value_liveList_sees, Verdicts.any_restrict h]
    · rw [value_liveList_sees, value_liveList_sees, Verdicts.any_restrict h, Verdicts.any_filter h]

end Inquiry

/-! ## Searching for live entries again -/

namespace Liveness
variable {V : Verdicts} {live known names : List String} {entries entries' : List (String × Rule)}

/-- The second entries are what is left of the first: the live ones, restricted. -/
def Left (V : Verdicts) (live : List String) (entries entries' : List (String × Rule)) : Prop :=
  ∀ n, Assoc.get? entries' n =
    if n ∈ live then (Assoc.get? entries n).map (Rule.restrict (V.sees live)) else none

/-- A live entry is looked at with the same result. -/
theorem look_left (hl : Left V live entries entries') (hk : ∀ n ∈ known, n ∈ live) {name : String} (hn : name ∈ live) :
    look V entries' known name = look V entries known name ∧
      Thins V.on (lookAsked V entries known name) (lookAsked V entries' known name) := by
  unfold look lookAsked
  rw [hl name, if_pos hn]
  split
  · exact ⟨rfl, .nil⟩
  · cases Assoc.get? entries name with
    | none => exact ⟨rfl, .nil⟩
    | some e =>
      rw [Option.map_some]
      dsimp only
      rw [Verdicts.sees_restrict hk]
      exact ⟨rfl, Inquiry.live_thins hk e⟩

/-- An entry that is not live is looked at without a result. -/
theorem look_not_live (hf : Fixed V entries names live) (hk : ∀ n ∈ known, n ∈ live) {name : String}
    (hname : name ∈ names) (hn : name ∉ live) :
    look V entries known name = known ∧ ∀ t ∈ lookAsked V entries known name, V.on t = false := by
  have hknown : ¬known.contains name = true := fun h => hn (hk name (List.contains_iff_mem.1 h))
  unfold look lookAsked
  rw [if_neg hknown, if_neg hknown]
  cases he : Assoc.get? entries name with
  | none => exact ⟨rfl, fun t ht => by cases ht⟩
  | some e =>
    have hsees : V.sees known e = false := by
      rw [← Bool.not_eq_true]
      intro hs
      exact hn (hf name hname e he (gives_mono hk hs))
    dsimp only
    rw [if_neg (by simp [hsees])]
    exact ⟨rfl, fun t => Inquiry.on_of_asked_live hsees⟩

theorem mem_live_of_mem_look (hk : ∀ n ∈ known, n ∈ live) {name : String} (hn : name ∈ live) :
    ∀ n ∈ look V entries known name, n ∈ live := by
  intro n hm
  rcases look_eq_or V entries known name with he | ⟨-, he, -⟩
  · exact hk n (he ▸ hm)
  · rw [he, List.mem_append] at hm
    rcases hm with hm | hm
    · exact hk n hm
    · exact List.mem_singleton.1 hm ▸ hn

/-- A round through the entries that are left finds the same. -/
theorem round_left (hl : Left V live entries entries') (hf : Fixed V entries names live)
    (hk : ∀ n ∈ known, n ∈ live) :
    (round V.inquired entries' known (names.filter live.contains)).value V.on =
        (round V.inquired entries known names).value V.on ∧
      Thins V.on ((round V.inquired entries known names).asked V.on)
        ((round V.inquired entries' known (names.filter live.contains)).asked V.on) ∧
      ∀ n ∈ (round V.inquired entries known names).value V.on, n ∈ live := by
  induction names generalizing known with
  | nil => exact ⟨rfl, .nil, hk⟩
  | cons name names ih =>
    have hf' : Fixed V entries names live := fun n hn => hf n (List.mem_cons_of_mem name hn)
    obtain ⟨hv, ha⟩ := round_cons V entries known name names
    by_cases hn : name ∈ live
    · obtain ⟨hlook, hasked⟩ := look_left hl hk hn
      obtain ⟨hv', ha'⟩ := round_cons V entries' known name (names.filter live.contains)
      obtain ⟨h1, h2, h3⟩ := ih hf' (mem_live_of_mem_look (V := V) hk hn)
      rw [List.filter_cons_of_pos (List.contains_iff_mem.2 hn), hv, ha, hv', ha', hlook]
      exact ⟨h1, hasked.append h2, h3⟩
    · obtain ⟨hlook, hasked⟩ := look_not_live hf hk List.mem_cons_self hn
      have hcontains : ¬live.contains name = true := fun h => hn (List.contains_iff_mem.1 h)
      obtain ⟨h1, h2, h3⟩ := ih hf' hk
      rw [List.filter_cons_of_neg hcontains, hv, ha, hlook]
      exact ⟨h1, h2.append_left hasked, h3⟩

/-- So do all rounds, with enough of them in both searches. -/
theorem rounds_left (hl : Left V live entries entries') (hf : Fixed V entries names live) (n m : Nat)
    (h : Known V entries names known) (hk : ∀ n ∈ known, n ∈ live) (hn : names.length + 1 ≤ n + known.length)
    (hm : (names.filter live.contains).length + 1 ≤ m + known.length) :
    (rounds V.inquired entries' (names.filter live.contains) m known).value V.on =
        (rounds V.inquired entries names n known).value V.on ∧
      Thins V.on ((rounds V.inquired entries names n known).asked V.on)
        ((rounds V.inquired entries' (names.filter live.contains) m known).asked V.on) := by
  induction n generalizing m known with
  | zero =>
    have := h.length_le
    omega
  | succ n ih =>
    -- what is known is among the live names, so the second search has steps left as long as the first has
    have hlen : known.length ≤ (names.filter live.contains).length := by
      refine (h.nodup.subperm fun k hk' => ?_).length_le
      exact List.mem_filter.2 ⟨h.mem k hk', List.contains_iff_mem.2 (hk k hk')⟩
    obtain ⟨m, rfl⟩ : ∃ k, m = k + 1 := ⟨m - 1, by omega⟩
    obtain ⟨hv, ha, hlive⟩ := round_left hl hf hk
    have hround := h.round fun n (hn : n ∈ names) => hn
    have hgrow := (prefix_round V entries known names).length_le
    unfold rounds
    rw [Inquiry.value_bind, Inquiry.value_bind, Inquiry.asked_bind, Inquiry.asked_bind, hv]
    split
    · exact ⟨rfl, ha.append .nil⟩
    · next hne =>
      obtain ⟨hv', ha'⟩ := ih m hround hlive (by omega) (by omega)
      exact ⟨hv', ha.append ha'⟩

/-- The search for live entries finds them again, in the same order, where only they are left. -/
theorem liveEntries_left (hlive : live = (liveEntries V.inquired entries names).value V.on)
    (hl : Left V live entries entries') :
    (liveEntries V.inquired entries' (names.filter live.contains)).value V.on = live ∧
      Thins V.on ((liveEntries V.inquired entries names).asked V.on)
        ((liveEntries V.inquired entries' (names.filter live.contains)).asked V.on) := by
  obtain ⟨hk, hf⟩ := liveEntries_spec V entries names
  rw [← hlive] at hk hf
  have hstart : Known V entries names [] := ⟨List.nodup_nil, fun _ h => (by cases h), fun _ h => (by cases h)⟩
  obtain ⟨hv, ha⟩ := rounds_left hl hf (names.length + 1) ((names.filter live.contains).length + 1) hstart
    (fun _ h => by cases h) (by simp) (by simp)
  unfold liveEntries at hlive ⊢
  exact ⟨hv.trans hlive.symm, ha⟩

end Liveness

end ScopeActions
