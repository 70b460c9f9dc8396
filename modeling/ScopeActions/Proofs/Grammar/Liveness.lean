import ScopeActions.Proofs.Grammar.Inquiry
import ScopeActions.Proofs.Grammar.Reachable
/-!
# Live entries

With the verdicts on other grammars given, a rule is live when one of the heads below it gives a scope to
keep (`Inquiry.value_live`). `Rule.LiveIn` is the least relation closed under what makes a rule live, and
`mem_liveEntries` says that the rounds find it: they stop at the entries that are live in it.
-/

namespace ScopeActions

/-- The head gives a scope to keep: by a label, or by including a known entry or a live grammar. -/
def RuleHead.gives (keep : ScopeSet) (foreign : String → Bool) (known : List String) (h : RuleHead) : Bool :=
  keep.containsAny (h.name.toList ++ h.contentName.toList) ||
    match h.inclusion.map Inclusion.parse with
    | some (.entry n) => known.contains n
    | some (.grammar t) => foreign t
    | _ => false

/-- The grammar of a scope is included by the rule or by one below it. -/
def Rule.Mentions (r : Rule) (t : String) : Prop :=
  ∃ x ∈ r.visit false, x.inclusion? = some (.grammar t)

/-- What decides the rules of a grammar from outside: the scopes to keep, the grammars loaded and the verdicts
on these. -/
structure Verdicts where
  keep : ScopeSet
  loaded : List String
  on : String → Bool

namespace Verdicts

/-- The verdict on a grammar, loaded or not. -/
def foreign (V : Verdicts) (scope : String) : Bool :=
  if V.loaded.contains scope then V.on scope else V.keep.contains scope

/-- The rule is seen to be live where `known` are the entries known to be. -/
def sees (V : Verdicts) (known : List String) (r : Rule) : Bool :=
  r.anyHead (RuleHead.gives V.keep V.foreign known)

theorem sees_eq (V : Verdicts) (known : List String) (r : Rule) :
    V.sees known r = (r.head.gives V.keep V.foreign known ||
      (r.captured.any (V.sees known) || r.patternList.any (V.sees known))) :=
  Rule.anyHead_eq r

/-- The surroundings of a walk by inquiry. -/
def inquired (V : Verdicts) : Surroundings Inquiry := Inquiry.surroundings V.keep V.loaded

end Verdicts

section Gives
variable {keep : ScopeSet} {foreign : String → Bool} {known : List String} {r : Rule}

theorem gives_iff : r.head.gives keep foreign known = true ↔
    keep.containsAny r.labels = true ∨ (∃ n ∈ known, r.inclusion? = some (.entry n)) ∨
      ∃ t, foreign t = true ∧ r.inclusion? = some (.grammar t) := by
  rw [RuleHead.gives, Bool.or_eq_true, ← Rule.labels]
  refine or_congr_right ?_
  change (match r.inclusion? with
    | some (.entry n) => known.contains n
    | some (.grammar t) => foreign t
    | _ => false) = true ↔ _
  cases r.inclusion? with
  | none => simp
  | some i => cases i <;> simp

theorem gives_mono {known' : List String} (h : ∀ n ∈ known, n ∈ known')
    (hr : r.anyHead (RuleHead.gives keep foreign known) = true) :
    r.anyHead (RuleHead.gives keep foreign known') = true := by
  obtain ⟨x, hx, hg⟩ := Rule.anyHead_iff.1 hr
  refine Rule.anyHead_iff.2 ⟨x, hx, gives_iff.2 ?_⟩
  rcases gives_iff.1 hg with hl | ⟨n, hn, hi⟩ | hf
  · exact .inl hl
  · exact .inr (.inl ⟨n, h n hn, hi⟩)
  · exact .inr (.inr hf)

/-- A rule that is not live mentions no live grammar. -/
theorem foreign_eq_false_of_mentions {t : String} (hr : r.anyHead (RuleHead.gives keep foreign known) = false)
    (ht : r.Mentions t) : foreign t = false := by
  obtain ⟨x, hx, hi⟩ := ht
  rw [← Bool.not_eq_true]
  intro hf
  rw [Rule.anyHead_iff.2 ⟨x, hx, gives_iff.2 (.inr (.inr ⟨t, hf, hi⟩))⟩] at hr
  cases hr

end Gives

/-! ## The least relation -/

/-- The rules that can give a scope to keep, where the verdicts on other grammars are given. -/
inductive Rule.LiveIn (keep : ScopeSet) (foreign : String → Bool) (entries : List (String × Rule)) : Rule → Prop
  | own {r : Rule} : keep.containsAny r.labels = true → LiveIn keep foreign entries r
  | child {r c : Rule} : c ∈ r.children → LiveIn keep foreign entries c → LiveIn keep foreign entries r
  | entry {r e : Rule} {n : String} : r.inclusion? = some (.entry n) → Assoc.get? entries n = some e →
      LiveIn keep foreign entries e → LiveIn keep foreign entries r
  | grammar {r : Rule} {t : String} : r.inclusion? = some (.grammar t) → foreign t = true →
      LiveIn keep foreign entries r

namespace Rule.LiveIn
variable {keep : ScopeSet} {foreign : String → Bool} {entries : List (String × Rule)} {known : List String}

theorem of_mem_visit {r x : Rule} (hx : x ∈ r.visit false) (h : LiveIn keep foreign entries x) :
    LiveIn keep foreign entries r := by
  induction r with
  | node r ih =>
    rcases mem_visit.1 hx with rfl | ⟨c, hc, hx⟩
    · exact h
    · exact .child hc (ih c hc hx)

/-- What is seen to be live is live, when all known entries are. -/
theorem of_anyHead {r : Rule}
    (hk : ∀ n ∈ known, ∃ e, Assoc.get? entries n = some e ∧ LiveIn keep foreign entries e)
    (h : r.anyHead (RuleHead.gives keep foreign known) = true) : LiveIn keep foreign entries r := by
  obtain ⟨x, hx, hg⟩ := anyHead_iff.1 h
  refine of_mem_visit hx ?_
  rcases gives_iff.1 hg with hl | ⟨n, hn, hi⟩ | ⟨t, ht, hi⟩
  · exact .own hl
  · obtain ⟨e, he, hl⟩ := hk n hn
    exact .entry hi he hl
  · exact .grammar hi ht

/-- What is live is seen to be live, when `known` has every entry among `names` that is seen to be live and
`names` has every entry that it leads to. -/
theorem anyHead (names : List String)
    (hn : ∀ n ∈ names, ∀ e, Assoc.get? entries n = some e →
      ∀ k ∈ e.entryInclusions, Assoc.contains entries k = true → k ∈ names)
    (hk : ∀ n ∈ names, ∀ e, Assoc.get? entries n = some e →
      e.anyHead (RuleHead.gives keep foreign known) = true → n ∈ known)
    {r : Rule} (h : LiveIn keep foreign entries r)
    (hr : ∀ k ∈ r.entryInclusions, Assoc.contains entries k = true → k ∈ names) :
    r.anyHead (RuleHead.gives keep foreign known) = true := by
  induction h with
  | own hl => exact anyHead_iff.2 ⟨_, self_mem_visit _, gives_iff.2 (.inl hl)⟩
  | child hc _ ih =>
    refine anyHead_of_child hc (ih fun k hk => hr k ?_)
    obtain ⟨x, hx, hi⟩ := mem_entryInclusions.1 hk
    exact mem_entryInclusions.2 ⟨x, mem_visit_of_child hc hx, hi⟩
  | @entry r e n hi he _ ih =>
    have hmem : n ∈ names := hr n (mem_entryInclusions.2 ⟨r, self_mem_visit r, hi⟩) (Assoc.contains_of_get? he)
    have hknown : n ∈ known := hk n hmem e he (ih (hn n hmem e he))
    exact anyHead_iff.2 ⟨r, self_mem_visit r, gives_iff.2 (.inr (.inl ⟨n, hknown, hi⟩))⟩
  | grammar hi ht => exact anyHead_iff.2 ⟨_, self_mem_visit _, gives_iff.2 (.inr (.inr ⟨_, ht, hi⟩))⟩

end Rule.LiveIn

/-! ## What the search for live rules finds and asks -/

namespace Inquiry
variable (V : Verdicts) (known : List String)

theorem value_foreignLive (t : String) : (V.inquired.foreignLive t).value V.on = V.foreign t := by
  rw [Verdicts.foreign]
  change (if V.loaded.contains t then Inquiry.ask t .done else pure (V.keep.contains t) : Inquiry Bool).value V.on = _
  split <;> rfl

theorem asked_foreignLive (t : String) :
    (V.inquired.foreignLive t).asked V.on = if V.loaded.contains t then [t] else [] := by
  change (if V.loaded.contains t then Inquiry.ask t .done else pure (V.keep.contains t) : Inquiry Bool).asked V.on = _
  split <;> rfl

theorem value_inclusionLive (i : Option String) :
    (Rule.inclusionLive V.inquired known i).value V.on =
      match i.map Inclusion.parse with
      | some (.entry n) => known.contains n
      | some (.grammar t) => V.foreign t
      | _ => false := by
  cases i with
  | none => rfl
  | some i =>
    rw [Rule.inclusionLive, Option.map_some]
    cases Inclusion.parse i with
    | reserved => rfl
    | entry n => rfl
    | grammar t => exact value_foreignLive V t

theorem asked_inclusionLive (i : Option String) :
    (Rule.inclusionLive V.inquired known i).asked V.on =
      match i.map Inclusion.parse with
      | some (.grammar t) => if V.loaded.contains t then [t] else []
      | _ => [] := by
  cases i with
  | none => rfl
  | some i =>
    rw [Rule.inclusionLive, Option.map_some]
    cases Inclusion.parse i with
    | reserved => rfl
    | entry n => rfl
    | grammar t => exact asked_foreignLive V t

theorem value_liveList (rs : List Rule) :
    (Rule.liveList V.inquired known rs).value V.on =
      rs.any fun r => (r.live V.inquired known).value V.on := by
  induction rs with
  | nil => rfl
  | cons r rs ih => rw [Rule.liveList, value_orM, ih, List.any_cons]

/-- A rule is live when a head below it gives a scope to keep. -/
theorem value_live (r : Rule) : (r.live V.inquired known).value V.on = V.sees known r := by
  induction r with
  | node r ih =>
    have lists : ∀ rs : List Rule, (∀ c ∈ rs, c ∈ r.children) →
        (rs.any fun c => (c.live V.inquired known).value V.on) = rs.any (V.sees known) := by
      intro rs hrs
      rw [Bool.eq_iff_iff, List.any_eq_true, List.any_eq_true]
      exact exists_congr fun c => and_congr_right fun hc => by rw [ih c (hrs c hc)]
    rw [Rule.live_eq, value_orM, value_orM, value_orM, value_liveList, value_liveList, value_inclusionLive,
      lists _ fun c hc => Rule.mem_children.2 (.inl hc), lists _ fun c hc => Rule.mem_children.2 (.inr hc),
      Verdicts.sees_eq, RuleHead.gives, value_pure, Rule.labels]
    change (_ || (_ || (_ || _))) = ((_ || _) || (_ || _))
    ac_rfl

/-- The search for live rules asks only for what is mentioned. -/
theorem mentions_of_asked_live {r : Rule} {t : String}
    (ht : t ∈ (r.live V.inquired known).asked V.on) : V.loaded.contains t = true ∧ r.Mentions t := by
  induction r with
  | node r ih =>
    have lists : ∀ rs : List Rule, (∀ c ∈ rs, c ∈ r.children) →
        t ∈ (Rule.liveList V.inquired known rs).asked V.on → V.loaded.contains t = true ∧ r.Mentions t := by
      intro rs hrs ht
      induction rs with
      | nil => cases ht
      | cons c rs ih' =>
        rw [Rule.liveList, asked_orM, List.mem_append] at ht
        rcases ht with ht | ht
        · have hc : c ∈ r.children := hrs c List.mem_cons_self
          obtain ⟨hl, x, hx, hi⟩ := ih c hc ht
          exact ⟨hl, x, Rule.mem_visit_of_child hc hx, hi⟩
        · split at ht
          · cases ht
          · exact ih' (fun d hd => hrs d (List.mem_cons_of_mem c hd)) ht
    rw [Rule.live_eq] at ht
    simp only [asked_orM, asked_pure, List.nil_append] at ht
    split at ht
    · cases ht
    rcases List.mem_append.1 ht with ht | ht
    · exact lists _ (fun c hc => Rule.mem_children.2 (.inl hc)) ht
    split at ht
    · cases ht
    rcases List.mem_append.1 ht with ht | ht
    · exact lists _ (fun c hc => Rule.mem_children.2 (.inr hc)) ht
    split at ht
    · cases ht
    rw [asked_inclusionLive] at ht
    change t ∈ (match r.inclusion? with
      | some (.grammar t) => if V.loaded.contains t then [t] else []
      | _ => []) at ht
    cases hi : r.inclusion? with
    | none => simp [hi] at ht
    | some i =>
      cases i with
      | reserved => simp [hi] at ht
      | entry n => simp [hi] at ht
      | grammar t' =>
        rw [hi] at ht
        dsimp only at ht
        split at ht
        · next hl =>
          obtain rfl := List.mem_singleton.1 ht
          exact ⟨hl, r, Rule.self_mem_visit r, hi⟩
        · cases ht

end Inquiry

/-! ## The rounds -/

namespace Liveness
variable (V : Verdicts) (entries : List (String × Rule))

/-- The entries known to be live after one more has been looked at. -/
def look (known : List String) (name : String) : List String :=
  if known.contains name then known
  else
    match Assoc.get? entries name with
    | none => known
    | some e => if V.sees known e then known ++ [name] else known

/-- The grammars asked about when one more entry is looked at. -/
def lookAsked (known : List String) (name : String) : List String :=
  if known.contains name then []
  else
    match Assoc.get? entries name with
    | none => []
    | some e => (e.live V.inquired known).asked V.on

theorem round_cons (known : List String) (name : String) (names : List String) :
    let rest := round V.inquired entries (look V entries known name) names
    (round V.inquired entries known (name :: names)).value V.on = rest.value V.on ∧
      (round V.inquired entries known (name :: names)).asked V.on =
        lookAsked V entries known name ++ rest.asked V.on := by
  rw [round, look, lookAsked]
  split
  · exact ⟨rfl, rfl⟩
  · cases Assoc.get? entries name with
    | none => exact ⟨rfl, rfl⟩
    | some e =>
      dsimp only
      rw [Inquiry.value_bind, Inquiry.asked_bind, Inquiry.value_live]
      split <;> exact ⟨rfl, rfl⟩

theorem mentions_of_asked_round {known names : List String} {t : String}
    (ht : t ∈ (round V.inquired entries known names).asked V.on) : V.loaded.contains t = true ∧
      ∃ n ∈ names, ∃ e, Assoc.get? entries n = some e ∧ e.Mentions t := by
  induction names generalizing known with
  | nil => cases ht
  | cons name names ih =>
    rw [(round_cons V entries known name names).2, List.mem_append] at ht
    rcases ht with ht | ht
    · rw [lookAsked] at ht
      split at ht
      · cases ht
      · cases he : Assoc.get? entries name with
        | none =>
          rw [he] at ht
          cases ht
        | some e =>
          rw [he] at ht
          obtain ⟨hl, hm⟩ := Inquiry.mentions_of_asked_live V known ht
          exact ⟨hl, name, List.mem_cons_self, e, he, hm⟩
    · obtain ⟨hl, n, hn, h⟩ := ih ht
      exact ⟨hl, n, List.mem_cons_of_mem name hn, h⟩

/-- The rounds ask only for what the entries mention. -/
theorem mentions_of_asked_rounds {names : List String} {t : String} (n : Nat) (known : List String)
    (ht : t ∈ (rounds V.inquired entries names n known).asked V.on) : V.loaded.contains t = true ∧
      ∃ n ∈ names, ∃ e, Assoc.get? entries n = some e ∧ e.Mentions t := by
  induction n generalizing known with
  | zero => cases ht
  | succ n ih =>
    rw [rounds, Inquiry.asked_bind, List.mem_append] at ht
    rcases ht with ht | ht
    · exact mentions_of_asked_round V entries ht
    · split at ht
      · cases ht
      · exact ih _ ht

/-- What the rounds keep: every entry known is live and among those looked at. -/
structure Known (names known : List String) : Prop where
  nodup : known.Nodup
  mem : ∀ n ∈ known, n ∈ names
  live : ∀ n ∈ known, ∃ e, Assoc.get? entries n = some e ∧ e.LiveIn V.keep V.foreign entries

theorem look_eq_or (known : List String) (name : String) :
    look V entries known name = known ∨
      name ∉ known ∧ look V entries known name = known ++ [name] ∧
        ∃ e, Assoc.get? entries name = some e ∧ V.sees known e = true := by
  rw [look]
  split
  · exact .inl rfl
  · next hn =>
    cases he : Assoc.get? entries name with
    | none => exact .inl rfl
    | some e =>
      dsimp only
      split
      · next hg => exact .inr ⟨by simpa using hn, rfl, e, rfl, hg⟩
      · exact .inl rfl

theorem prefix_look (known : List String) (name : String) : known <+: look V entries known name := by
  rcases look_eq_or V entries known name with he | ⟨-, he, -⟩
  · simp [he]
  · rw [he]
    exact List.prefix_append known [name]

theorem prefix_round (known names : List String) :
    known <+: (round V.inquired entries known names).value V.on := by
  induction names generalizing known with
  | nil => exact List.prefix_rfl
  | cons name names ih =>
    rw [(round_cons V entries known name names).1]
    exact (prefix_look V entries known name).trans (ih _)

variable {V entries} {known names : List String}

theorem Known.look {name : String} (h : Known V entries names known) (hn : name ∈ names) :
    Known V entries names (look V entries known name) := by
  rcases look_eq_or V entries known name with he | ⟨hf, he, e, hg, hl⟩
  · rw [he]
    exact h
  · rw [he]
    refine ⟨List.nodup_append.2 ⟨h.nodup, by simp, ?_⟩, ?_, ?_⟩
    · rintro a ha b hb rfl
      exact hf (List.mem_singleton.1 hb ▸ ha)
    · intro n hm
      rcases List.mem_append.1 hm with hm | hm
      · exact h.mem n hm
      · exact List.mem_singleton.1 hm ▸ hn
    · intro n hm
      rcases List.mem_append.1 hm with hm | hm
      · exact h.live n hm
      · obtain rfl := List.mem_singleton.1 hm
        exact ⟨e, hg, .of_anyHead h.live hl⟩

/-- An entry that is seen to be live gets known. -/
theorem mem_look {name : String} {e : Rule} (he : Assoc.get? entries name = some e) (hl : V.sees known e = true) :
    name ∈ Liveness.look V entries known name := by
  rw [Liveness.look, he]
  split
  · next h => simpa using h
  · simp [hl]

theorem Known.round {names' : List String} (h : Known V entries names known) (hn : ∀ n ∈ names', n ∈ names) :
    Known V entries names ((round V.inquired entries known names').value V.on) := by
  induction names' generalizing known with
  | nil => exact h
  | cons name names' ih =>
    rw [(round_cons V entries known name names').1]
    exact ih (h.look (hn name List.mem_cons_self)) fun n hm => hn n (List.mem_cons_of_mem name hm)

/-- Nothing more among the names is seen to be live. -/
def Fixed (V : Verdicts) (entries : List (String × Rule)) (names known : List String) : Prop :=
  ∀ n ∈ names, ∀ e, Assoc.get? entries n = some e → V.sees known e = true → n ∈ known

theorem look_eq_of_round_eq {name : String}
    (h : (round V.inquired entries (look V entries known name) names).value V.on = known) :
    look V entries known name = known := by
  have h1 := prefix_look V entries known name
  have h2 := prefix_round V entries (look V entries known name) names
  rw [h] at h2
  exact h2.eq_of_length_le h1.length_le

/-- A round that finds nothing has seen that there is nothing to find. -/
theorem fixed_of_round_eq (h : (round V.inquired entries known names).value V.on = known) :
    Fixed V entries names known := by
  induction names with
  | nil =>
    intro n hn
    cases hn
  | cons name names ih =>
    rw [(round_cons V entries known name names).1] at h
    have hlook := look_eq_of_round_eq h
    rw [hlook] at h
    intro n hn e he hl
    rcases List.mem_cons.1 hn with rfl | hn
    · rw [← hlook]
      exact mem_look he hl
    · exact ih h n hn e he hl

theorem Known.length_le (h : Known V entries names known) : known.length ≤ names.length :=
  (h.nodup.subperm h.mem).length_le

/-- The rounds end with nothing left to find. -/
theorem Known.rounds (n : Nat) (h : Known V entries names known) (hn : names.length + 1 ≤ n + known.length) :
    let known' := (rounds V.inquired entries names n known).value V.on
    Known V entries names known' ∧ Fixed V entries names known' := by
  induction n generalizing known with
  | zero =>
    -- there is always one round more than there are names still to be known
    have := h.length_le
    omega
  | succ n ih =>
    have hround := h.round fun n (hn : n ∈ names) => hn
    have hgrow := prefix_round V entries known names
    rw [Liveness.rounds, Inquiry.value_bind]
    split
    · next hlen =>
      have heq : (Liveness.round V.inquired entries known names).value V.on = known :=
        (hgrow.eq_of_length hlen.symm).symm
      rw [Inquiry.value_pure, heq]
      exact ⟨h, fixed_of_round_eq heq⟩
    · next hlen =>
      -- the round has found an entry, so there are fewer left to find
      refine ih hround ?_
      have := hgrow.length_le
      omega

variable (V entries) in
/-- The live ones among the given entries. -/
theorem liveEntries_spec (names : List String) :
    let live := (liveEntries V.inquired entries names).value V.on
    Known V entries names live ∧ Fixed V entries names live :=
  Known.rounds _ ⟨List.nodup_nil, fun _ h => (by cases h), fun _ h => (by cases h)⟩ (by simp)

/-- The rounds find the least relation on every set of entries that has all that its members lead to. -/
theorem mem_liveEntries
    (hn : ∀ n ∈ names, ∀ e, Assoc.get? entries n = some e →
      ∀ k ∈ e.entryInclusions, Assoc.contains entries k = true → k ∈ names) {n : String} :
    n ∈ (liveEntries V.inquired entries names).value V.on ↔
      n ∈ names ∧ ∃ e, Assoc.get? entries n = some e ∧ e.LiveIn V.keep V.foreign entries := by
  obtain ⟨hk, hf⟩ := liveEntries_spec V entries names
  refine ⟨fun h => ⟨hk.mem n h, hk.live n h⟩, ?_⟩
  rintro ⟨hmem, e, he, hl⟩
  exact hf n hmem e he (hl.anyHead names hn hf (hn n hmem e he))

end Liveness

end ScopeActions
