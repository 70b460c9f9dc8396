import ScopeActions.Grammar.Liveness
/-!
# Walking through rules

Pruning and the search for live rules go through the patterns and the captures of a rule and never
through its repository. `Rule.children` are the rules one step below, `Rule.visit false` and `Rule.trail`
list everything below in two orders, and `Rule.restrict` takes rules out of the lists of patterns.
-/

namespace ScopeActions.Rule

/-- The rules in the patterns. -/
def patternList (r : Rule) : List Rule := r.patterns.getD []

/-- The rules in the capture maps. -/
def captured (r : Rule) : List Rule :=
  (r.captures.getD [] ++ r.beginCaptures.getD [] ++ r.endCaptures.getD []).map (·.2)

/-- The rules one step below, captures first. -/
def children (r : Rule) : List Rule := r.captured ++ r.patternList

theorem mem_children {r c : Rule} : c ∈ r.children ↔ c ∈ r.captured ∨ c ∈ r.patternList := List.mem_append

/-- The rules of each of the maps are captured. -/
theorem mem_captured_mk {head : RuleHead} {patterns : Option (List Rule)}
    {repository captures begins ends : Option (List (String × Rule))} {o : Option (List (String × Rule))} {r : Rule}
    (ho : o ∈ [captures, begins, ends]) (hr : r ∈ (o.getD []).map (·.2)) :
    r ∈ (mk head patterns repository captures begins ends).captured := by
  simp only [List.mem_cons, List.not_mem_nil, or_false] at ho
  simp only [captured, Rule.captures, beginCaptures, endCaptures, List.map_append, List.mem_append]
  rcases ho with rfl | rfl | rfl
  · exact .inl (.inl hr)
  · exact .inl (.inr hr)
  · exact .inr hr

theorem sizeOf_lt_of_mem_children {r c : Rule} (h : c ∈ r.children) : sizeOf c < sizeOf r := by
  have named : ∀ o : Option (List (String × Rule)), ∀ e ∈ o.getD [], sizeOf e.2 < sizeOf o := by
    intro o e he
    cases o with
    | none => cases he
    | some es =>
      have := List.sizeOf_lt_of_mem he
      rcases e with ⟨k, e⟩
      simp only [Option.getD_some, Prod.mk.sizeOf_spec, Option.some.sizeOf_spec] at this ⊢
      omega
  cases r with
  | mk head patterns repository captures begins ends =>
    simp only [Rule.mk.sizeOf_spec]
    rcases mem_children.1 h with h | h
    · obtain ⟨e, he, rfl⟩ := List.mem_map.1 h
      simp only [Rule.captures, beginCaptures, endCaptures, List.mem_append] at he
      rcases he with (he | he) | he
      all_goals
        have := named _ e he
        omega
    · cases patterns with
      | none => cases h
      | some rs =>
        have h : c ∈ rs := h
        have := List.sizeOf_lt_of_mem h
        simp only [Option.some.sizeOf_spec]
        omega

/-- What holds of a rule when it holds of the rules one step below holds of every rule. -/
@[elab_as_elim, induction_eliminator]
theorem induct {P : Rule → Prop} (node : ∀ r, (∀ c ∈ r.children, P c) → P r) (r : Rule) : P r :=
  node r fun c _ => induct node c
termination_by sizeOf r
decreasing_by exact sizeOf_lt_of_mem_children ‹_›

/-! ## The rules below -/

theorem visitList_eq (b : Bool) (rs : List Rule) : visitList b rs = rs.flatMap (visit b) := by
  induction rs with
  | nil => rfl
  | cons r rs ih => rw [visitList, ih]; rfl

theorem visitNamed_eq (b : Bool) (es : List (String × Rule)) :
    visitNamed b es = (es.map (·.2)).flatMap (visit b) := by
  induction es with
  | nil => rfl
  | cons e es ih => rw [visitNamed, ih]; rfl

theorem visit_eq (r : Rule) :
    r.visit false = r :: (r.patternList.flatMap (visit false) ++ r.captured.flatMap (visit false)) := by
  cases r with
  | mk head patterns repository captures begins ends =>
    rw [visit.eq_def]
    cases patterns <;> cases repository <;> cases captures <;> cases begins <;> cases ends <;>
      simp [visitList_eq, visitNamed_eq, captured, patternList, Rule.captures, beginCaptures, endCaptures,
        Rule.patterns]

theorem mem_visit {r x : Rule} : x ∈ r.visit false ↔ x = r ∨ ∃ c ∈ r.children, x ∈ c.visit false := by
  rw [visit_eq, children, ← List.flatMap_append, List.mem_cons, List.mem_flatMap]
  simp only [List.mem_append, or_comm]

theorem self_mem_visit (r : Rule) : r ∈ r.visit false := mem_visit.2 (.inl rfl)

theorem mem_visit_of_child {r c x : Rule} (hc : c ∈ r.children) (hx : x ∈ c.visit false) : x ∈ r.visit false :=
  mem_visit.2 (.inr ⟨c, hc, hx⟩)

theorem mem_visit_trans {r x y : Rule} (hx : x ∈ r.visit false) (hy : y ∈ x.visit false) : y ∈ r.visit false := by
  induction r with
  | node r ih =>
    rcases mem_visit.1 hx with rfl | ⟨c, hc, hx⟩
    · exact hy
    · exact mem_visit_of_child hc (ih c hc hx)

/-- The rules below and the rule itself, each after those below it. This is the order of pruning. -/
def trail (r : Rule) : List Rule := (r.children.attach.flatMap fun c => trail c.1) ++ [r]
termination_by sizeOf r
decreasing_by exact sizeOf_lt_of_mem_children c.2

theorem trail_eq (r : Rule) : r.trail = r.children.flatMap trail ++ [r] := by
  rw [trail, List.flatMap_subtype (fun x _ => rfl), List.unattach_attach]

theorem mem_trail {r x : Rule} : x ∈ r.trail ↔ x ∈ r.visit false := by
  induction r with
  | node r ih =>
    rw [trail_eq, mem_visit, List.mem_append, List.mem_singleton, List.mem_flatMap, or_comm]
    exact or_congr_right ⟨fun ⟨c, hc, h⟩ => ⟨c, hc, (ih c hc).1 h⟩, fun ⟨c, hc, h⟩ => ⟨c, hc, (ih c hc).2 h⟩⟩

theorem mem_entryInclusions {r : Rule} {n : String} :
    n ∈ r.entryInclusions ↔ ∃ x ∈ r.visit false, x.inclusion? = some (.entry n) := by
  simp only [entryInclusions, List.mem_filterMap]
  constructor
  · rintro ⟨x, hx, h⟩
    refine ⟨x, hx, ?_⟩
    split at h
    · next h' => cases h; exact h'
    · cases h
  · rintro ⟨x, hx, h⟩
    exact ⟨x, hx, by rw [h]⟩

/-! ## Taking rules out of the lists of patterns -/

mutual

/-- Takes the rules that `p` rejects out of every list of patterns below. Captures and repositories keep
all their entries. -/
def restrict (p : Rule → Bool) : Rule → Rule
  | .mk head patterns repository captures begins ends =>
    .mk head
      (match patterns with
        | some rs => some (restrictList p rs)
        | none => none)
      repository
      (match captures with
        | some rs => some (restrictNamed p rs)
        | none => none)
      (match begins with
        | some rs => some (restrictNamed p rs)
        | none => none)
      (match ends with
        | some rs => some (restrictNamed p rs)
        | none => none)

/-- The rules of a list that `p` accepts, in their order and each of them restricted. -/
def restrictList (p : Rule → Bool) : List Rule → List Rule
  | [] => []
  | r :: rs => if p r then restrict p r :: restrictList p rs else restrictList p rs

/-- All rules of a map, each of them restricted. -/
def restrictNamed (p : Rule → Bool) : List (String × Rule) → List (String × Rule)
  | [] => []
  | (key, r) :: rs => (key, restrict p r) :: restrictNamed p rs

end

variable {p : Rule → Bool}

theorem restrictList_eq (p : Rule → Bool) (rs : List Rule) : restrictList p rs = (rs.filter p).map (restrict p) := by
  induction rs with
  | nil => rfl
  | cons r rs ih =>
    rw [restrictList, ih, List.filter_cons]
    split <;> rfl

theorem length_restrictList (p : Rule → Bool) (rs : List Rule) :
    (restrictList p rs).length = (rs.filter p).length := by
  rw [restrictList_eq, List.length_map]

theorem not_isEmpty_restrictList (p : Rule → Bool) (rs : List Rule) : (!(restrictList p rs).isEmpty) = rs.any p := by
  rw [restrictList_eq, List.isEmpty_map, Bool.eq_iff_iff]
  simp

theorem restrictNamed_eq (p : Rule → Bool) (es : List (String × Rule)) :
    restrictNamed p es = es.map fun e => (e.1, restrict p e.2) := by
  induction es with
  | nil => rfl
  | cons e es ih => rw [restrictNamed, ih]; rfl

theorem restrict_mk (head : RuleHead) (patterns : Option (List Rule))
    (repository captures begins ends : Option (List (String × Rule))) :
    restrict p (.mk head patterns repository captures begins ends) =
      .mk head (patterns.map (restrictList p)) repository (captures.map (restrictNamed p))
        (begins.map (restrictNamed p)) (ends.map (restrictNamed p)) := by
  rw [restrict.eq_def]
  cases patterns <;> cases captures <;> cases begins <;> cases ends <;> rfl

@[simp] theorem head_restrict (r : Rule) : (r.restrict p).head = r.head := by
  cases r
  rfl

@[simp] theorem labels_restrict (r : Rule) : (r.restrict p).labels = r.labels := by simp [labels]

@[simp] theorem inclusion?_restrict (r : Rule) : (r.restrict p).inclusion? = r.inclusion? := by simp [inclusion?]

@[simp] theorem patternList_restrict (r : Rule) :
    (r.restrict p).patternList = (r.patternList.filter p).map (restrict p) := by
  cases r with
  | mk _ patterns _ _ _ _ => rw [restrict_mk]; cases patterns <;> simp [patternList, patterns, restrictList_eq]

@[simp] theorem captured_restrict (r : Rule) : (r.restrict p).captured = r.captured.map (restrict p) := by
  have named : ∀ o : Option (List (String × Rule)),
      ((o.map (restrictNamed p)).getD []).map (·.2) = ((o.getD []).map (·.2)).map (restrict p) := by
    intro o
    cases o <;> simp [restrictNamed_eq, Function.comp_def]
  cases r with
  | mk _ _ _ captures begins ends =>
    rw [restrict_mk]
    simp only [captured, Rule.captures, beginCaptures, endCaptures, List.map_append, named]

/-- One step below a restricted rule are rules one step below the rule, restricted. -/
theorem mem_children_restrict {r c : Rule} :
    c ∈ (r.restrict p).children ↔
      (∃ d ∈ r.captured, d.restrict p = c) ∨ ∃ d ∈ r.patternList, p d = true ∧ d.restrict p = c := by
  rw [mem_children, captured_restrict, patternList_restrict, List.mem_map, List.mem_map]
  refine or_congr_right (exists_congr fun d => ?_)
  rw [List.mem_filter, and_assoc]

theorem restrict_mem_children {r c : Rule} (hc : c ∈ r.children) (hp : p c = true) :
    c.restrict p ∈ (r.restrict p).children := by
  rcases mem_children.1 hc with hc | hc
  · exact mem_children_restrict.2 (.inl ⟨c, hc, rfl⟩)
  · exact mem_children_restrict.2 (.inr ⟨c, hc, hp, rfl⟩)

theorem exists_of_mem_children_restrict {r c : Rule} (h : c ∈ (r.restrict p).children) :
    ∃ d ∈ r.children, d.restrict p = c := by
  rcases mem_children_restrict.1 h with ⟨d, hd, rfl⟩ | ⟨d, hd, -, rfl⟩
  · exact ⟨d, mem_children.2 (.inl hd), rfl⟩
  · exact ⟨d, mem_children.2 (.inr hd), rfl⟩

/-- What is below a restricted rule are rules below the rule, restricted. -/
theorem exists_of_mem_visit_restrict {r x : Rule} (h : x ∈ (r.restrict p).visit false) :
    ∃ y ∈ r.visit false, x = y.restrict p := by
  induction r generalizing x with
  | node r ih =>
    rcases mem_visit.1 h with rfl | ⟨c, hc, hx⟩
    · exact ⟨r, self_mem_visit r, rfl⟩
    · obtain ⟨d, hd, rfl⟩ := exists_of_mem_children_restrict hc
      obtain ⟨y, hy, rfl⟩ := ih d hd hx
      exact ⟨y, mem_visit_of_child hd hy, rfl⟩

section Comp
variable {p₁ p₂ : Rule → Bool}

theorem restrictList_comp {rs : List Rule} (hp : ∀ r ∈ rs, p r = (p₁ r && p₂ (r.restrict p₁)))
    (h : ∀ r ∈ rs, (r.restrict p₁).restrict p₂ = r.restrict p) :
    restrictList p₂ (restrictList p₁ rs) = restrictList p rs := by
  have hfilter : (rs.filter p₁).filter (p₂ ∘ restrict p₁) = rs.filter p := by
    rw [List.filter_filter]
    exact List.filter_congr fun r hr => by rw [hp r hr, Bool.and_comm]; rfl
  rw [restrictList_eq, restrictList_eq, restrictList_eq, List.filter_map, hfilter, List.map_map]
  exact List.map_congr_left fun r hr => h r (List.mem_filter.1 hr).1

theorem restrictNamed_comp {es : List (String × Rule)} (h : ∀ e ∈ es, (e.2.restrict p₁).restrict p₂ = e.2.restrict p) :
    restrictNamed p₂ (restrictNamed p₁ es) = restrictNamed p es := by
  rw [restrictNamed_eq, restrictNamed_eq, restrictNamed_eq, List.map_map]
  exact List.map_congr_left fun e he => congrArg (Prod.mk e.1) (h e he)

/-- Restricting twice takes out what is taken out first, and what is taken out of what is left then. -/
theorem restrict_comp {r : Rule} (hp : ∀ x ∈ r.visit false, p x = (p₁ x && p₂ (x.restrict p₁))) :
    (r.restrict p₁).restrict p₂ = r.restrict p := by
  induction r with
  | node r ih =>
    have below : ∀ c ∈ r.children, (c.restrict p₁).restrict p₂ = c.restrict p := fun c hc =>
      ih c hc fun x hx => hp x (mem_visit_of_child hc hx)
    have named : ∀ o : Option (List (String × Rule)), (∀ e ∈ o.getD [], e.2 ∈ r.children) →
        (o.map (restrictNamed p₁)).map (restrictNamed p₂) = o.map (restrictNamed p) := by
      intro o ho
      cases o with
      | none => rfl
      | some es => exact congrArg some (restrictNamed_comp fun e he => below e.2 (ho e he))
    cases r with
    | mk head patterns repository captures begins ends =>
      have hpatterns : (patterns.map (restrictList p₁)).map (restrictList p₂) = patterns.map (restrictList p) := by
        cases patterns with
        | none => rfl
        | some rs =>
          have hrs : ∀ c ∈ rs, c ∈ children (.mk head (some rs) repository captures begins ends) := fun c hc =>
            mem_children.2 (.inr hc)
          exact congrArg some (restrictList_comp (fun c hc => hp c (mem_visit_of_child (hrs c hc) (self_mem_visit c)))
            fun c hc => below c (hrs c hc))
      rw [restrict_mk, restrict_mk, restrict_mk, hpatterns, named captures, named begins, named ends]
      all_goals
        intro e he
        refine mem_children.2 (.inl (List.mem_map_of_mem ?_))
        simp [Rule.captures, beginCaptures, endCaptures, he]

end Comp

/-! ## Rules that have something below them -/

/-- The rule or one below it has a head that `w` accepts. -/
def anyHead (w : RuleHead → Bool) (r : Rule) : Bool :=
  (r.visit false).any fun x => w x.head

section AnyHead
variable {w : RuleHead → Bool}

theorem anyHead_iff {r : Rule} : r.anyHead w = true ↔ ∃ x ∈ r.visit false, w x.head = true := List.any_eq_true

theorem anyHead_of_mem_visit {r x : Rule} (hx : x ∈ r.visit false) (h : x.anyHead w = true) : r.anyHead w = true := by
  obtain ⟨y, hy, h⟩ := anyHead_iff.1 h
  exact anyHead_iff.2 ⟨y, mem_visit_trans hx hy, h⟩

theorem anyHead_of_child {r c : Rule} (hc : c ∈ r.children) (h : c.anyHead w = true) : r.anyHead w = true :=
  anyHead_of_mem_visit (mem_visit_of_child hc (self_mem_visit c)) h

theorem anyHead_eq (r : Rule) :
    r.anyHead w = (w r.head || (r.captured.any (anyHead w) || r.patternList.any (anyHead w))) := by
  rw [anyHead, visit_eq, List.any_cons, List.any_append, List.any_flatMap, List.any_flatMap, Bool.or_comm (List.any _ _)]
  rfl

/-- Restricting loses nothing that is accepted, when no rule is taken out that has something accepted below it. -/
theorem anyHead_restrict (hp : ∀ x, x.anyHead w = true → p x = true) (r : Rule) :
    (r.restrict p).anyHead w = r.anyHead w := by
  induction r with
  | node r ih =>
    rw [Bool.eq_iff_iff, anyHead_eq, anyHead_eq r]
    simp only [head_restrict, captured_restrict, patternList_restrict, List.any_map, List.any_filter, Bool.or_eq_true,
      List.any_eq_true, Function.comp_apply, Bool.and_eq_true]
    refine or_congr_right (or_congr ?_ ?_)
    · exact exists_congr fun c => and_congr_right fun hc => by rw [ih c (mem_children.2 (.inl hc))]
    · refine exists_congr fun c => and_congr_right fun hc => ?_
      rw [ih c (mem_children.2 (.inr hc)), and_iff_right_iff_imp]
      exact hp c

end AnyHead

end ScopeActions.Rule
