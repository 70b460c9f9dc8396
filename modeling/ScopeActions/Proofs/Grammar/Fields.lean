import ScopeActions.Grammar.Codec
/-!
# Reading rules field by field

A rule is read one field after the other. `Rule.ofFields?_cons` is such a step, and what each step keeps is kept by
the whole (`Rule.ofFields?_keeps`).
-/

namespace ScopeActions

namespace Rule

/-- Reads a typed field into a rule. -/
def readTyped? (acc : Rule) (key : String) (v : Json) : Option Rule :=
  if key = "name" ∨ key = "contentName" ∨ key = "include" then (optionalText? v).map (acc.setText key)
  else if key = "patterns" then
    match v with
    | .null => some (acc.setPatterns none)
    | .arr items => (ofItems? items).map fun rs => acc.setPatterns (some rs)
    | _ => none
  else
    match v with
    | .null => some (acc.setMap key none)
    | .obj entries => (ofEntries? entries).map fun es => acc.setMap key (some (Assoc.ofList es))
    | _ => none

theorem ofFields?_nil (seen : List String) (acc : Rule) : ofFields? seen acc [] = some acc := by
  rw [ofFields?.eq_def]

/-- A field is carried along, or read into the rule when it is typed and was not read before. -/
theorem ofFields?_cons (seen : List String) (acc : Rule) (key : String) (v : Json) (fields : List (String × Json)) :
    ofFields? seen acc ((key, v) :: fields) =
      if key ∉ typedFields then ofFields? seen (acc.setExtra key v.canonical) fields
      else if key ∈ seen then none
      else (readTyped? acc key v).bind fun acc => ofFields? (key :: seen) acc fields := by
  rw [ofFields?.eq_def]
  simp only [Bool.not_eq_true', List.contains_eq_mem, decide_eq_true_eq, decide_eq_false_iff_not]
  unfold readTyped?
  congr 2
  split
  · cases optionalText? v <;> rfl
  split
  · cases v with
    | arr items => simp only; cases ofItems? items <;> rfl
    | _ => rfl
  · cases v with
    | obj entries => simp only; cases ofEntries? entries <;> rfl
    | _ => rfl

/-- What becomes of a rule when a typed field is read into it. -/
theorem readTyped?_cases {acc acc' : Rule} {key : String} {v : Json} (h : readTyped? acc key v = some acc') :
    (∃ text, acc' = acc.setText key text) ∨
    (∃ o, acc' = acc.setPatterns o ∧ ∀ rs ∈ o, ∃ items, v = .arr items ∧ ofItems? items = some rs) ∨
    ∃ o, acc' = acc.setMap key o ∧
      ∀ es ∈ o, ∃ entries read, v = .obj entries ∧ ofEntries? entries = some read ∧ es = Assoc.ofList read := by
  unfold readTyped? at h
  split at h
  · obtain ⟨text, -, rfl⟩ := Option.map_eq_some_iff.1 h
    exact .inl ⟨text, rfl⟩
  split at h
  · cases v with
    | null =>
      cases h
      exact .inr (.inl ⟨none, rfl, nofun⟩)
    | arr items =>
      obtain ⟨rs, hrs, rfl⟩ := Option.map_eq_some_iff.1 h
      exact .inr (.inl ⟨some rs, rfl, by rintro _ ⟨⟩; exact ⟨items, rfl, hrs⟩⟩)
    | _ => cases h
  · cases v with
    | null =>
      cases h
      exact .inr (.inr ⟨none, rfl, nofun⟩)
    | obj entries =>
      obtain ⟨es, hes, rfl⟩ := Option.map_eq_some_iff.1 h
      exact .inr (.inr ⟨some (Assoc.ofList es), rfl, by rintro _ ⟨⟩; exact ⟨entries, es, rfl, hes, rfl⟩⟩)
    | _ => cases h

theorem extra_setText (r : Rule) (key : String) (text : Option String) :
    (r.setText key text).head.extra = r.head.extra := by
  rcases r with ⟨head, patterns, repository, captures, begins, ends⟩
  unfold setText Rule.head
  dsimp only
  split
  · rfl
  · split <;> rfl

/-- One of the four maps is set. -/
theorem setMap_cases (head : RuleHead) (patterns : Option (List Rule))
    (repository captures begins ends : Option (List (String × Rule))) (key : String) (o : Option (List (String × Rule))) :
    let r := (mk head patterns repository captures begins ends).setMap key o
    r = mk head patterns o captures begins ends ∨ r = mk head patterns repository o begins ends ∨
      r = mk head patterns repository captures o ends ∨ r = mk head patterns repository captures begins o := by
  intro r
  simp only [r, setMap]
  split
  · exact .inl rfl
  split
  · exact .inr (.inl rfl)
  split
  · exact .inr (.inr (.inl rfl))
  · exact .inr (.inr (.inr rfl))

/-- A typed field holds no field that is carried along. -/
theorem extra_readTyped? {acc acc' : Rule} {key : String} {v : Json} (h : readTyped? acc key v = some acc') :
    acc'.head.extra = acc.head.extra := by
  rcases readTyped?_cases h with ⟨text, rfl⟩ | ⟨o, rfl, -⟩ | ⟨o, rfl, -⟩
  · exact extra_setText acc key text
  · rcases acc with ⟨_, _, _, _, _, _⟩
    rfl
  · rcases acc with ⟨head, patterns, repository, captures, begins, ends⟩
    rcases setMap_cases head patterns repository captures begins ends key o with h | h | h | h
    all_goals
      rw [h]
      rfl

/-- What each field keeps, reading keeps. -/
theorem ofFields?_keeps {I : Rule → Prop} {fields : List (String × Json)}
    (hextra : ∀ key v acc, (key, v) ∈ fields → key ∉ typedFields → I acc → I (acc.setExtra key v.canonical))
    (htyped : ∀ key v acc acc', (key, v) ∈ fields → readTyped? acc key v = some acc' → I acc → I acc')
    {seen : List String} {acc r : Rule} (h : I acc) (hr : ofFields? seen acc fields = some r) : I r := by
  induction fields generalizing seen acc with
  | nil =>
    rw [ofFields?_nil] at hr
    exact Option.some.inj hr ▸ h
  | cons field fields ih =>
    obtain ⟨key, v⟩ := field
    have ih := @ih (fun key v acc hf => hextra key v acc (List.mem_cons_of_mem _ hf))
      (fun key v acc acc' hf => htyped key v acc acc' (List.mem_cons_of_mem _ hf))
    rw [ofFields?_cons] at hr
    split at hr
    · next hkey => exact ih (hextra key v acc List.mem_cons_self hkey h) hr
    split at hr
    · cases hr
    · obtain ⟨acc', hacc', hr⟩ := Option.bind_eq_some_iff.1 hr
      exact ih (htyped key v acc acc' List.mem_cons_self hacc' h) hr

/-- A rule in a list was read from an item. -/
theorem exists_of_ofItems? {items : List Json} {rs : List Rule} (h : ofItems? items = some rs) {r : Rule} (hr : r ∈ rs) :
    ∃ v ∈ items, ofJson? v = some r := by
  induction items generalizing rs with
  | nil =>
    rw [ofItems?] at h
    cases h
    cases hr
  | cons v items ih =>
    rw [ofItems?] at h
    split at h
    · cases h
    · next r' hr' =>
      obtain ⟨rs', hrs', rfl⟩ := Option.map_eq_some_iff.1 h
      rcases List.mem_cons.1 hr with rfl | hr
      · exact ⟨v, List.mem_cons_self, hr'⟩
      · obtain ⟨w, hw, hread⟩ := ih hrs' hr
        exact ⟨w, List.mem_cons_of_mem v hw, hread⟩

/-- A rule in a map was read from an entry. -/
theorem exists_of_ofEntries? {entries : List (String × Json)} {es : List (String × Rule)}
    (h : ofEntries? entries = some es) {e : String × Rule} (he : e ∈ es) : ∃ f ∈ entries, ofJson? f.2 = some e.2 := by
  induction entries generalizing es with
  | nil =>
    rw [ofEntries?] at h
    cases h
    cases he
  | cons f entries ih =>
    obtain ⟨key, v⟩ := f
    rw [ofEntries?] at h
    split at h
    · cases h
    · next r hr =>
      obtain ⟨es', hes', rfl⟩ := Option.map_eq_some_iff.1 h
      rcases List.mem_cons.1 he with rfl | he
      · exact ⟨(key, v), List.mem_cons_self, hr⟩
      · obtain ⟨g, hg, hread⟩ := ih hes' he
        exact ⟨g, List.mem_cons_of_mem _ hg, hread⟩

end Rule

end ScopeActions
