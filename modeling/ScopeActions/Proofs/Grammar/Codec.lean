import ScopeActions.Proofs.Grammar.Fields
import ScopeActions.Proofs.Json.Canonical
/-!
# Reading what was written

A grammar is read back as it was written, with all its fields in their order, when no field that is carried along is
named like a typed one (`Grammar.Writable`). Every grammar that is read is such a grammar (`Grammar.codec_lossless`).
-/

namespace ScopeActions

/-! ## Writable grammars -/

/-- The fields carried along have names of their own, none that of a typed field, and canonical values. -/
structure RuleHead.Writable (head : RuleHead) : Prop where
  nodup : (Assoc.keys head.extra).Nodup
  untyped : ∀ e ∈ head.extra, e.1 ∉ Rule.typedFields
  unrepeated : ∀ e ∈ head.extra, e.2.Unrepeated

namespace Rule

/-- The maps of rules that the rule has. -/
def maps (r : Rule) : List (List (String × Rule)) :=
  [r.repository, r.captures, r.beginCaptures, r.endCaptures].filterMap id

@[simp] theorem mem_maps_mk {head : RuleHead} {patterns : Option (List Rule)}
    {repository captures begins ends : Option (List (String × Rule))} {es : List (String × Rule)} :
    es ∈ (mk head patterns repository captures begins ends).maps ↔ some es ∈ [repository, captures, begins, ends] := by
  simp [maps, Rule.repository, Rule.captures, beginCaptures, endCaptures]

/-- At every depth, the fields carried along can be told from the typed ones, and maps repeat no keys. -/
inductive Writable : Rule → Prop
  | mk {r : Rule} : r.head.Writable → (∀ c ∈ r.patterns.getD [], Writable c) →
      (∀ es ∈ r.maps, (Assoc.keys es).Nodup) → (∀ es ∈ r.maps, ∀ e ∈ es, Writable e.2) → Writable r

end Rule

/-- The rules of the grammar are writable, and no field carried along in its root is named like one of the grammar. -/
structure Grammar.Writable (g : Grammar) : Prop where
  root : g.root.Writable
  untyped : ∀ e ∈ g.root.head.extra, e.1 ∉ Grammar.typedFields

namespace Rule

/-! ## What is read is writable -/

theorem writable_blank : blank.Writable :=
  .mk ⟨List.nodup_nil, nofun, nofun⟩ nofun nofun nofun

theorem writable_named (name : String) : (named name).Writable :=
  .mk ⟨List.nodup_nil, nofun, nofun⟩ nofun nofun nofun

theorem Writable.setExtra {r : Rule} (h : r.Writable) {key : String} (hkey : key ∉ typedFields) (v : Json) :
    (r.setExtra key v.canonical).Writable := by
  rcases r with ⟨head, patterns, repository, captures, begins, ends⟩
  cases h with
  | mk hhead hpatterns hnodup hmaps =>
    refine .mk ⟨Assoc.nodup_keys_put hhead.nodup _ _, fun e he => ?_, fun e he => ?_⟩ hpatterns hnodup hmaps
    · rcases Assoc.mem_put he with he | rfl
      · exact hhead.untyped e he
      · exact hkey
    · rcases Assoc.mem_put he with he | rfl
      · exact hhead.unrepeated e he
      · exact v.unrepeated_canonical

theorem Writable.setText {r : Rule} (h : r.Writable) (key : String) (text : Option String) :
    (r.setText key text).Writable := by
  rcases r with ⟨head, patterns, repository, captures, begins, ends⟩
  cases h with
  | mk hhead hpatterns hnodup hmaps =>
    refine .mk ?_ hpatterns hnodup hmaps
    have hextra := extra_setText (Rule.mk head patterns repository captures begins ends) key text
    exact ⟨hextra ▸ hhead.nodup, hextra ▸ hhead.untyped, hextra ▸ hhead.unrepeated⟩

theorem Writable.setPatterns {r : Rule} (h : r.Writable) {o : Option (List Rule)} (ho : ∀ rs ∈ o, ∀ c ∈ rs, c.Writable) :
    (r.setPatterns o).Writable := by
  rcases r with ⟨head, patterns, repository, captures, begins, ends⟩
  cases h with
  | mk hhead hpatterns hnodup hmaps =>
    refine .mk hhead (fun c hc => ?_) hnodup hmaps
    cases o with
    | none => cases hc
    | some rs => exact ho rs rfl c hc

theorem Writable.setMap {r : Rule} (h : r.Writable) (key : String) {o : Option (List (String × Rule))}
    (hkeys : ∀ es ∈ o, (Assoc.keys es).Nodup) (ho : ∀ es ∈ o, ∀ e ∈ es, e.2.Writable) : (r.setMap key o).Writable := by
  rcases r with ⟨head, patterns, repository, captures, begins, ends⟩
  cases h with
  | mk hhead hpatterns hnodup hmaps =>
    have hmem : ∀ es, some es ∈ [o, repository, captures, begins, ends] →
        (Assoc.keys es).Nodup ∧ ∀ e ∈ es, e.2.Writable := by
      intro es hes
      rcases List.mem_cons.1 hes with hes | hes
      · exact ⟨hkeys es hes.symm, ho es hes.symm⟩
      · exact ⟨hnodup es (mem_maps_mk.2 hes), hmaps es (mem_maps_mk.2 hes)⟩
    rcases setMap_cases head patterns repository captures begins ends key o with h | h | h | h
    all_goals
      rw [h]
      refine .mk hhead hpatterns (fun es hes => (hmem es ?_).1) fun es hes => (hmem es ?_).2
      all_goals
        rw [mem_maps_mk] at hes
        grind

/-- All that is read from the value is writable: a rule, a list of rules or a map of rules. -/
structure ReadsWritable (v : Json) : Prop where
  rule : ∀ r, ofJson? v = some r → r.Writable
  list : ∀ items rs, v = .arr items → ofItems? items = some rs → ∀ r ∈ rs, r.Writable
  map : ∀ entries es, v = .obj entries → ofEntries? entries = some es → ∀ e ∈ es, e.2.Writable

theorem Writable.readTyped? {acc acc' : Rule} {key : String} {v : Json} (h : acc.Writable) (hv : ReadsWritable v)
    (hr : Rule.readTyped? acc key v = some acc') : acc'.Writable := by
  rcases readTyped?_cases hr with ⟨text, rfl⟩ | ⟨o, rfl, ho⟩ | ⟨o, rfl, ho⟩
  · exact h.setText key text
  · refine h.setPatterns fun rs hrs => ?_
    obtain ⟨items, hitems, hread⟩ := ho rs hrs
    exact hv.list items rs hitems hread
  · refine h.setMap key (fun es hes => ?_) fun es hes e he => ?_
    · obtain ⟨-, read, -, -, rfl⟩ := ho es hes
      exact Assoc.nodup_keys_ofList read
    · obtain ⟨entries, read, hentries, hread, rfl⟩ := ho es hes
      exact hv.map entries read hentries hread e (Assoc.mem_ofList he)

theorem writable_of_ofFields? {fields : List (String × Json)} (hfields : ∀ f ∈ fields, ReadsWritable f.2)
    {seen : List String} {acc r : Rule} (h : acc.Writable) (hr : ofFields? seen acc fields = some r) : r.Writable :=
  ofFields?_keeps (I := Writable) (fun _ v _ _ hkey hacc => hacc.setExtra hkey v)
    (fun _ _ _ _ hf hacc' hacc => hacc.readTyped? (hfields _ hf) hacc') h hr

theorem readsWritable (v : Json) : ReadsWritable v := by
  induction v with
  | node v ih =>
    constructor
    · intro r hr
      cases v with
      | obj fields =>
        rw [ofJson?] at hr
        exact writable_of_ofFields? (fun f hf => ih f.2 (List.mem_map_of_mem hf)) writable_blank hr
      | _ => exact absurd hr (by rw [ofJson?.eq_def]; exact nofun)
    · rintro items rs rfl hrs r hr
      obtain ⟨c, hc, hread⟩ := exists_of_ofItems? hrs hr
      exact (ih c hc).rule r hread
    · rintro entries es rfl hes e he
      obtain ⟨f, hf, hread⟩ := exists_of_ofEntries? hes he
      exact (ih f.2 (List.mem_map_of_mem hf)).rule e.2 hread

end Rule

/-- A grammar that is read is writable. -/
theorem Grammar.writable_of_ofJson? {v : Json} {g : Grammar} (h : ofJson? v = some g) : g.Writable := by
  cases v with
  | obj fields =>
    simp only [ofJson?, Option.bind_eq_bind, Option.bind_eq_some_iff, Option.pure_def, Option.some.injEq] at h
    obtain ⟨_, -, _, -, _, -, root, hroot, rfl⟩ := h
    refine ⟨Rule.writable_of_ofFields? (fun f _ => Rule.readsWritable f.2) Rule.writable_blank hroot, ?_⟩
    -- the fields of the grammar are not among those that its root is read from
    have hkeeps : ∀ e ∈ root.head.extra, e.1 ∉ typedFields := by
      have hblank : ∀ e ∈ Rule.blank.head.extra, e.1 ∉ typedFields := fun _ he => by cases he
      refine Rule.ofFields?_keeps (I := fun r => ∀ e ∈ r.head.extra, e.1 ∉ typedFields) ?_ ?_ hblank hroot
      · intro key v acc hf _ hacc e he
        have hkey : key ∉ typedFields := by simpa using (List.mem_filter.1 hf).2
        rcases acc with ⟨head, patterns, repository, captures, begins, ends⟩
        rcases Assoc.mem_put he with he | rfl
        · exact hacc e he
        · exact hkey
      · intro key v acc acc' _ hacc' hacc
        rw [Rule.extra_readTyped? hacc']
        exact hacc
    exact hkeeps
  | _ => cases h

namespace Rule

/-! ## What is written is read back -/

/-- The typed fields of the rule, as they are written. -/
def typedValues (r : Rule) : List (String × Option Json) :=
  [("name", r.head.name.map .str), ("contentName", r.head.contentName.map .str), ("include", r.head.inclusion.map .str),
    ("patterns", r.patterns.map fun rs => .arr (toItems rs)),
    ("repository", r.repository.map fun es => .obj (toEntries es)),
    ("captures", r.captures.map fun es => .obj (toEntries es)),
    ("beginCaptures", r.beginCaptures.map fun es => .obj (toEntries es)),
    ("endCaptures", r.endCaptures.map fun es => .obj (toEntries es))]

/-- The typed fields are written first, and then those that are carried along. -/
theorem toFields_eq (r : Rule) : r.toFields = r.typedValues.flatMap (fun p => Json.optional p.1 p.2) ++ r.head.extra := by
  rcases r with ⟨head, patterns, repository, captures, begins, ends⟩
  rw [typedValues]
  -- both sides are lists put together from the left
  simp only [List.flatMap_cons, List.flatMap_nil, List.append_nil, ← List.append_assoc]
  cases patterns <;> cases repository <;> cases captures <;> cases begins <;> cases ends <;> rfl

/-- Reads a typed field that may be absent. -/
def readOptional? (acc : Rule) (p : String × Option Json) : Option Rule :=
  match p.2 with
  | none => some acc
  | some v => readTyped? acc p.1 v

/-- Fields that are not typed are carried along. -/
theorem ofFields?_extra {extra : List (String × Json)} (h : ∀ e ∈ extra, e.1 ∉ typedFields) (seen : List String)
    (acc : Rule) : ofFields? seen acc extra = some (extra.foldl (fun acc e => acc.setExtra e.1 e.2.canonical) acc) := by
  induction extra generalizing acc with
  | nil => exact ofFields?_nil seen acc
  | cons e extra ih =>
    rw [ofFields?_cons, if_pos (h e List.mem_cons_self), ih (fun e' he' => h e' (List.mem_cons_of_mem e he'))]
    rfl

/-- Typed fields are read one after the other, and then the others are carried along. -/
theorem ofFields?_typed {ps : List (String × Option Json)} {extra : List (String × Json)} {seen : List String}
    (htyped : ∀ p ∈ ps, p.1 ∈ typedFields) (hnodup : (ps.map (·.1)).Nodup) (hseen : ∀ p ∈ ps, p.1 ∉ seen)
    (hextra : ∀ e ∈ extra, e.1 ∉ typedFields) (acc : Rule) :
    ofFields? seen acc (ps.flatMap (fun p => Json.optional p.1 p.2) ++ extra) =
      (ps.foldlM readOptional? acc).map fun r => extra.foldl (fun acc e => acc.setExtra e.1 e.2.canonical) r := by
  induction ps generalizing seen acc with
  | nil => exact ofFields?_extra hextra seen acc
  | cons p ps ih =>
    obtain ⟨key, o⟩ := p
    obtain ⟨hkey, hnodupps⟩ := List.nodup_cons.1 hnodup
    have hps : ∀ p ∈ ps, p.1 ∈ typedFields := fun p hp => htyped p (List.mem_cons_of_mem _ hp)
    have hseenps : ∀ p ∈ ps, p.1 ∉ seen := fun p hp => hseen p (List.mem_cons_of_mem _ hp)
    rw [List.flatMap_cons, List.append_assoc, List.foldlM_cons]
    cases o with
    | none => exact ih hps hnodupps hseenps acc
    | some v =>
      have hcons : ∀ p ∈ ps, p.1 ∉ key :: seen := by
        intro p hp hmem
        rcases List.mem_cons.1 hmem with rfl | hmem
        · exact hkey (List.mem_map.2 ⟨p, hp, rfl⟩)
        · exact hseenps p hp hmem
      change ofFields? seen acc ((key, v) :: _) = _
      rw [ofFields?_cons, if_neg (not_not_intro (htyped _ List.mem_cons_self)), if_neg (hseen _ List.mem_cons_self)]
      change _ = ((readTyped? acc key v).bind fun acc => ps.foldlM readOptional? acc).map _
      cases readTyped? acc key v with
      | none => rfl
      | some acc' => exact ih hps hnodupps hcons acc'

theorem ofItems?_toItems {rs : List Rule} (h : ∀ r ∈ rs, ofJson? r.toJson = some r) : ofItems? (toItems rs) = some rs := by
  induction rs with
  | nil => rw [toItems, ofItems?]
  | cons r rs ih =>
    have hr := h r List.mem_cons_self
    rw [toJson] at hr
    rw [toItems, ofItems?, hr, ih fun r hr => h r (List.mem_cons_of_mem _ hr)]
    rfl

theorem ofEntries?_toEntries {es : List (String × Rule)} (h : ∀ e ∈ es, ofJson? e.2.toJson = some e.2) :
    ofEntries? (toEntries es) = some es := by
  induction es with
  | nil => rw [toEntries, ofEntries?]
  | cons e es ih =>
    obtain ⟨key, r⟩ := e
    have hr := h (key, r) List.mem_cons_self
    rw [toJson] at hr
    rw [toEntries, ofEntries?, hr, ih fun e he => h e (List.mem_cons_of_mem _ he)]
    rfl

section ReadOptional
variable {acc : Rule} {key : String}

/-- An absent field leaves the rule as it is, and so would setting it to nothing. -/
theorem readOptional?_text (hkey : key = "name" ∨ key = "contentName" ∨ key = "include") {o : Option String}
    (hacc : acc.setText key none = acc) : readOptional? acc (key, o.map .str) = some (acc.setText key o) := by
  cases o with
  | none => rw [hacc]; rfl
  | some s =>
    change readTyped? acc key (.str s) = _
    unfold readTyped?
    rw [if_pos hkey]
    rfl

theorem readOptional?_patterns {o : Option (List Rule)} (ho : ∀ rs ∈ o, ofItems? (toItems rs) = some rs)
    (hacc : acc.setPatterns none = acc) :
    readOptional? acc ("patterns", o.map fun rs => .arr (toItems rs)) = some (acc.setPatterns o) := by
  cases o with
  | none => rw [hacc]; rfl
  | some rs =>
    change readTyped? acc "patterns" (.arr (toItems rs)) = _
    unfold readTyped?
    rw [if_neg (by decide), if_pos rfl]
    dsimp only
    rw [ho rs rfl]
    rfl

theorem readOptional?_map (hkey : key ∉ ["name", "contentName", "include", "patterns"])
    {o : Option (List (String × Rule))} (ho : ∀ es ∈ o, ofEntries? (toEntries es) = some es ∧ (Assoc.keys es).Nodup)
    (hacc : acc.setMap key none = acc) :
    readOptional? acc (key, o.map fun es => .obj (toEntries es)) = some (acc.setMap key o) := by
  cases o with
  | none => rw [hacc]; rfl
  | some es =>
    obtain ⟨hread, hnodup⟩ := ho es rfl
    simp only [List.mem_cons, List.not_mem_nil, or_false, not_or] at hkey
    change readTyped? acc key (.obj (toEntries es)) = _
    unfold readTyped?
    rw [if_neg (by simp [hkey]), if_neg hkey.2.2.2]
    dsimp only
    rw [hread, Option.map_some, Assoc.ofList_of_nodup hnodup]

end ReadOptional

/-- Canonical fields are carried along as they are. -/
theorem foldl_setExtra {extra : List (String × Json)} (h : ∀ e ∈ extra, e.2.Unrepeated) (head : RuleHead)
    (patterns : Option (List Rule)) (repository captures begins ends : Option (List (String × Rule))) :
    extra.foldl (fun acc e => acc.setExtra e.1 e.2.canonical) (mk head patterns repository captures begins ends) =
      mk { head with extra := extra.foldl (fun m e => Assoc.put m e.1 e.2) head.extra }
        patterns repository captures begins ends := by
  induction extra generalizing head with
  | nil => rfl
  | cons e extra ih =>
    rw [List.foldl_cons, setExtra, (h e List.mem_cons_self).canonical_eq, ih fun e he => h e (List.mem_cons_of_mem _ he)]
    rfl

/-- The fields of a rule are read back when the rules beneath it are. -/
theorem ofFields?_toFields {r : Rule} (hhead : r.head.Writable) (hpatterns : ∀ rs ∈ r.patterns, ofItems? (toItems rs) = some rs)
    (hmaps : ∀ es ∈ r.maps, ofEntries? (toEntries es) = some es ∧ (Assoc.keys es).Nodup) :
    ofFields? [] blank r.toFields = some r := by
  rcases r with ⟨⟨name, contentName, inclusion, extra⟩, patterns, repository, captures, begins, ends⟩
  change ∀ rs ∈ patterns, _ at hpatterns
  have hmap : ∀ o ∈ [repository, captures, begins, ends], ∀ es ∈ o,
      ofEntries? (toEntries es) = some es ∧ (Assoc.keys es).Nodup := by
    intro o ho es hes
    exact hmaps es (mem_maps_mk.2 (hes ▸ ho))
  have hread : ∀ {acc acc' : Rule} {p : String × Option Json} {ps : List (String × Option Json)},
      readOptional? acc p = some acc' → (p :: ps).foldlM readOptional? acc = ps.foldlM readOptional? acc' := by
    intro acc acc' p ps h
    rw [List.foldlM_cons, h]
    rfl
  rw [toFields_eq, ofFields?_typed (by simp [typedValues, typedFields]) (by simp [typedValues]) (fun _ _ => List.not_mem_nil)
    hhead.untyped]
  have htyped : (typedValues ⟨⟨name, contentName, inclusion, extra⟩, patterns, repository, captures, begins, ends⟩).foldlM
      readOptional? blank = some (mk ⟨name, contentName, inclusion, []⟩ patterns repository captures begins ends) := by
    simp only [typedValues, Rule.head, Rule.patterns, Rule.repository, Rule.captures, beginCaptures, endCaptures]
    rw [hread (readOptional?_text (by simp) rfl)]
    rw [hread (readOptional?_text (by simp) rfl)]
    rw [hread (readOptional?_text (by simp) rfl)]
    rw [hread (readOptional?_patterns hpatterns rfl)]
    rw [hread (readOptional?_map (by simp) (hmap repository (by simp)) rfl)]
    rw [hread (readOptional?_map (by simp) (hmap captures (by simp)) rfl)]
    rw [hread (readOptional?_map (by simp) (hmap begins (by simp)) rfl)]
    rw [hread (readOptional?_map (by simp) (hmap ends (by simp)) rfl)]
    rfl
  rw [htyped, Option.map_some, foldl_setExtra hhead.unrepeated]
  have hextra : Assoc.ofList extra = extra := Assoc.ofList_of_nodup hhead.nodup
  exact congrArg (fun x => some (mk ⟨name, contentName, inclusion, x⟩ patterns repository captures begins ends)) hextra

/-- A writable rule is read back. -/
theorem Writable.ofJson?_toJson {r : Rule} (h : r.Writable) : ofJson? r.toJson = some r := by
  induction h with
  | @mk r hhead _ hnodup _ ihpatterns ihmaps =>
    rw [toJson, ofJson?]
    refine ofFields?_toFields hhead (fun rs hrs => ofItems?_toItems fun c hc => ihpatterns c ?_) fun es hes => ?_
    · rwa [show r.patterns = some rs from hrs]
    · exact ⟨ofEntries?_toEntries (ihmaps es hes), hnodup es hes⟩

end Rule

namespace Grammar

theorem strings?_strings (ss : List String) : (Json.strings ss).strings? = some ss := by
  change (ss.map Json.str).mapM Json.str? = some ss
  induction ss with
  | nil => rfl
  | cons s ss ih =>
    rw [List.map_cons, List.mapM_cons, ih]
    rfl

/-- The fields of the grammar itself, as they are written. -/
def ownFields (g : Grammar) : List (String × Json) :=
  ("scopeName", .str g.scopeName) :: ((if g.fileTypes.isEmpty then [] else [("fileTypes", Json.strings g.fileTypes)])
    ++ Json.optional "firstLineMatch" (g.firstLineMatch.map .str))

theorem toJson_eq (g : Grammar) : g.toJson = .obj (g.ownFields ++ g.root.toFields) := by
  rw [toJson, ownFields, List.cons_append]

/-- No field of the root is named like one of the grammar. -/
theorem Writable.not_mem_typedFields {g : Grammar} (h : g.Writable) {f : String × Json} (hf : f ∈ g.root.toFields) :
    f.1 ∉ typedFields := by
  rw [Rule.toFields_eq] at hf
  rcases List.mem_append.1 hf with hf | hf
  · obtain ⟨p, hp, hf⟩ := List.mem_flatMap.1 hf
    have hkey : p.1 = f.1 := by
      rcases p with ⟨key, _ | v⟩
      · cases hf
      · rw [List.mem_singleton.1 hf]
    have htyped : ∀ p ∈ g.root.typedValues, p.1 ∉ typedFields := by simp [Rule.typedValues, typedFields]
    exact hkey ▸ htyped p hp
  · exact h.untyped f hf

/-- A writable grammar is read back. -/
theorem Writable.ofJson?_toJson {g : Grammar} (h : g.Writable) : ofJson? g.toJson = some g := by
  have hsingle : ∀ {α : Type} (read : Json → Option α) (default : α), ∀ name ∈ typedFields,
      single? read default name (g.ownFields ++ g.root.toFields) = single? read default name g.ownFields := by
    intro α read default name hname
    have hnone : g.root.toFields.filter (·.1 == name) = [] := by
      refine List.filter_eq_nil_iff.2 fun f hf heq => h.not_mem_typedFields hf ?_
      exact beq_iff_eq.1 heq ▸ hname
    unfold single?
    rw [List.filter_append, hnone, List.append_nil]
  have hroot : (g.ownFields ++ g.root.toFields).filter (fun f => !typedFields.contains f.1) = g.root.toFields := by
    have hown : g.ownFields.filter (fun f => !typedFields.contains f.1) = [] := by
      unfold ownFields
      cases g.fileTypes.isEmpty <;> cases g.firstLineMatch <;> simp [Json.optional, typedFields]
    rw [List.filter_append, hown, List.nil_append, List.filter_eq_self]
    exact fun f hf => by simpa using h.not_mem_typedFields hf
  have hscope : single? Json.str? "" "scopeName" g.ownFields = some g.scopeName := by
    unfold single? ownFields
    cases g.fileTypes.isEmpty <;> cases g.firstLineMatch <;> simp [Json.optional, Json.str?]
  have htypes : single? Json.strings? [] "fileTypes" g.ownFields = some g.fileTypes := by
    unfold single? ownFields
    cases hfiles : g.fileTypes <;> cases g.firstLineMatch <;> simp [Json.optional, strings?_strings]
  have hfirst : single? Rule.optionalText? none "firstLineMatch" g.ownFields = some g.firstLineMatch := by
    unfold single? ownFields
    cases g.fileTypes.isEmpty <;> cases g.firstLineMatch <;> simp [Json.optional, Rule.optionalText?]
  have hrule := h.root.ofJson?_toJson
  rw [Rule.toJson, Rule.ofJson?] at hrule
  rw [toJson_eq, ofJson?, hsingle _ _ _ (by simp [typedFields]), hsingle _ _ _ (by simp [typedFields]),
    hsingle _ _ _ (by simp [typedFields]), hroot, hscope, htypes, hfirst, hrule]
  rfl

/-- A grammar is read back as it was written just when it is writable: at every depth, no field that is carried along
is named like a field that is typed there. Whatever is read as a grammar is read back when it is written, so to write
and read again changes nothing more. -/
theorem codec_lossless (g : Grammar) :
    (ofJson? g.toJson = some g ↔ g.Writable) ∧ ∀ v, ofJson? v = some g → ofJson? g.toJson = some g :=
  ⟨⟨writable_of_ofJson?, Writable.ofJson?_toJson⟩, fun _ hv => (writable_of_ofJson? hv).ofJson?_toJson⟩

/-- A grammar with a rule that carries along a field named like one of grammars. -/
def carrying : Grammar where
  scopeName := "s"
  root := .mk { extra := [("comment", .null)] }
    (some [.mk { name := some "k", extra := [("scopeName", .str "x")] } none none (some [("1", .named "c")]) none none])
    (some []) none none none

/-- A grammar as it may be written, with fields repeated. -/
def repeating : Json :=
  .obj [("patterns", .null), ("comment", .int 1), ("repository", .obj [("a", .obj []), ("a", .obj [("name", .str "k")])]),
    ("comment", .obj [("b", .null), ("b", .bool true)])]

theorem writable_carrying : carrying.Writable := by
  have hhead : ∀ (head : RuleHead) key v, head.extra = [(key, v)] → key ∉ Rule.typedFields → v.Unrepeated →
      head.Writable := by
    intro head key v h hkey hv
    exact ⟨by simp [h, Assoc.keys], by simpa [h] using hkey, by simpa [h] using hv⟩
  refine ⟨.mk (hhead _ "comment" .null rfl (by decide) Json.unrepeated_null) (fun r hr => ?_) ?_ ?_, ?_⟩
  · obtain rfl := List.mem_singleton.1 hr
    refine .mk (hhead _ "scopeName" (.str "x") rfl (by decide) (Json.unrepeated_str "x")) (fun c hc => ?_) ?_ ?_
    · cases hc
    · simp [Assoc.keys]
    · simpa using Rule.writable_named "c"
  · simp [carrying, Assoc.keys]
  · simp [carrying]
  · simp [carrying, Rule.head, typedFields]

theorem codec_lossless_carrying : ofJson? carrying.toJson = some carrying ∧
    ∃ g, ofJson? repeating = some g ∧ Assoc.keys g.entries = ["a"] ∧ ofJson? g.toJson = some g := by
  obtain ⟨g, hg, hkeys⟩ : ∃ g, ofJson? repeating = some g ∧ Assoc.keys g.entries = ["a"] := ⟨_, rfl, rfl⟩
  exact ⟨(codec_lossless carrying).1.2 writable_carrying, g, hg, hkeys, (codec_lossless g).2 repeating hg⟩

end Grammar

end ScopeActions
