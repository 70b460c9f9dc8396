import ScopeActions.Proofs.Sorted
import ScopeActions.Toml.Parser
/-!
# Tables in order

Tables that are read from documents have their keys in order, and so have all tables inside them
(`Toml.ordered_of_parse?`).
-/

namespace ScopeActions.Toml

variable {t : List (String × Toml)} {u v : Toml} {key : String} {path : List String}

/-- Keys are in order in the value, if it is a table, and in all tables that are reached from it by keys. -/
inductive Ordered : Toml → Prop
  | table {fields : List (String × Toml)} : SortedMap.Increasing fields → (∀ b ∈ fields, Ordered b.2) →
      Ordered (.table fields)
  | other {v : Toml} : v.table? = none → Ordered v

theorem Ordered.increasing (h : Ordered (.table t)) : SortedMap.Increasing t := by
  cases h with
  | table hincreasing _ => exact hincreasing
  | other hnone => cases hnone

theorem Ordered.get? (h : Ordered (.table t)) (hv : SortedMap.get? t key = some v) : Ordered v := by
  cases h with
  | table _ hfields => exact hfields _ (SortedMap.mem_of_get? hv)
  | other hnone => cases hnone

/-! ## Drafts -/

namespace Draft

/-- The values in a draft are in order. What an array holds does not count. -/
inductive Ordered : Draft → Prop
  | value {v : Toml} : v.Ordered → Ordered (.value v)
  | table {isImplicit isDotted : Bool} {fields : List (String × Draft)} : (∀ b ∈ fields, Ordered b.2) →
      Ordered (.table isImplicit isDotted fields)
  | tables {done : List Draft} {last : Draft} : Ordered (.tables done last)

variable {d d' : Draft} {isImplicit isDotted : Bool} {fields : List (String × Draft)}

theorem ordered_root : Ordered root :=
  .table nofun

theorem Ordered.of_get? (h : Ordered (.table isImplicit isDotted fields)) (hd : Assoc.get? fields key = some d) :
    d.Ordered := by
  cases h with
  | table hfields => exact hfields _ (Assoc.mem_of_get? hd)

theorem Ordered.put (h : Ordered (.table isImplicit isDotted fields)) (hd : d.Ordered) {isImplicit' isDotted' : Bool}
    (key : String) : Ordered (.table isImplicit' isDotted' (Assoc.put fields key d)) := by
  cases h with
  | table hfields =>
    refine .table fun b hb => ?_
    rcases Assoc.mem_put hb with hb | rfl
    · exact hfields b hb
    · exact hd

theorem mem_fieldsToToml {b : String × Toml} (hb : b ∈ fieldsToToml fields) :
    ∃ c ∈ fields, b = (c.1, c.2.toToml) := by
  induction fields with
  | nil => cases hb
  | cons c fields ih =>
    rcases List.mem_cons.1 hb with rfl | hb
    · exact ⟨c, List.mem_cons_self, rfl⟩
    · obtain ⟨c', hc', rfl⟩ := ih hb
      exact ⟨c', List.mem_cons_of_mem c hc', rfl⟩

/-- A draft is finished in order. -/
theorem Ordered.toToml (h : d.Ordered) : d.toToml.Ordered := by
  induction h with
  | value h => exact h
  | table _ ih =>
    refine .table (SortedMap.increasing_ofList _) fun b hb => ?_
    obtain ⟨c, hc, rfl⟩ := mem_fieldsToToml (SortedMap.mem_ofList hb)
    exact ih c hc
  | tables => exact .other rfl

/-- A change at the end of a path that keeps order keeps it on the whole. -/
theorem Ordered.modifyAt {dotted : Bool} {f : Draft → Option Draft}
    (hf : ∀ d d', d.Ordered → f d = some d' → d'.Ordered) (h : d.Ordered) (hd : modifyAt dotted f path d = some d') :
    d'.Ordered := by
  induction path generalizing d d' with
  | nil => exact hf d d' h hd
  | cons key path ih =>
    cases d with
    | table isImplicit isDotted fields =>
      have hput : ∀ {x : Option Draft}, (∀ child, x = some child → child.Ordered) →
          (x.bind fun child => some (.table isImplicit isDotted (Assoc.put fields key child))) = some d' → d'.Ordered := by
        intro x hx hd
        obtain ⟨child, hchild, heq⟩ := Option.bind_eq_some_iff.1 hd
        cases heq
        exact h.put (hx child hchild) key
      rw [Draft.modifyAt] at hd
      split at hd
      · refine hput (fun child hchild => ih (.table ?_) hchild) hd
        exact nofun
      · cases hd
      · refine hput (fun child hchild => ?_) hd
        obtain ⟨_, -, rfl⟩ := Option.map_eq_some_iff.1 hchild
        exact .tables
      · next hfound =>
        split at hd
        · cases hd
        · exact hput (fun child hchild => ih (h.of_get? hfound) hchild) hd
    | _ => cases hd

theorem Ordered.define {keys : List String} (h : d.Ordered) (hv : v.Ordered) (hd : d.define keys v = some d') :
    d'.Ordered := by
  unfold Draft.define at hd
  split at hd
  · cases hd
  · refine h.modifyAt (fun d d' h hd => ?_) hd
    split at hd
    · split at hd
      · cases hd
      · cases hd
        exact h.put (.value hv) _
    · cases hd

theorem Ordered.openTable {keys : List String} (h : d.Ordered) (hd : d.openTable keys = some d') : d'.Ordered := by
  unfold Draft.openTable at hd
  split at hd
  · cases hd
  · refine h.modifyAt (fun d d' h hd => ?_) hd
    split at hd
    · split at hd
      · cases hd
        exact h.put ordered_root _
      · next hfound =>
        cases hd
        cases h.of_get? hfound with
        | table hchild => exact h.put (.table hchild) _
      · cases hd
    · cases hd

theorem Ordered.openItem {keys : List String} (h : d.Ordered) (hd : d.openItem keys = some d') : d'.Ordered := by
  unfold Draft.openItem at hd
  split at hd
  · cases hd
  · refine h.modifyAt (fun d d' h hd => ?_) hd
    split at hd
    · split at hd
      · cases hd
        exact h.put .tables _
      · cases hd
        exact h.put .tables _
      · cases hd
    · cases hd

theorem Ordered.defineIn {header keys : List String} (h : d.Ordered) (hv : v.Ordered)
    (hd : d.defineIn header keys v = some d') : d'.Ordered :=
  h.modifyAt (fun _ _ h hd => h.define hv hd) hd

end Draft

/-! ## Scalars -/

namespace Scalar

/-- What is read, if anything is, is no table. -/
def Plain (value : Option Toml) : Prop :=
  ∀ v ∈ value, v.table? = none

theorem plain_none : Plain none :=
  nofun

theorem plain_some (h : v.table? = none) : Plain (some v) :=
  fun _ hv => Option.some.inj hv ▸ h

theorem Plain.bind {α : Type} {x : Option α} {f : α → Option Toml} (h : ∀ a, Plain (f a)) : Plain (x.bind f) := by
  intro v hv
  obtain ⟨a, -, hv⟩ := Option.bind_eq_some_iff.1 hv
  exact h a v hv

theorem Plain.guard {p : Prop} [Decidable p] {value : Option Toml} (h : Plain value) :
    Plain (if p then value else none) := by
  split
  · exact h
  · exact plain_none

theorem Plain.or {x y : Option Toml} (hx : Plain x) (hy : Plain y) : Plain (x.or y) := by
  intro v hv
  rcases Option.or_eq_some_iff.1 hv with hv | ⟨-, hv⟩
  · exact hx v hv
  · exact hy v hv

theorem plain_based (base : Nat) (isDigit : Char → Bool) (cs : List Char) : Plain (based base isDigit cs) :=
  .bind fun _ => .guard (plain_some rfl)

theorem plain_int? (cs : List Char) : Plain (int? cs) := by
  unfold int?
  split
  · exact plain_based 16 isHex _
  · exact plain_based 8 _ _
  · exact plain_based 2 _ _
  · obtain ⟨negative, _, digits⟩ := splitSign _
    refine .bind fun ds => ?_
    cases negative
    · exact .guard (plain_some rfl)
    · exact .guard (plain_some rfl)

theorem plain_float? (cs : List Char) : Plain (float? cs) := by
  unfold float?
  dsimp only
  split
  · exact plain_some rfl
  · exact plain_some rfl
  · have hdigits : ∀ (negative : Bool) (e : Int) (whole fraction : List Char), Plain
        ((Binary64.ofDecimal? negative (ofDigits 10 (whole ++ fraction)) (e - fraction.length)).bind fun d =>
          some (.float (.finite d))) :=
      fun _ _ _ _ => .bind fun _ => plain_some rfl
    split
    · split
      · refine .bind fun e => .bind fun whole => ?_
        split
        · exact .bind fun _ => hdigits _ _ _ _
        · exact .bind fun _ => hdigits _ _ _ _
      · exact plain_none
    · refine .bind fun e => .bind fun whole => ?_
      split
      · exact .bind fun _ => hdigits _ _ _ _
      · exact .bind fun _ => hdigits _ _ _ _

theorem plain_bool? (cs : List Char) : Plain (bool? cs) := by
  unfold bool?
  split
  · exact plain_some rfl
  · exact plain_some rfl
  · exact plain_none

theorem plain_datetime? (cs : List Char) : Plain (datetime? cs) := by
  unfold datetime?
  split
  · exact plain_some rfl
  · split
    · exact plain_none
    · exact .bind fun _ => .bind fun _ => plain_some rfl
  · split
    · exact plain_some rfl
    · exact plain_none

/-- A scalar is no table. -/
theorem table?_of_read {cs rest : List Char} (h : read cs = some (v, rest)) : v.table? = none := by
  unfold read at h
  obtain ⟨w, hw, heq⟩ := Option.map_eq_some_iff.1 h
  cases heq
  exact (plain_bool? _).or ((plain_int? _).or ((plain_float? _).or (plain_datetime? _))) _ hw

end Scalar
/-! ## Documents -/

/-- Values and the fields of inline tables are read in order. -/
theorem ordered_of_readValue (steps depth : Nat) :
    (∀ cs v rest, readValue depth steps cs = some (v, rest) → v.Ordered) ∧
    ∀ d cs d' rest, d.Ordered → readFields depth steps d cs = some (d', rest) → d'.Ordered := by
  induction steps generalizing depth with
  | zero => exact ⟨nofun, nofun⟩
  | succ steps ih =>
    refine ⟨fun cs v rest h => ?_, fun d cs d' rest hd h => ?_⟩
    · unfold readValue at h
      split at h
      · obtain ⟨_, -, heq⟩ := Option.map_eq_some_iff.1 h
        cases heq
        exact .other rfl
      · obtain ⟨_, -, heq⟩ := Option.map_eq_some_iff.1 h
        cases heq
        exact .other rfl
      · obtain ⟨-, h⟩ := Option.ite_none_left_eq_some.1 h
        obtain ⟨_, -, heq⟩ := Option.map_eq_some_iff.1 h
        cases heq
        exact .other rfl
      · obtain ⟨-, h⟩ := Option.ite_none_left_eq_some.1 h
        obtain ⟨⟨d, _⟩, hread, heq⟩ := Option.map_eq_some_iff.1 h
        cases heq
        exact ((ih _).2 _ _ _ _ Draft.ordered_root hread).toToml
      · exact .other (Scalar.table?_of_read h)
    · unfold readFields at h
      split at h
      · cases h
      · cases h
        exact hd
      · split at h
        · split at h
          · cases h
          · next hvalue =>
            split at h
            · cases h
            · next hdefine =>
              have hd' := hd.define ((ih _).1 _ _ _ hvalue) hdefine
              split at h
              · exact (ih _).2 _ _ _ _ hd' h
              · cases h
                exact hd'
              · cases h
        · cases h

theorem ordered_of_readLines {d d' : Draft} {steps : Nat} {header : List String} {cs : List Char} (hd : d.Ordered)
    (h : readLines steps header d cs = some d') : d'.Ordered := by
  induction steps generalizing header d cs with
  | zero => cases h
  | succ steps ih =>
    have hline : ∀ {next : Option Draft} {header : List String} {rest : List Char},
        (∀ d₁, next = some d₁ → d₁.Ordered) →
        (next.bind fun d₁ => (Text.endLine rest).bind fun rest => readLines steps header d₁ rest) = some d' →
        d'.Ordered := by
      intro next header rest hnext h
      obtain ⟨d₁, hd₁, h⟩ := Option.bind_eq_some_iff.1 h
      obtain ⟨rest, -, h⟩ := Option.bind_eq_some_iff.1 h
      exact ih (hnext d₁ hd₁) h
    unfold readLines at h
    split at h
    · cases h
    · cases h
      exact hd
    · obtain ⟨⟨keys, rest⟩, -, h⟩ := Option.bind_eq_some_iff.1 h
      dsimp only at h
      split at h
      · exact hline (fun _ hopen => hd.openItem hopen) h
      · cases h
    · obtain ⟨⟨keys, rest⟩, -, h⟩ := Option.bind_eq_some_iff.1 h
      dsimp only at h
      split at h
      · exact hline (fun _ hopen => hd.openTable hopen) h
      · cases h
    · obtain ⟨⟨keys, rest⟩, -, h⟩ := Option.bind_eq_some_iff.1 h
      dsimp only at h
      split at h
      · obtain ⟨⟨v, rest⟩, hvalue, h⟩ := Option.bind_eq_some_iff.1 h
        have hv := (ordered_of_readValue _ _).1 _ _ _ hvalue
        exact hline (fun _ hdefine => hd.defineIn hv hdefine) h
      · cases h

/-- The table of a document is in order. -/
theorem ordered_of_parse? {text : String} (h : parse? text = some t) : Ordered (.table t) := by
  obtain ⟨d, hd, h⟩ := Option.bind_eq_some_iff.1 h
  have hordered := (ordered_of_readLines Draft.ordered_root hd).toToml
  cases htable : d.toToml with
  | table fields =>
    rw [htable] at h hordered
    cases h
    exact hordered
  | _ =>
    rw [htable] at h
    cases h

end ScopeActions.Toml
