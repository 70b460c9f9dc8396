import Mathlib.Data.List.Forall2
import ScopeActions.Bundled
import ScopeActions.Proofs.Toml.Ordered
/-!
# Layers of tables

Tables that are laid one over the other are looked up by paths of keys. A value that is no table comes from the last
layer that says anything about its path (`Toml.at?_foldl_merge`).
-/

namespace ScopeActions.Toml

variable {below : Option Toml} {u v w : Toml} {lower upper t : List (String × Toml)} {ts : List (List (String × Toml))}
  {key : String} {path : List String}

/-! ## Look-ups -/

/-- The value at the end of a path of keys. -/
def at? : List String → Toml → Option Toml
  | [], v => some v
  | key :: path, table fields => (SortedMap.get? fields key).bind (at? path)
  | _ :: _, _ => none

/-- The value has something at the path, or a value that is no table on the way to it. -/
def Shadows (u : Toml) (path : List String) : Prop :=
  at? path u ≠ none ∨ ∃ q w, q <+: path ∧ q ≠ path ∧ at? q u = some w ∧ w.table? = none

theorem exists_table (h : u.table? ≠ none) : ∃ fields, u = .table fields := by
  cases u with
  | table fields => exact ⟨fields, rfl⟩
  | _ => exact absurd rfl h

theorem Ordered.at? (h : Ordered u) (hv : at? path u = some v) : Ordered v := by
  induction path generalizing u with
  | nil => exact Option.some.inj hv ▸ h
  | cons key path ih =>
    cases u with
    | table fields =>
      obtain ⟨w, hw, hv⟩ := Option.bind_eq_some_iff.1 hv
      exact ih (h.get? hw) hv
    | _ => cases hv

theorem at?_of_table?_eq_none (h : u.table? = none) (key : String) (path : List String) : at? (key :: path) u = none := by
  cases u <;> first | rfl | cases h

/-! ## Two layers -/

theorem layOn_of_table?_eq_none (below : Option Toml) (h : u.table? = none) : layOn below u = u := by
  cases u <;> first | rfl | cases h

/-- A table is merged with a table, and takes the place of anything else. -/
theorem layOn_table_cases (below : Option Toml) (upper : List (String × Toml)) :
    (∃ lower, below = some (.table lower) ∧ layOn below (.table upper) = .table (merge lower upper)) ∨
      ((∀ w, below = some w → w.table? = none) ∧ layOn below (.table upper) = .table upper) := by
  rcases below with _ | w
  · exact .inr ⟨nofun, rfl⟩
  · cases w with
    | table lower => exact .inl ⟨lower, rfl, rfl⟩
    | _ => exact .inr ⟨fun w hw => Option.some.inj hw ▸ rfl, rfl⟩

theorem table?_layOn (below : Option Toml) (u : Toml) : (layOn below u).table? = none ↔ u.table? = none := by
  cases u with
  | table upper =>
    unfold layOn
    split <;> simp [table?]
  | _ => rfl

/-- What is looked up in one table laid over another. -/
theorem get?_merge (hupper : SortedMap.Increasing upper) (lower : List (String × Toml)) (key : String) :
    SortedMap.get? (merge lower upper) key =
      match SortedMap.get? upper key with
      | none => SortedMap.get? lower key
      | some u => some (layOn (SortedMap.get? lower key) u) := by
  induction upper generalizing lower with
  | nil => rfl
  | cons b upper ih =>
    obtain ⟨k, u⟩ := b
    obtain ⟨hfirst, hrest⟩ := List.pairwise_cons.1 hupper
    rw [merge, ih hrest, SortedMap.get?_set, SortedMap.get?_cons]
    by_cases hk : k = key
    · subst hk
      rw [SortedMap.get?_eq_none hfirst, if_pos rfl, if_pos rfl]
    · rw [if_neg hk, if_neg hk]

/-! ## What is hidden -/

theorem shadows_nil (u : Toml) : Shadows u [] :=
  .inl nofun

theorem shadows_of_table?_eq_none (h : u.table? = none) (key : String) (path : List String) : Shadows u (key :: path) :=
  .inr ⟨[], u, List.nil_prefix, nofun, rfl, h⟩

theorem at?_table_eq_some :
    at? (key :: path) (.table t) = some w ↔ ∃ u, SortedMap.get? t key = some u ∧ at? path u = some w :=
  Option.bind_eq_some_iff

theorem shadows_table : Shadows (.table t) (key :: path) ↔ ∃ u, SortedMap.get? t key = some u ∧ Shadows u path := by
  constructor
  · rintro (hsome | ⟨q, w, hprefix, hne, hq, hw⟩)
    · obtain ⟨w, hw⟩ := Option.ne_none_iff_exists'.1 hsome
      obtain ⟨u, hu, hpath⟩ := at?_table_eq_some.1 hw
      exact ⟨u, hu, .inl (by simp [hpath])⟩
    · cases q with
      | nil =>
        cases hq
        cases hw
      | cons k q =>
        obtain ⟨rfl, hrest⟩ := List.cons_prefix_cons.1 hprefix
        obtain ⟨u, hu, hq⟩ := at?_table_eq_some.1 hq
        exact ⟨u, hu, .inr ⟨q, w, hrest, fun h => hne (congrArg _ h), hq, hw⟩⟩
  · rintro ⟨u, hu, hsome | ⟨q, w, hprefix, hne, hq, hw⟩⟩
    · refine .inl ?_
      rw [at?, hu]
      exact hsome
    · refine .inr ⟨key :: q, w, List.cons_prefix_cons.2 ⟨rfl, hprefix⟩, fun h => hne (List.cons.inj h).2, ?_, hw⟩
      exact at?_table_eq_some.2 ⟨u, hu, hq⟩

/-- An upper layer leaves what it does not hide. -/
theorem at?_layOn (hu : Ordered u) (hv : v.table? = none) (path : List String) (below : Option Toml) :
    at? path (layOn below u) = some v ↔ at? path u = some v ∨ (¬Shadows u path ∧ below.bind (at? path) = some v) := by
  induction path generalizing u below with
  | nil =>
    have hhidden : ¬Shadows u [] ↔ False := by simp [shadows_nil]
    rw [hhidden, false_and, or_false, at?, at?, Option.some.injEq, Option.some.injEq]
    constructor
    · intro h
      rw [← h, table?_layOn] at hv
      rwa [layOn_of_table?_eq_none below hv] at h
    · rintro rfl
      exact layOn_of_table?_eq_none below hv
  | cons key path ih =>
    by_cases htable : u.table? = none
    · have hhidden := shadows_of_table?_eq_none htable key path
      rw [layOn_of_table?_eq_none below htable]
      simp [hhidden]
    · obtain ⟨upper, rfl⟩ := exists_table htable
      rcases layOn_table_cases below upper with ⟨lower, rfl, hlay⟩ | ⟨hbelow, hlay⟩
      · rw [hlay, at?, get?_merge hu.increasing, shadows_table]
        cases hfound : SortedMap.get? upper key with
        | none => simp [at?, hfound]
        | some w =>
          dsimp only [Option.bind_some]
          rw [ih (hu.get? hfound)]
          simp [at?, hfound]
      · have hnone : below.bind (at? (key :: path)) = none :=
          Option.bind_eq_none_iff.2 fun w hw => at?_of_table?_eq_none (hbelow w hw) key path
        rw [hlay, hnone]
        simp

/-! ## Layers -/

theorem increasing_merge (h : SortedMap.Increasing lower) (upper : List (String × Toml)) :
    SortedMap.Increasing (merge lower upper) := by
  induction upper generalizing lower with
  | nil => exact h
  | cons b upper ih => exact ih (h.set b.1 _)

theorem Ordered.merge (hlower : Ordered (.table lower)) (hupper : Ordered (.table upper)) :
    Ordered (.table (merge lower upper)) := by
  suffices ∀ u, Ordered u → ∀ below, (∀ w, below = some w → Ordered w) → Ordered (layOn below u) from
    this _ hupper (some (.table lower)) fun w hw => Option.some.inj hw ▸ hlower
  intro u hu
  induction hu with
  | other h =>
    intro below _
    rw [layOn_of_table?_eq_none below h]
    exact .other h
  | @table upper hincreasing hfields ih =>
    intro below hbelow
    rcases layOn_table_cases below upper with ⟨lower, rfl, hlay⟩ | ⟨-, hlay⟩
    · have hlower := hbelow _ rfl
      have hmerged := increasing_merge hlower.increasing upper
      rw [hlay]
      refine .table hmerged fun b hb => ?_
      have hvalue := hmerged.get?_of_mem hb
      rw [get?_merge hincreasing] at hvalue
      cases hfound : SortedMap.get? upper b.1 with
      | none =>
        rw [hfound] at hvalue
        exact hlower.get? hvalue
      | some w =>
        rw [hfound] at hvalue
        rw [← Option.some.inj hvalue]
        exact ih _ (SortedMap.mem_of_get? hfound) _ fun _ h => hlower.get? h
    · rw [hlay]
      exact .table hincreasing hfields

theorem layOn_none (u : Toml) : layOn none u = u := by
  cases u <;> rfl

theorem merge_nil (h : SortedMap.Increasing t) : merge [] t = t := by
  refine (increasing_merge .nil t).ext h fun key => ?_
  rw [get?_merge h]
  cases SortedMap.get? t key with
  | none => rfl
  | some w => exact congrArg some (layOn_none w)

/-- A layer laid over a table that it was laid over already changes nothing. -/
theorem merge_merge (hlower : Ordered (.table lower)) (hupper : Ordered (.table upper)) :
    merge (merge lower upper) upper = merge lower upper := by
  suffices ∀ u, Ordered u → ∀ below, (∀ w, below = some w → Ordered w) →
      layOn (some (layOn below u)) u = layOn below u from
    table.inj (this _ hupper (some (.table lower)) fun w hw => Option.some.inj hw ▸ hlower)
  intro u hu
  induction hu with
  | other h =>
    intro below _
    rw [layOn_of_table?_eq_none _ h, layOn_of_table?_eq_none _ h]
  | @table upper hincreasing hfields ih =>
    intro below hbelow
    have htwice : ∀ lower, Ordered (.table lower) → merge (merge lower upper) upper = merge lower upper := by
      intro lower hlower
      have hmerged := increasing_merge hlower.increasing upper
      refine (increasing_merge hmerged upper).ext hmerged fun key => ?_
      rw [get?_merge hincreasing, get?_merge hincreasing]
      cases hfound : SortedMap.get? upper key with
      | none => rfl
      | some w => exact congrArg some (ih _ (SortedMap.mem_of_get? hfound) _ fun _ h => hlower.get? h)
    rcases layOn_table_cases below upper with ⟨lower, rfl, hlay⟩ | ⟨-, hlay⟩
    · rw [hlay, layOn, htwice lower (hbelow _ rfl)]
    · have hself := htwice [] (.table .nil nofun)
      rw [merge_nil hincreasing] at hself
      rw [hlay, layOn, hself]

theorem exists_table_of_at? {l : List (String × Toml)} (h : at? path u = some (.table l)) :
    ∃ fields, u = .table fields := by
  refine exists_table fun hnone => ?_
  cases path with
  | nil =>
    cases h
    cases hnone
  | cons key path =>
    rw [at?_of_table?_eq_none hnone] at h
    cases h

/-- Where both layers have a table, these are merged. -/
theorem at?_merge_table {b l u : List (String × Toml)} (ht : Ordered (.table t))
    (hl : at? path (.table b) = some (.table l)) (hu : at? path (.table t) = some (.table u)) :
    at? path (.table (merge b t)) = some (.table (merge l u)) := by
  induction path generalizing b t with
  | nil =>
    cases hl
    cases hu
    rfl
  | cons key path ih =>
    obtain ⟨x, hx, hl⟩ := at?_table_eq_some.1 hl
    obtain ⟨y, hy, hu⟩ := at?_table_eq_some.1 hu
    obtain ⟨b', rfl⟩ := exists_table_of_at? hl
    obtain ⟨t', rfl⟩ := exists_table_of_at? hu
    rw [at?, get?_merge ht.increasing, hx, hy]
    exact ih (ht.get? hy) hl hu

/-- Layer by layer, what is found is what the last layer shows, or what is below all of them. -/
theorem at?_foldl (hts : ∀ t ∈ ts, Ordered (.table t)) (hv : v.table? = none) (path : List String)
    (lower : List (String × Toml)) : at? path (.table (ts.foldl merge lower)) = some v ↔
      (∃ before t after, ts = before ++ t :: after ∧ at? path (.table t) = some v ∧
        ∀ u ∈ after, ¬Shadows (.table u) path) ∨
      ((∀ u ∈ ts, ¬Shadows (.table u) path) ∧ at? path (.table lower) = some v) := by
  induction ts generalizing lower with
  | nil => simp
  | cons t ts ih =>
    obtain ⟨ht, hts⟩ := List.forall_mem_cons.1 hts
    have hlayer : at? path (.table (merge lower t)) = some v ↔ at? path (.table t) = some v ∨
        (¬Shadows (.table t) path ∧ at? path (.table lower) = some v) := at?_layOn ht hv path (some (.table lower))
    rw [List.foldl_cons, ih hts, hlayer]
    constructor
    · rintro (⟨before, t', after, rfl, hfound, hafter⟩ | ⟨hhidden, hfound | ⟨ht', hfound⟩⟩)
      · exact .inl ⟨t :: before, t', after, rfl, hfound, hafter⟩
      · exact .inl ⟨[], t, ts, rfl, hfound, hhidden⟩
      · exact .inr ⟨List.forall_mem_cons.2 ⟨ht', hhidden⟩, hfound⟩
    · rintro (⟨before, t', after, hsplit, hfound, hafter⟩ | ⟨hhidden, hfound⟩)
      · rcases List.cons_eq_append_iff.1 hsplit with ⟨rfl, hcons⟩ | ⟨before, rfl, rfl⟩
        · obtain ⟨rfl, rfl⟩ := List.cons.inj hcons
          exact .inr ⟨hafter, .inl hfound⟩
        · exact .inl ⟨before, t', after, rfl, hfound, hafter⟩
      · obtain ⟨ht', hhidden⟩ := List.forall_mem_cons.1 hhidden
        exact .inr ⟨hhidden, .inr ⟨ht', hfound⟩⟩

theorem ordered_foldl (hts : ∀ t ∈ ts, Ordered (.table t)) (hlower : Ordered (.table lower)) :
    Ordered (.table (ts.foldl merge lower)) := by
  induction ts generalizing lower with
  | nil => exact hlower
  | cons t ts ih =>
    obtain ⟨ht, hts⟩ := List.forall_mem_cons.1 hts
    exact ih hts (hlower.merge ht)

/-- The reader gives tables that have their keys in order. -/
def KeepsOrder (read : TomlReader) : Prop :=
  ∀ text t, read text = some t → Ordered (.table t)

theorem keepsOrder_bundled : KeepsOrder Libraries.bundled.toml := fun _ _ => ordered_of_parse?

/-- The tables of a configuration's files are laid one over the other. Each has its keys in order. -/
theorem exists_layers_of_loadTables {read : TomlReader} (hread : KeepsOrder read) {fs : FileSystem}
    {paths : List String} {merged : List (String × Toml)} (h : Config.loadTables read fs lower paths = .ok merged) :
    ∃ ts, merged = ts.foldl merge lower ∧ (∀ t ∈ ts, Ordered (.table t)) ∧
      List.Forall₂ (fun path t => ∃ text, fs.readText path = .ok text ∧ read text = some t) paths ts := by
  induction paths generalizing lower with
  | nil =>
    cases h
    exact ⟨[], rfl, nofun, .nil⟩
  | cons path paths ih =>
    unfold Config.loadTables at h
    split at h
    · cases h
    · next text htext =>
      split at h
      · cases h
      · next t ht =>
        obtain ⟨ts, hmerged, hordered, hlayers⟩ := ih h
        refine ⟨t :: ts, hmerged, ?_, .cons ⟨text, htext, ht⟩ hlayers⟩
        exact List.forall_mem_cons.2 ⟨hread text t ht, hordered⟩

/-- Tables are laid one over the other, from an empty one on. A value that is no table is found at a path exactly if it is
the one of a layer, and no later layer has anything at the path or a value that is no table on the way to it. A layer
that comes twice in a row counts once. Where a layer and what is below both have a table, the keys that it does not have
keep their values. -/
theorem at?_foldl_merge (ts : List (List (String × Toml))) (hts : ∀ t ∈ ts, Ordered (.table t)) :
    (∀ path v, v.table? = none → (at? path (.table (ts.foldl merge [])) = some v ↔
      ∃ before t after, ts = before ++ t :: after ∧ at? path (.table t) = some v ∧
        ∀ u ∈ after, ¬Shadows (.table u) path)) ∧
    (∀ t, Ordered (.table t) → (ts ++ [t, t]).foldl merge [] = (ts ++ [t]).foldl merge []) ∧
    ∀ t, Ordered (.table t) → ∀ path lower upper, at? path (.table (ts.foldl merge [])) = some (.table lower) →
      at? path (.table t) = some (.table upper) →
      ∃ merged, at? path (.table ((ts ++ [t]).foldl merge [])) = some (.table merged) ∧
        ∀ key, SortedMap.get? upper key = none → SortedMap.get? merged key = SortedMap.get? lower key := by
  have hempty : Ordered (.table []) := .table .nil nofun
  refine ⟨fun path v hv => ?_, fun t ht => ?_, fun t ht path lower upper hlower hupper => ?_⟩
  · have hnone : at? path (.table []) ≠ some v := by
      cases path with
      | nil =>
        rintro h
        cases h
        cases hv
      | cons key path => nofun
    rw [at?_foldl hts hv, or_iff_left fun h => hnone h.2]
  · rw [List.foldl_append, List.foldl_append]
    exact merge_merge (ordered_foldl hts hempty) ht
  · refine ⟨merge lower upper, ?_, fun key hkey => ?_⟩
    · rw [List.foldl_append]
      exact at?_merge_table ht hlower hupper
    · have hincreasing := (ht.at? hupper).increasing
      rw [get?_merge hincreasing, hkey]

/-- A table in a table, then one over it that has only one of its keys, then one that has nothing there. -/
def stacked : List (List (String × Toml)) :=
  [[("a", .table [("b", .int 1), ("c", .int 2)])], [("a", .table [("b", .table [("d", .int 3)])])], [("e", .int 4)]]

theorem ordered_stacked : ∀ t ∈ stacked, Ordered (.table t) := by
  have hint : ∀ n, Ordered (.int n) := fun _ => .other rfl
  have hd : Ordered (.table [("d", .int 3)]) := .table (List.pairwise_singleton _ _) (by simp [hint])
  have hb : Ordered (.table [("b", .table [("d", .int 3)])]) := .table (List.pairwise_singleton _ _) (by simp [hd])
  have hbc : Ordered (.table [("b", .int 1), ("c", .int 2)]) :=
    .table (List.pairwise_pair.2 (by decide)) (by simp [hint])
  simp only [stacked, List.forall_mem_cons]
  exact ⟨.table (List.pairwise_singleton _ _) (by simp [hbc]), .table (List.pairwise_singleton _ _) (by simp [hb]),
    .table (List.pairwise_singleton _ _) (by simp [hint]), nofun⟩

theorem at?_foldl_merge_stacked :
    (∀ t ∈ stacked, Ordered (.table t)) ∧ (Toml.int 2).table? = none ∧
    ∃ before t after, stacked = before ++ t :: after ∧ at? ["a", "c"] (.table t) = some (.int 2) ∧
      ∀ u ∈ after, ¬Shadows (.table u) ["a", "c"] := by
  obtain ⟨hlast, -, -⟩ := at?_foldl_merge stacked ordered_stacked
  exact ⟨ordered_stacked, rfl, (hlast ["a", "c"] (.int 2) rfl).1 rfl⟩

end ScopeActions.Toml
