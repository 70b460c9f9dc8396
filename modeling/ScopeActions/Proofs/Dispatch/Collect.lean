import ScopeActions.Proofs.Dispatch.Bucket
import ScopeActions.Proofs.Dispatch.Gather
/-!
# Collecting the tokens of lines

With collectors registered, the launches of a line append the texts of each scope collected to its structure, once for
each collector (`Dispatcher.flatMap_block_lineLaunches`). Lines do so one after the other, whatever the order of the
turns on each (`Dispatcher.LinesReach.holds`).
-/

namespace ScopeActions

variable {ε : Type} {collect : List String} {log : List (Entry (Handler (World ε)))} {e : Entry (Handler (World ε))}

/-! ## What is registered -/

namespace Collector

/-- What the registry of a run holds: the built-in actions, then a collector for each scope. -/
def actions (collect : List String) : List (String × String × Handler (World ε)) :=
  builtins ++ collect.map fun scope => (scope, collectorSource, collector)

/-- The log of such a registry. -/
def IsLog (collect : List String) (log : List (Entry (Handler (World ε)))) : Prop :=
  log.map (fun e => (e.scope.text, e.source, e.handler)) = actions collect

theorem startRegistry_eq_ok {r : Actions ε} :
    startRegistry = .ok r ↔ Registry.registerAll .empty builtins = (.ok (), r) := by
  unfold startRegistry
  rcases Registry.registerAll .empty builtins with ⟨e | ⟨⟩, r'⟩ <;> simp

/-- A registry that collectors were added to has such a log. -/
theorem exists_log {start r : Actions ε} (hstart : startRegistry = .ok start)
    (hr : withCollectors start collect = (.ok (), r)) : ∃ log, r.Records log ∧ IsLog collect log := by
  obtain ⟨built, hbuilt, hmap⟩ := Registry.records_empty.registerAll (startRegistry_eq_ok.1 hstart)
  obtain ⟨es, hes, hmap'⟩ := hbuilt.registerAll hr
  refine ⟨_, hes, ?_⟩
  rw [IsLog, actions, List.map_append, List.nil_append, hmap, hmap']

/-- An entry is a built-in action or a collector of one of the scopes. -/
theorem IsLog.entry (h : IsLog collect log) (he : e ∈ log) :
    (e.scope.text = "run.tmgt.files" ∧ e.source = builtinSource ∧ e.handler = recordFiles) ∨
    (e.scope.text = "finalize.tmgt.report" ∧ e.source = builtinSource ∧ e.handler = reportEnd) ∨
    (e.scope.text ∈ collect ∧ e.source = collectorSource ∧ e.handler = collector) := by
  have hmem : (e.scope.text, e.source, e.handler) ∈ actions collect :=
    h ▸ List.mem_map_of_mem (f := fun e => (e.scope.text, e.source, e.handler)) he
  simp only [actions, builtins, List.mem_append, List.mem_cons, List.mem_map, List.not_mem_nil, or_false, Prod.mk.injEq] at hmem
  rcases hmem with (h | h) | ⟨scope, hs, rfl, hsource, hhandler⟩
  · exact .inl h
  · exact .inr (.inl h)
  · exact .inr (.inr ⟨hs, hsource.symm, hhandler.symm⟩)

/-- A scope has as many collectors as it was given times. -/
theorem IsLog.countP_collectors (h : IsLog collect log) (k : String) :
    log.countP (fun e => e.scope.text = k ∧ e.source = collectorSource) = collect.count k := by
  have hactions : log.countP (fun e => e.scope.text = k ∧ e.source = collectorSource) =
      (actions (ε := ε) collect).countP fun a => a.1 = k ∧ a.2.1 = collectorSource := by
    rw [← h, List.countP_map]
    rfl
  have hbuiltins : (builtins (ε := ε)).countP (fun a => a.1 = k ∧ a.2.1 = collectorSource) = 0 := by
    simp [builtins, builtinSource, collectorSource]
  rw [hactions, actions, List.countP_append, hbuiltins, Nat.zero_add, List.countP_map, List.count]
  refine List.countP_congr fun scope _ => ?_
  simp

theorem IsLog.exists_of_mem (h : IsLog collect log) {k : String} (hk : k ∈ collect) : ∃ e ∈ log, e.scope.text = k := by
  have hpos : 0 < log.countP fun e => e.scope.text = k ∧ e.source = collectorSource := by
    rw [h.countP_collectors]
    exact List.count_pos_iff.2 hk
  obtain ⟨e, he, hp⟩ := List.countP_pos_iff.1 hpos
  exact ⟨e, he, (of_decide_eq_true hp).1⟩

end Collector

/-! ## Lines -/

namespace Dispatcher

variable {d : Dispatcher ε} {line : String} {tokens : List Token} {number : Nat} {document : Option Document}

/-- The blocks that a line appends: the texts of each scope, once for each of its collectors. -/
def lineBlocks (collect : List String) (line : String) (tokens : List Token) : Blocks := fun k =>
  if Bucket.textsOf k line tokens = [] then [] else List.replicate (collect.count k) (Bucket.textsOf k line tokens)

theorem flatten_lineBlocks (collect : List String) (lines : List (String × List Token)) (k : String) :
    (lines.flatMap fun p => lineBlocks collect p.1 p.2 k).flatten =
      lines.flatMap fun p => (List.replicate (collect.count k) (Bucket.textsOf k p.1 p.2)).flatten := by
  induction lines with
  | nil => rfl
  | cons p lines ih =>
    rw [List.flatMap_cons, List.flatten_append, ih, List.flatMap_cons]
    unfold lineBlocks
    split
    · next h => simp [h]
    · rfl

/-- A line appends something for a scope that is collected and occurs on it. -/
theorem lineBlocks_eq_nil {k : String} :
    lineBlocks collect line tokens k = [] ↔ ¬(k ∈ collect ∧ ∃ t ∈ tokens, k ∈ t.scopes) := by
  unfold lineBlocks
  split
  · next h =>
    rw [Bucket.textsOf_eq_nil] at h
    simpa using fun _ => h
  · next h =>
    rw [Bucket.textsOf_eq_nil] at h
    simp only [List.replicate_eq_nil_iff, List.count_eq_zero]
    grind

/-- A launch on a line is of an entry on the scope of a bucket, with the texts of that. -/
theorem exists_bucket_of_mem_lineLaunches (hexact : d.options.resolution = .exact) (hr : d.registry.Records log)
    {l : Launch ε} (hl : l ∈ d.lineLaunches line tokens number document) :
    l.entry ∈ log ∧ l.call.scope = l.entry.scope ∧
      l.call.tokens = Bucket.textsOf l.entry.scope.text line tokens ∧ l.call.tokens ≠ [] := by
  obtain ⟨b, hb, hl⟩ := List.mem_flatMap.1 hl
  obtain ⟨e, he, rfl⟩ := List.mem_map.1 hl
  rw [hexact, hr.resolve_exact, List.mem_filter, decide_eq_true_iff] at he
  obtain ⟨-, htexts, hne⟩ := Bucket.mem_ofLine hb
  exact ⟨he.1, rfl, he.2.symm ▸ htexts, hne⟩

theorem flatMap_ite {α β : Type} (xs : List α) (p : α → Prop) [DecidablePred p] (f : α → List β) :
    (xs.flatMap fun x => if p x then f x else []) = (xs.filter p).flatMap f := by
  induction xs with
  | nil => rfl
  | cons x xs ih => by_cases hx : p x <;> simp [hx, ih]

/-- What the launches for a bucket append. -/
theorem flatMap_block_launches (hexact : d.options.resolution = .exact) (hr : d.registry.Records log)
    (hlog : Collector.IsLog collect log) (b : Bucket) (k : String) :
    ((d.launches number document b).flatMap fun l => l.block k) =
      if b.scope.text = k then List.replicate (collect.count k) b.texts else [] := by
  rw [launches, hexact, hr.resolve_exact, List.flatMap_map, ← hlog.countP_collectors]
  unfold Launch.block
  dsimp only
  rw [flatMap_ite, List.filter_filter, ← List.map_eq_flatMap (f := fun _ => b.texts), List.map_const',
    ← List.countP_eq_length_filter]
  by_cases hk : b.scope.text = k
  · subst hk
    rw [if_pos rfl]
    refine congrArg (List.replicate · b.texts) (List.countP_congr fun e _ => ?_)
    simp only [Bool.and_eq_true, decide_eq_true_eq]
    constructor
    · rintro ⟨⟨hs, hsource⟩, -⟩
      exact ⟨hs.symm, hsource⟩
    · rintro ⟨hs, hsource⟩
      exact ⟨⟨hs.symm, hsource⟩, Scope.text_inj.1 hs⟩
  · rw [if_neg hk, List.countP_eq_zero.2, List.replicate_zero]
    intro e _ he
    simp only [Bool.and_eq_true, decide_eq_true_eq] at he
    obtain ⟨⟨hs, -⟩, hscope⟩ := he
    rw [hs, hscope] at hk
    exact hk rfl

/-- The launches of a line append its blocks. -/
theorem flatMap_block_lineLaunches (hexact : d.options.resolution = .exact) (hr : d.registry.Records log)
    (hlog : Collector.IsLog collect log) (k : String) :
    ((d.lineLaunches line tokens number document).flatMap fun l => l.block k) = lineBlocks collect line tokens k := by
  rw [lineLaunches, List.flatMap_assoc]
  simp only [flatMap_block_launches hexact hr hlog]
  by_cases hk : k ∈ collect
  · obtain ⟨e, he, rfl⟩ := hlog.exists_of_mem hk
    have hadmits : d.registry.finds e.scope d.options.resolution = true := by
      rw [hexact]
      exact hr.isSome_find?.2 ⟨e, he, rfl⟩
    simp only [Scope.text_inj]
    rw [flatMap_ite, buckets, Bucket.filter_ofLine, hadmits, lineBlocks]
    by_cases htexts : Bucket.textsOf e.scope.text line tokens = []
    · simp [htexts]
    · simp [htexts]
  · have hcount : collect.count k = 0 := List.count_eq_zero.2 hk
    simp [lineBlocks, hcount]

/-! ## Any order -/

/-- Where no token carries the scope of the action that stores the files of a run, the launches of a line append. -/
theorem adds_of_mem_lineLaunches (hexact : d.options.resolution = .exact) (hr : d.registry.Records log)
    (hlog : Collector.IsLog collect log) (hfree : ∀ t ∈ tokens, "run.tmgt.files" ∉ t.scopes) {l : Launch ε}
    (hl : l ∈ d.lineLaunches line tokens number document) : l.task.Adds l.block := by
  obtain ⟨he, hscope, htokens, hne⟩ := exists_bucket_of_mem_lineLaunches hexact hr hl
  have htask : l.task = l.entry.handler l.call := rfl
  rcases hlog.entry he with ⟨htext, -, -⟩ | ⟨-, hsource, hhandler⟩ | ⟨-, hsource, hhandler⟩
  · rw [htokens, htext] at hne
    exact absurd (Bucket.textsOf_eq_nil.2 hfree) hne
  · have hblock : l.block = fun _ => [] := by
      funext k
      simp [Launch.block, hsource, Collector.builtinSource, Collector.collectorSource]
    rw [htask, hhandler, hblock]
    exact Collector.adds_reportEnd l.call
  · have hblock : l.block = fun k => if k = l.call.scope.text then [l.call.tokens] else [] := by
      funext k
      simp [Launch.block, hsource]
    rw [htask, hhandler, hblock]
    exact Collector.adds_collector l.call

/-- However the turns on each line are ordered, lines append their blocks one after the other. -/
theorem LinesReach.holds {document : Document} {lines : List (String × List Token)} {w w' : World ε}
    (h : d.LinesReach document number lines w w') (hexact : d.options.resolution = .exact) (hr : d.registry.Records log)
    (hlog : Collector.IsLog collect log) (hfree : ∀ p ∈ lines, ∀ t ∈ p.2, "run.tmgt.files" ∉ t.scopes) {B : Blocks}
    (hB : w.structures.Holds B) :
    w'.structures.Holds fun k => B k ++ lines.flatMap fun p => lineBlocks collect p.1 p.2 k := by
  induction h generalizing B with
  | nil => simpa using hB
  | @cons number line tokens lines w w' w'' hline _ ih =>
    -- a scope has one bucket on a line, so its collectors append the same texts
    have hsame : ∀ k, ∃ texts, ∀ l ∈ d.lineLaunches line tokens number (some document), ∀ block ∈ l.block k,
        block = texts := by
      intro k
      refine ⟨Bucket.textsOf k line tokens, fun l hl block hblock => ?_⟩
      obtain ⟨-, hscope, htokens, -⟩ := exists_bucket_of_mem_lineLaunches hexact hr hl
      unfold Launch.block at hblock
      split at hblock
      · next hk => rw [List.mem_singleton.1 hblock, htokens, hk.1, hscope]
      · cases hblock
    have hfirst := hline.adds
      (fun l hl => adds_of_mem_lineLaunches hexact hr hlog (hfree _ List.mem_cons_self) hl) hsame hB
    simp only [flatMap_block_lineLaunches hexact hr hlog] at hfirst
    have hrest := ih (fun p hp => hfree p (List.mem_cons_of_mem _ hp)) hfirst
    simpa using hrest

end Dispatcher

end ScopeActions
