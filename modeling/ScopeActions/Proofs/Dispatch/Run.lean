import ScopeActions.Proofs.Dispatch.Collect
/-!
# Runs over a document

Beside the collectors, the phases of a run call two actions: one stores the files, the other ends the run
(`Dispatcher.launches_phases`). So a run stores the name of the document and appends the blocks of its lines, whatever
the order of turns (`Dispatcher.RunReaches.holds`).
-/

namespace ScopeActions

/-! ## Phases -/

namespace Collector

variable {ε : Type} {collect : List String} {log : List (Entry (Handler (World ε)))}

/-- The scopes can be collected: they are well-formed, none is the name of the structure for the files, and none is
below a phase. -/
def Collectable (collect : List String) : Prop :=
  ∀ c ∈ collect, c ≠ "files" ∧ ∃ k : Scope, k.text = c ∧ ∀ phase ∈ Dispatcher.phases, k.segments.head? ≠ some phase

theorem IsLog.split (h : IsLog collect log) : ∃ files report es, log = files :: report :: es ∧
    files.scope.text = "run.tmgt.files" ∧ files.handler = recordFiles ∧
    report.scope.text = "finalize.tmgt.report" ∧ report.handler = reportEnd ∧ ∀ e ∈ es, e.scope.text ∈ collect := by
  obtain ⟨files, rest, rfl, hfiles, h⟩ := List.map_eq_cons_iff.1 h
  obtain ⟨report, es, rfl, hreport, hes⟩ := List.map_eq_cons_iff.1 h
  simp only [Prod.mk.injEq] at hfiles hreport
  refine ⟨files, report, es, rfl, hfiles.1, hfiles.2.2, hreport.1, hreport.2.2, fun e he => ?_⟩
  change List.map _ es = collect.map _ at hes
  have hmem : (e.scope.text, e.source, e.handler) ∈
      collect.map fun scope => (scope, collectorSource, (collector : Handler (World ε))) := by
    rw [← hes]
    exact List.mem_map_of_mem he
  obtain ⟨c, hc, heq⟩ := List.mem_map.1 hmem
  simp only [Prod.mk.injEq] at heq
  exact heq.1 ▸ hc

end Collector

namespace Dispatcher

variable {ε : Type} {d : Dispatcher ε} {collect : List String} {log : List (Entry (Handler (World ε)))}

theorem singleton_prefix_iff {s : String} {segments : List String} : [s] <+: segments ↔ segments.head? = some s := by
  cases segments <;> simp [eq_comm]

/-- The name of a phase is a scope of one segment. -/
theorem exists_phase_scope {phase : String} (hp : phase ∈ phases) :
    ∃ start : Scope, start.text = phase ∧ start.segments = [phase] := by
  simp only [phases, List.mem_cons, List.not_mem_nil, or_false] at hp
  rcases hp with rfl | rfl | rfl
  · exact ⟨(Scope.parse? "initialize").get rfl, rfl, rfl⟩
  · exact ⟨(Scope.parse? "run").get rfl, rfl, rfl⟩
  · exact ⟨(Scope.parse? "finalize").get rfl, rfl, rfl⟩

/-- The entries of a phase are those whose scope starts with its name. -/
theorem scan_phase (hr : d.registry.Records log) {phase : String} (hp : phase ∈ phases) :
    ((d.registry.scan phase).flatMap (·.entries)).Perm (log.filter fun e => e.scope.segments.head? = some phase) := by
  obtain ⟨start, htext, hsegments⟩ := exists_phase_scope hp
  have hscan := hr.scan_perm start
  rw [htext, hsegments] at hscan
  simpa only [singleton_prefix_iff] using hscan

/-- The launches of the phases: none at the beginning, then the actions that come with every run. -/
theorem launches_phases (hr : d.registry.Records log) (hlog : Collector.IsLog collect log)
    (hcollect : Collector.Collectable collect) (files : List String) :
    d.phaseLaunches "initialize" files = [] ∧
    (∃ l c, d.phaseLaunches "run" files = [l] ∧ l.task = Collector.recordFiles c ∧ c.tokens = files) ∧
    ∃ l c, d.phaseLaunches "finalize" files = [l] ∧ l.task = Collector.reportEnd c := by
  obtain ⟨record, report, es, rfl, hrecord, hrecords, hreport, hend, hes⟩ := hlog.split
  have hrecord : record.scope.segments.head? = some "run" := by
    rw [Scope.segments, hrecord]
    rfl
  have hreport : report.scope.segments.head? = some "finalize" := by
    rw [Scope.segments, hreport]
    rfl
  have hrest : ∀ phase ∈ phases, (es.filter fun e => e.scope.segments.head? = some phase) = [] := by
    intro phase hp
    rw [List.filter_eq_nil_iff]
    intro e he hphase
    obtain ⟨-, k, hk, hphases⟩ := hcollect _ (hes e he)
    obtain rfl := Scope.text_inj.1 hk
    exact hphases phase hp (of_decide_eq_true hphase)
  unfold phaseLaunches
  refine ⟨?_, ?_, ?_⟩
  · have hp : "initialize" ∈ phases := by simp [phases]
    have hscan := scan_phase hr hp
    rw [List.filter_cons_of_neg (by simp [hrecord]), List.filter_cons_of_neg (by simp [hreport]), hrest _ hp] at hscan
    rw [hscan.eq_nil, List.map_nil]
  · have hp : "run" ∈ phases := by simp [phases]
    have hscan := scan_phase hr hp
    rw [List.filter_cons_of_pos (by simp [hrecord]), List.filter_cons_of_neg (by simp [hreport]), hrest _ hp] at hscan
    rw [hscan.eq_singleton, List.map_singleton]
    exact ⟨_, _, rfl, congrFun hrecords _, rfl⟩
  · have hp : "finalize" ∈ phases := by simp [phases]
    have hscan := scan_phase hr hp
    rw [List.filter_cons_of_neg (by simp [hrecord]), List.filter_cons_of_pos (by simp [hreport]), hrest _ hp] at hscan
    rw [hscan.eq_singleton, List.map_singleton]
    exact ⟨_, _, rfl, congrFun hend _⟩

end Dispatcher

/-! ## Whole runs -/

namespace Store

/-- Storing texts in place of those of a structure. -/
theorem Holds.set {s : Store} {B : Blocks} (h : Holds s B) (key : String) (texts : List String) :
    Holds (SortedMap.set s key (.strings texts)) fun k => if k = key then [texts] else B k := by
  refine ⟨h.increasing.set _ _, fun k => ?_⟩
  rw [SortedMap.get?_set, h.get?]
  by_cases hk : k = key
  · simp [hk]
  · simp [hk, Ne.symm hk]

end Store

namespace Collector

variable {ε : Type} {w : World ε} {B : Blocks}

theorem holds_recordFiles (c : Call) (h : w.structures.Holds B) :
    ((recordFiles c).last w).1.structures.Holds fun k => if k = "files" then [c.tokens] else B k :=
  h.set _ _

theorem keeps_recordFiles (c : Call) : (recordFiles c : Task (World ε) Completion).Keeps World.Listed (.ok ()) where
  turn := nofun
  last _ := fun ⟨_, h⟩ => ⟨⟨_, holds_recordFiles c h⟩, rfl⟩

end Collector

namespace Dispatcher

variable {ε : Type} {d : Dispatcher ε} {collect : List String} {log : List (Entry (Handler (World ε)))}
  {document : Document} {lines : List (String × List Token)} {w w' : World ε}

/-- The phases of a run, the launches of each and of each line in some order. -/
def RunReaches (d : Dispatcher ε) (document : Document) (lines : List (String × List Token)) (w w' : World ε) : Prop :=
  ∃ w₁ w₂ w₃, Batch.Reaches (d.phaseLaunches "initialize" [document.name]) w w₁ ∧
    Batch.Reaches (d.phaseLaunches "run" [document.name]) w₁ w₂ ∧ d.LinesReach document 0 lines w₂ w₃ ∧
    Batch.Reaches (d.phaseLaunches "finalize" [document.name]) w₃ w'

/-- The blocks of a run: the name of the document, then those of each line. -/
def runBlocks (collect : List String) (document : Document) (lines : List (String × List Token)) : Blocks := fun k =>
  (if k = "files" then [[document.name]] else []) ++ lines.flatMap fun p => lineBlocks collect p.1 p.2 k

/-- However the turns are ordered, a run stores its blocks. -/
theorem RunReaches.holds (h : d.RunReaches document lines w w') (hexact : d.options.resolution = .exact)
    (hr : d.registry.Records log) (hlog : Collector.IsLog collect log) (hcollect : Collector.Collectable collect)
    (hfree : ∀ p ∈ lines, ∀ t ∈ p.2, "run.tmgt.files" ∉ t.scopes) (hw : w.structures.Holds fun _ => []) :
    w'.structures.Holds (runBlocks collect document lines) := by
  obtain ⟨w₁, w₂, w₃, hinitialize, hrun, hlines, hfinalize⟩ := h
  obtain ⟨hnone, ⟨files, c, hfiles, hrecord, htokens⟩, report, c', hreport, hend⟩ :=
    launches_phases hr hlog hcollect [document.name]
  rw [hnone] at hinitialize
  rw [hfiles] at hrun
  rw [hreport] at hfinalize
  obtain rfl := hinitialize.of_nil
  have hstored : w₂.structures.Holds fun k => if k = "files" then [[document.name]] else [] := by
    rw [hrun.of_singleton, hrecord]
    exact htokens ▸ Collector.holds_recordFiles c hw
  rw [hfinalize.of_singleton, hend]
  exact hlines.holds hexact hr hlog hfree hstored

/-- The actions of the phases keep structures lists of texts. -/
theorem keeps_of_mem_phaseLaunches (hr : d.registry.Records log) (hlog : Collector.IsLog collect log)
    (hcollect : Collector.Collectable collect) {phase : String} (hp : phase ∈ phases) {files : List String} {l : Launch ε}
    (hl : l ∈ d.phaseLaunches phase files) : l.task.Keeps World.Listed (.ok ()) := by
  obtain ⟨hnone, ⟨record, c, hrun, hrecord, -⟩, report, c', hfinalize, hend⟩ := launches_phases hr hlog hcollect files
  simp only [phases, List.mem_cons, List.not_mem_nil, or_false] at hp
  rcases hp with rfl | rfl | rfl
  · rw [hnone] at hl
    cases hl
  · rw [hrun, List.mem_singleton] at hl
    rw [hl, hrecord]
    exact Collector.keeps_recordFiles c
  · rw [hfinalize, List.mem_singleton] at hl
    rw [hl, hend]
    exact (Collector.adds_reportEnd c').keeps

end Dispatcher

end ScopeActions
