import ScopeActions.Collector
import ScopeActions.Proofs.Dispatch.Order
import ScopeActions.Proofs.Sorted
/-!
# Gathered texts

A store that holds lists of texts is told by the blocks of texts that were appended to each structure
(`Store.Holds`). Launches that append the same block to a structure can take their turns in any order
(`Batch.Reaches.adds`).
-/

namespace ScopeActions

/-- Blocks of texts by structure, in the order in which they were appended. -/
abbrev Blocks := String → List (List String)

namespace Store

/-- Each structure is a list of texts: its blocks one after the other. -/
structure Holds (s : Store) (B : Blocks) : Prop where
  increasing : SortedMap.Increasing s
  get? : ∀ k, SortedMap.get? s k = if B k = [] then none else some (.strings (B k).flatten)

variable {s s' : Store} {B : Blocks}

theorem holds_empty : Holds [] fun _ => [] :=
  ⟨.nil, fun _ => rfl⟩

theorem Holds.unique (h : Holds s B) (h' : Holds s' B) : s = s' :=
  h.increasing.ext h'.increasing fun k => (h.get? k).trans (h'.get? k).symm

/-- Storing all texts of a structure that has one block more. -/
theorem Holds.append (h : Holds s B) (key : String) (texts : List String) :
    Holds (SortedMap.set s key (.strings ((B key).flatten ++ texts))) fun k => B k ++ if k = key then [texts] else [] := by
  refine ⟨h.increasing.set _ _, fun k => ?_⟩
  rw [SortedMap.get?_set, h.get?]
  by_cases hk : k = key
  · simp [hk]
  · simp [hk, Ne.symm hk]

end Store

variable {ε : Type} {w w' : World ε} {B : Blocks} {ls : List (Launch ε)}

/-- A collector appends the tokens of its call. -/
theorem Collector.holds_collect (h : w.structures.Holds B) (c : Call) : (collect c w).2 = .ok () ∧
    (collect c w).1.structures.Holds fun k => B k ++ if k = c.scope.text then [c.tokens] else [] := by
  have hvalue : (SortedMap.get? w.structures c.scope.text).getD (.arr []) = .strings (B c.scope.text).flatten := by
    rw [h.get?]
    split
    · next hB => simp [hB, Json.strings]
    · rfl
  have hnew : Json.arr ((B c.scope.text).flatten.map .str ++ c.tokens.map .str) =
      .strings ((B c.scope.text).flatten ++ c.tokens) := by rw [Json.strings, List.map_append]
  unfold collect Store.update
  dsimp only
  rw [hvalue, Json.strings]
  dsimp only
  rw [hnew]
  exact ⟨rfl, h.append _ _⟩

/-! ## Tasks that append -/

/-- The task succeeds in a single turn and appends these blocks. -/
structure Task.Adds (t : Task (World ε) Completion) (add : Blocks) : Prop where
  turns : t.turns = []
  last : ∀ w B, w.structures.Holds B →
    (t.last w).2 = .value (.ok ()) ∧ (t.last w).1.structures.Holds fun k => B k ++ add k

theorem Collector.adds_collector (c : Call) : (collector c : Task (World ε) Completion).Adds fun k =>
    if k = c.scope.text then [c.tokens] else [] := by
  refine ⟨rfl, fun w B h => ?_⟩
  obtain ⟨hok, hholds⟩ := holds_collect h c
  exact ⟨congrArg Outcome.value hok, hholds⟩

theorem Collector.adds_reportEnd (c : Call) : (reportEnd c : Task (World ε) Completion).Adds fun _ => [] := by
  refine ⟨rfl, fun w B h => ⟨rfl, ?_⟩⟩
  simpa [reportEnd, Task.once] using h

/-- A world whose structures are lists of texts. -/
def World.Listed (w : World ε) : Prop :=
  ∃ B, w.structures.Holds B

theorem Task.Adds.keeps {t : Task (World ε) Completion} {add : Blocks} (h : t.Adds add) :
    t.Keeps World.Listed (.ok ()) where
  turn step hstep := by
    rw [h.turns] at hstep
    cases hstep
  last w hw := by
    obtain ⟨B, hB⟩ := hw
    obtain ⟨hok, hholds⟩ := h.last w B hB
    exact ⟨⟨_, hholds⟩, hok⟩

/-- Tasks that append do so in the order in which they settle. -/
theorem Task.Interleaves.adds {ts ts' : List (Nat × Task (World ε) Completion)} {os : List (Nat × Outcome Completion)}
    {add : Nat → Blocks} (h : Interleaves w ts os w' ts') (hts : ∀ p ∈ ts, p.2.Adds (add p.1)) (hB : w.structures.Holds B) :
    w'.structures.Holds fun k => B k ++ os.flatMap fun o => add o.1 k := by
  induction h generalizing B with
  | stop _ => simpa using hB
  | @turn s s' ts rest ts' os i step steps last hp _ _ =>
    -- a task that has a turn before its last does not append
    have := (hts _ (hp.mem_iff.2 List.mem_cons_self)).turns
    cases this
  | @settle s s' ts rest ts' os i last hp _ ih =>
    have hfirst := ((hts _ (hp.mem_iff.2 List.mem_cons_self)).last s B hB).2
    have := ih (fun p hmem => hts p (hp.mem_iff.2 (List.mem_cons_of_mem _ hmem))) hfirst
    simpa using this

/-- What a launch appends: the tokens of its call to the structure of its scope, if it is a collector. -/
def Launch.block (l : Launch ε) : Blocks := fun k =>
  if k = l.call.scope.text ∧ l.entry.source = Collector.collectorSource then [l.call.tokens] else []

namespace Batch

/-- What the launch with this number appends. -/
def blockOf (ls : List (Launch ε)) (i : Nat) : Blocks :=
  (ls[i]?).elim (fun _ => []) Launch.block

theorem flatMap_blockOf (ls : List (Launch ε)) (k : String) :
    ((List.range' 0 ls.length).flatMap fun i => blockOf ls i k) = ls.flatMap fun l => l.block k := by
  have hown : ∀ p ∈ numbered 0 ls, blockOf ls p.1 k = p.2.block k := by
    rintro ⟨i, l⟩ hp
    have hi : ls[i]? = some l := (mem_numbered.1 hp).2
    simp [blockOf, hi]
  calc (List.range' 0 ls.length).flatMap (fun i => blockOf ls i k)
      = (numbered 0 ls).flatMap fun p => blockOf ls p.1 k := by rw [← map_fst_numbered, List.flatMap_map]
    _ = (numbered 0 ls).flatMap fun p => p.2.block k := List.flatMap_congr hown
    _ = ((numbered 0 ls).map Prod.snd).flatMap fun l => l.block k := by rw [List.flatMap_map]
    _ = ls.flatMap fun l => l.block k := by rw [map_snd_numbered]

/-- Launches that append the same block to a structure, if any, do so in any order. -/
theorem Reaches.adds (hr : Reaches ls w w') (hls : ∀ l ∈ ls, l.task.Adds l.block)
    (hsame : ∀ k, ∃ texts, ∀ l ∈ ls, ∀ block ∈ l.block k, block = texts) (hB : w.structures.Holds B) :
    w'.structures.Holds fun k => B k ++ ls.flatMap fun l => l.block k := by
  obtain ⟨os, hi⟩ := hr
  have hadds : ∀ p ∈ numbered 0 (ls.map Launch.task), p.2.Adds (blockOf ls p.1) := by
    rintro ⟨i, t⟩ hp
    have ht : (ls.map Launch.task)[i]? = some t := (mem_numbered.1 hp).2
    rw [List.getElem?_map, Option.map_eq_some_iff] at ht
    obtain ⟨l, hl, rfl⟩ := ht
    simpa [blockOf, hl] using hls l (List.mem_of_getElem? hl)
  have hnumbers := hi.numbers
  rw [List.map_nil, List.append_nil, map_fst_numbered, List.length_map] at hnumbers
  have horder : ∀ k, (os.flatMap fun o => blockOf ls o.1 k) = ls.flatMap fun l => l.block k := by
    intro k
    obtain ⟨texts, hall⟩ := hsame k
    have hperm := hnumbers.flatMap_right fun i => blockOf ls i k
    rw [List.flatMap_map, flatMap_blockOf] at hperm
    -- all blocks are the same, so their order does not show
    obtain ⟨n, hreplicate⟩ : ∃ n, (ls.flatMap fun l => l.block k) = List.replicate n texts := by
      refine ⟨_, List.eq_replicate_iff.2 ⟨rfl, fun block hblock => ?_⟩⟩
      obtain ⟨l, hl, hblock⟩ := List.mem_flatMap.1 hblock
      exact hall l hl block hblock
    rw [hreplicate] at hperm ⊢
    exact List.perm_replicate.1 hperm
  have hholds := hi.adds hadds hB
  simpa only [horder] using hholds

end Batch

end ScopeActions
