import ScopeActions.Proofs.Task.Account
/-!
# Pools by id

A runtime knows its tasks by ids. A pool that keeps the launch index of each id until the outcome is handed out serves
every request as a pool does that numbers its tasks (`IdPool.Mirrors.serveAll`): an id is never looked up in vain. So
its replies, too, account for each launch (`IdPool.serveAll_accounts`).
-/

namespace ScopeActions

/-- A pool whose tasks are known by ids. -/
structure IdPool (ι σ α : Type) where
  launched : Nat := 0
  /-- The launch index of each id whose outcome is not handed out yet. -/
  order : List (ι × Nat) := []
  /-- The tasks, by the order in which the runtime was given them. -/
  running : TaskPool σ α := {}

namespace IdPool

variable {ι σ α : Type} [DecidableEq ι]

section Operations
variable (ids : Nat → ι) (fallback : Nat)

/-- Adds a task, with its launch index under its id. -/
def launch (pool : IdPool ι σ α) (t : Task σ α) : Nat × IdPool ι σ α :=
  let (number, running) := pool.running.launch t
  (pool.launched, { launched := pool.launched + 1, order := (ids number, pool.launched) :: pool.order, running })

/-- Waits for an outcome, and takes the launch index of its id out of the order; `fallback` stands for one that is not
there. -/
def next (schedule : Schedule) (pool : IdPool ι σ α) (s : σ) : Option (Nat × Outcome α) × σ × IdPool ι σ α :=
  match pool.running.next schedule s with
  | (none, s, running) => (none, s, { pool with running })
  | (some (number, outcome), s, running) =>
    (some ((pool.order.lookup (ids number)).getD fallback, outcome), s,
      { pool with order := pool.order.filter fun b => b.1 ≠ ids number, running })

/-- Hands out at most `n` outcomes. -/
def nextMany (schedule : Schedule) : Nat → IdPool ι σ α → σ → List (Nat × Outcome α) × σ × IdPool ι σ α
  | 0, pool, s => ([], s, pool)
  | n + 1, pool, s =>
    match pool.next ids fallback schedule s with
    | (none, s, pool) => ([], s, pool)
    | (some outcome, s, pool) =>
      let (outcomes, s, pool) := nextMany schedule n pool s
      (outcome :: outcomes, s, pool)

/-- Hands out all outcomes, sorted by the launch indices that were found. -/
def drain (schedule : Schedule) (pool : IdPool ι σ α) (s : σ) : List (Outcome α) × σ × IdPool ι σ α :=
  let (outcomes, s, pool) := pool.nextMany ids fallback schedule pool.running.size s
  ((outcomes.mergeSort fun a b => a.1 ≤ b.1).map (·.2), s, pool)

/-- Serves a request. -/
def serve (pool : IdPool ι σ α) (s : σ) : Request σ α → Reply α × σ × IdPool ι σ α
  | .launch t =>
    let (index, pool) := pool.launch ids t
    (.launched index, s, pool)
  | .next schedule =>
    let (outcome, s, pool) := pool.next ids fallback schedule s
    (.next outcome, s, pool)
  | .drain schedule =>
    let (outcomes, s, pool) := pool.drain ids fallback schedule s
    (.drained outcomes, s, pool)
  | .size => (.size pool.running.size, s, pool)
  | .pass schedule turns =>
    let (s, running) := pool.running.advance schedule turns s
    (.passed, s, { pool with running })

end Operations

/-! ## Ids and numbers -/

/-- The tasks are those of a pool that numbers them, and each of its launches that is pending is found under its id. -/
structure Mirrors (ids : Nat → ι) (p : IdPool ι σ α) (pool : TaskPool σ α) : Prop where
  running : p.running = pool
  launched : p.launched = pool.launched
  order : ∀ n ∈ pool.pending, p.order.lookup (ids n) = some n
  balanced : ∃ handed, pool.Balanced handed

variable {ids : Nat → ι} {fallback : Nat} {p : IdPool ι σ α} {pool : TaskPool σ α}

theorem lookup_filter {order : List (ι × Nat)} {a b : ι} (h : b ≠ a) :
    (order.filter fun c => c.1 ≠ a).lookup b = order.lookup b := by
  induction order with
  | nil => rfl
  | cons c order ih =>
    by_cases hc : c.1 = a
    · have hb : (b == c.1) = false := by simpa [hc] using h
      rw [List.filter_cons_of_neg (by simpa using hc), ih, List.lookup_cons, hb]
    · rw [List.filter_cons_of_pos (by simpa using hc), List.lookup_cons, List.lookup_cons, ih]

theorem mirrors_empty (ids : Nat → ι) : Mirrors ids ({} : IdPool ι σ α) {} :=
  ⟨rfl, rfl, nofun, [], .refl _⟩

theorem Mirrors.launch (h : p.Mirrors ids pool) (hids : Function.Injective ids) (t : Task σ α) :
    (p.launch ids t).1 = (pool.launch t).1 ∧ (p.launch ids t).2.Mirrors ids (pool.launch t).2 := by
  obtain ⟨rfl, hl, horder, handed, hb⟩ := h
  refine ⟨hl, rfl, congrArg (· + 1) hl, fun n hn => ?_, handed, hb.launch t⟩
  have hpending : n ∈ p.running.pending ∨ n = p.running.launched := by
    simpa [TaskPool.pending, TaskPool.launch, or_assoc] using hn
  change List.lookup (ids n) ((ids p.running.launched, p.launched) :: p.order) = some n
  rcases hpending with hn | rfl
  · have hlt := hb.lt_of_mem (List.mem_append_right _ hn)
    have hne : (ids n == ids p.running.launched) = false := by
      rw [beq_eq_false_iff_ne]
      exact fun heq => Nat.ne_of_lt hlt (hids heq)
    rw [List.lookup_cons, hne]
    exact horder n hn
  · rw [List.lookup_cons_self, hl]

/-- The index that is found is the number of the task. -/
theorem Mirrors.next (h : p.Mirrors ids pool) (hids : Function.Injective ids) (fallback : Nat) (schedule : Schedule)
    (s : σ) :
    let after := p.next ids fallback schedule s
    let after' := pool.next schedule s
    after.1 = after'.1 ∧ after.2.1 = after'.2.1 ∧ after.2.2.Mirrors ids after'.2.2 := by
  obtain ⟨rfl, hl, horder, handed, hb⟩ := h
  have hout := (TaskPool.handsOut_next schedule p.running s).1
  have hlaunched := TaskPool.launched_next schedule p.running s
  have hb' := hb.handsOut hout hlaunched
  have hpending := hout.pending
  unfold IdPool.next
  rcases hnext : p.running.next schedule s with ⟨_ | ⟨n, o⟩, s', running⟩
  · rw [hnext] at hlaunched hpending hb'
    refine ⟨rfl, rfl, rfl, hl.trans hlaunched.symm, fun n hn => horder n (hpending.mem_iff.1 ?_), _, hb'⟩
    exact List.mem_append_right _ hn
  · rw [hnext] at hlaunched hpending hb'
    have hn : p.order.lookup (ids n) = some n := horder n (hpending.mem_iff.1 (by simp))
    refine ⟨?_, rfl, rfl, hl.trans hlaunched.symm, fun m hm => ?_, _, hb'⟩
    · simp [hn]
    · have hnodup := hpending.nodup_iff.2 (List.nodup_append.1 hb.nodup).2.1
      have hne : m ≠ n := by
        rintro rfl
        exact (List.nodup_append.1 hnodup).2.2 m (by simp) m hm rfl
      exact (lookup_filter fun heq => hne (hids heq)).trans (horder m (hpending.mem_iff.1 (List.mem_append_right _ hm)))

theorem Mirrors.nextMany (h : p.Mirrors ids pool) (hids : Function.Injective ids) (fallback : Nat) (schedule : Schedule)
    (n : Nat) (s : σ) :
    let after := p.nextMany ids fallback schedule n s
    let after' := pool.nextMany schedule n s
    after.1 = after'.1 ∧ after.2.1 = after'.2.1 ∧ after.2.2.Mirrors ids after'.2.2 := by
  induction n generalizing p pool s with
  | zero => exact ⟨rfl, rfl, h⟩
  | succ n ih =>
    obtain ⟨houtcome, hs, hnext⟩ := h.next hids fallback schedule s
    unfold IdPool.nextMany TaskPool.nextMany
    generalize p.next ids fallback schedule s = after at houtcome hs hnext
    generalize pool.next schedule s = after' at houtcome hs hnext
    obtain ⟨outcome, s₁, p₁⟩ := after
    obtain ⟨outcome', s₁', pool₁⟩ := after'
    dsimp only at houtcome hs hnext
    subst houtcome hs
    cases outcome with
    | none => exact ⟨rfl, rfl, hnext⟩
    | some o =>
      obtain ⟨houtcomes, hs', hrest⟩ := ih hnext s₁
      exact ⟨congrArg (o :: ·) houtcomes, hs', hrest⟩

theorem Mirrors.serve (h : p.Mirrors ids pool) (hids : Function.Injective ids) (fallback : Nat) (r : Request σ α) (s : σ) :
    let after := p.serve ids fallback s r
    let after' := pool.serve s r
    after.1 = after'.1 ∧ after.2.1 = after'.2.1 ∧ after.2.2.Mirrors ids after'.2.2 := by
  cases r with
  | launch t =>
    obtain ⟨hindex, hlaunch⟩ := h.launch hids t
    exact ⟨congrArg Reply.launched hindex, rfl, hlaunch⟩
  | next schedule =>
    obtain ⟨houtcome, hs, hnext⟩ := h.next hids fallback schedule s
    exact ⟨congrArg Reply.next houtcome, hs, hnext⟩
  | drain schedule =>
    have hsize : p.running.size = pool.size := congrArg TaskPool.size h.running
    obtain ⟨houtcomes, hs, hdrain⟩ := h.nextMany hids fallback schedule pool.size s
    unfold IdPool.serve IdPool.drain
    rw [hsize]
    refine ⟨?_, hs, hdrain⟩
    dsimp only
    rw [houtcomes]
    rfl
  | size => exact ⟨congrArg Reply.size (congrArg TaskPool.size h.running), rfl, h⟩
  | pass schedule turns =>
    obtain ⟨rfl, hl, horder, handed, hb⟩ := h
    have hadvance := (TaskPool.advances_advance schedule turns p.running s).1.handsOut
    have hlaunched := TaskPool.launched_advance schedule turns p.running s
    refine ⟨rfl, rfl, rfl, hl.trans hlaunched.symm, fun n hn => horder n (hadvance.pending.mem_iff.1 hn), _,
      hb.handsOut hadvance hlaunched⟩

/-- Looking indices up by id changes no reply. -/
theorem Mirrors.serveAll (h : p.Mirrors ids pool) (hids : Function.Injective ids) (fallback : Nat)
    (rs : List (Request σ α)) (s : σ) :
    let after := Request.serveAll (IdPool.serve ids fallback) p s rs
    let after' := Request.serveAll TaskPool.serve pool s rs
    after.1 = after'.1 ∧ after.2.1 = after'.2.1 ∧ after.2.2.Mirrors ids after'.2.2 := by
  induction rs generalizing p pool s with
  | nil => exact ⟨rfl, rfl, h⟩
  | cons r rs ih =>
    obtain ⟨hreply, hs, hserve⟩ := h.serve hids fallback r s
    unfold Request.serveAll
    dsimp only
    rw [hreply, hs]
    obtain ⟨hreplies, hs', hrest⟩ := ih hserve (pool.serve s r).2.1
    exact ⟨congrArg _ hreplies, hs', hrest⟩

/-! ## Accounts of what is asked -/

/-- Whatever a pool is asked from its start, each launch that ends does so with an outcome of its own task, and the
replies hand it out once at most; after a drain, once. No reply depends on what stands for an index that is not found. -/
theorem serveAll_accounts (ids : Nat → ι) (hids : Function.Injective ids) (rs : List (Request σ α)) (s : σ) :
    let ts := rs.filterMap Request.task?
    ∃ replies s' waiting os own handed,
      (∀ fallback, let after := Request.serveAll (serve ids fallback) {} s rs
        after.1 = replies ∧ after.2.1 = s' ∧ after.2.2.running.waiting = waiting) ∧
      Task.Interleaves s (numbered 0 ts) os s' waiting ∧
      (∀ p ∈ os, p.2 = own p.1 ∧ ∃ t, ts[p.1]? = some t ∧ ∃ s, own p.1 = (t.last s).2) ∧
      Accounts own 0 [] rs replies ts.length handed ∧ handed.Nodup ∧ (∀ i ∈ handed, (i, own i) ∈ os) ∧
      ∀ rs' schedule, rs = rs' ++ [.drain schedule] → handed.Perm (List.range ts.length) := by
  intro ts
  have hstart : ({} : TaskPool σ α).Balanced [] := .refl _
  obtain ⟨os, handed, hi, hl, hbalanced, haccounts⟩ := hstart.serveAll rs s
  have hmirrors := fun fallback => (mirrors_empty (σ := σ) (α := α) ids).serveAll hids fallback rs s
  generalize Request.serveAll TaskPool.serve {} s rs = after at hi hl hbalanced haccounts hmirrors
  obtain ⟨replies, s', pool⟩ := after
  dsimp only [List.nil_append] at hi hl hbalanced haccounts hmirrors
  rw [Nat.zero_add] at hl
  have hnumbers := hi.numbers
  rw [map_fst_numbered, ← List.range_eq_range', ← hl] at hnumbers
  obtain ⟨own, hown⟩ := exists_own (List.nodup_append.1 (hnumbers.nodup_iff.2 List.nodup_range)).1
  have hsettled := hbalanced.settled_perm hnumbers
  have hentered := haccounts own hown
  rw [hl] at hentered
  refine ⟨replies, s', pool.waiting, os, own, handed, fun fallback => ?_, hi, fun p hp => ⟨hown p hp, ?_⟩, hentered,
    (List.nodup_append.1 hbalanced.nodup).1, fun i hmem => ?_, ?_⟩
  · obtain ⟨hreplies, hs', hrest⟩ := hmirrors fallback
    exact ⟨hreplies, hs', congrArg TaskPool.waiting hrest.running⟩
  · obtain ⟨t, ht, hlast⟩ := hi.exists_last p hp
    exact ⟨t, (mem_numbered.1 ht).2, hown p hp ▸ hlast⟩
  · obtain ⟨p, hp, rfl⟩ := List.mem_map.1 (hsettled.mem_iff.1 (List.mem_append_left _ hmem))
    exact hown p hp ▸ hp
  · rintro rs' schedule rfl
    have hall := hbalanced.perm_of_missing (hl.symm ▸ hentered.missing_of_drain)
    rwa [hl] at hall

/-- Two tasks run side by side, one of which breaks off, and a third is launched after a drain. -/
def sideBySide : List (Request Nat Nat) :=
  [.launch { turns := [(· + 1)], last := fun s => (s, .value s) },
    .launch { last := fun s => (s + 10, .panicked (.text "broken")) }, .next { pick := fun _ => 1 },
    .drain { pick := fun _ => 0 }, .launch { last := fun s => (s, .value (s + 1)) }, .size]

theorem serveAll_accounts_sideBySide : Function.Injective (· + 7) ∧ ∃ own handed,
    Accounts own 0 [] sideBySide [.launched 0, .launched 1, .next (some (1, .panicked (.text "broken"))),
      .drained [.value 11], .launched 2, .size 1] 3 handed ∧ handed.Nodup := by
  have hids : Function.Injective (· + 7) := fun _ _ h => Nat.add_right_cancel h
  obtain ⟨replies, _, _, _, own, handed, hreplies, _, _, haccounts, hnodup, _⟩ :=
    serveAll_accounts (· + 7) hids sideBySide 0
  obtain ⟨rfl, _⟩ := hreplies 99
  have hserved : (Request.serveAll (serve (· + 7) 99) {} 0 sideBySide).1 = [.launched 0, .launched 1,
      .next (some (1, .panicked (.text "broken"))), .drained [.value 11], .launched 2, .size 1] := by
    decide +kernel
  rw [hserved] at haccounts
  exact ⟨hids, own, handed, haccounts, hnodup⟩

end IdPool

end ScopeActions
