import ScopeActions.Proofs.Task.Pool
/-!
# Schedules

A schedule can bring about any order of turns. However some tasks interleave, there is a schedule under which a pool
of them hands out their outcomes in the order in which they settle (`TaskPool.exists_schedule`).
-/

namespace ScopeActions.TaskPool

variable {σ α : Type} {schedule : Schedule} {pool : TaskPool σ α} {s s' : σ} {n k : Nat}

theorem turn_of_pick (hlt : k < pool.waiting.length) (hk : schedule.pick pool.turns = k) :
    pool.turn schedule s =
      match pool.waiting[k] with
      | (i, ⟨[], last⟩) => ((last s).1, { pool with
          turns := pool.turns + 1, waiting := pool.waiting.eraseIdx k, settled := pool.settled ++ [(i, (last s).2)] })
      | (i, ⟨step :: steps, last⟩) => (step s, { pool with
          turns := pool.turns + 1, waiting := pool.waiting.eraseIdx k ++ [(i, ⟨steps, last⟩)] }) := by
  unfold turn
  split
  · next h => simp [h] at hlt
  · have hmod : schedule.pick pool.turns % pool.waiting.length = k := by rw [hk, Nat.mod_eq_of_lt hlt]
    simp only [List.get_eq_getElem, hmod]
    rcases pool.waiting[k] with ⟨i, ⟨_ | _, last⟩⟩ <;> rfl

/-- A pool without waiting tasks takes no turns. -/
theorem advance_of_waiting (h : pool.waiting = []) (n : Nat) (s : σ) : pool.advance schedule n s = (s, pool) := by
  induction n with
  | zero => rfl
  | succ n ih =>
    have hturn : pool.turn schedule s = (s, pool) := by
      unfold turn
      split
      · rfl
      · next heq => rw [h] at heq; cases heq
    rw [advance, hturn]
    exact ih

/-- Some picks make the waiting tasks settle, with these outcomes after those that are there. -/
def CanSettle (pool : TaskPool σ α) (s : σ) (os : List (Nat × Outcome α)) (s' : σ) : Prop :=
  ∃ pick : Nat → Nat, ∀ schedule : Schedule, (∀ m, pool.turns ≤ m → schedule.pick m = pick m) → ∀ n, pool.work ≤ n →
    let after := pool.advance schedule n s
    after.1 = s' ∧ after.2.waiting = [] ∧ after.2.settled = os

/-- One pick, then those of the rest. -/
theorem CanSettle.turn {pool₁ : TaskPool σ α} {s₁ : σ} {os : List (Nat × Outcome α)} (h : CanSettle pool₁ s₁ os s')
    (hlt : k < pool.waiting.length) (hturns : pool₁.turns = pool.turns + 1)
    (hturn : ∀ schedule : Schedule, schedule.pick pool.turns = k → pool.turn schedule s = (s₁, pool₁)) :
    CanSettle pool s os s' := by
  obtain ⟨pick, hpick⟩ := h
  refine ⟨fun m => if m = pool.turns then k else pick m, fun schedule hschedule n hn => ?_⟩
  have hk : schedule.pick pool.turns = k := by simp [hschedule pool.turns (Nat.le_refl _)]
  have hrest : ∀ m, pool₁.turns ≤ m → schedule.pick m = pick m := by
    intro m hm
    rw [hturns] at hm
    have hne : m ≠ pool.turns := by omega
    simpa [hne] using hschedule m (by omega)
  have hwork := (advances_turn schedule pool s).2
  rw [hturn schedule hk] at hwork
  have hpos : 0 < pool.work := by
    refine Nat.pos_of_ne_zero fun hzero => ?_
    simp [waiting_eq_nil_of_work hzero] at hlt
  dsimp only at hwork
  cases n with
  | zero => omega
  | succ n =>
    rw [advance, hturn schedule hk]
    exact hpick schedule hrest n (by omega)

theorem exists_position {β : Type} {bs rest : List β} {b : β} (h : bs.Perm (b :: rest)) :
    ∃ k, ∃ hk : k < bs.length, bs[k] = b ∧ (bs.eraseIdx k).Perm rest := by
  obtain ⟨k, hk, hb⟩ := List.getElem_of_mem (h.mem_iff.2 List.mem_cons_self)
  refine ⟨k, hk, hb, ?_⟩
  have hperm := (List.getElem_cons_eraseIdx_perm hk).trans h
  rw [hb] at hperm
  exact hperm.cons_inv

/-- Tasks that interleave do so in a pool when the right ones are picked. -/
theorem canSettle {ts : List (Nat × Task σ α)} {os : List (Nat × Outcome α)} (h : Task.Interleaves s ts os s' [])
    (hp : pool.waiting.Perm ts) : CanSettle pool s (pool.settled ++ os) s' := by
  generalize hleft : ([] : List (Nat × Task σ α)) = left at h
  induction h generalizing pool with
  | stop hts =>
    have hwaiting : pool.waiting = [] := (hp.trans (hleft ▸ hts)).eq_nil
    refine ⟨fun _ => 0, fun schedule _ n _ => ?_⟩
    rw [advance_of_waiting hwaiting]
    exact ⟨rfl, hwaiting, (List.append_nil _).symm⟩
  | @turn s s' ts rest ts' os i step steps last hts _ ih =>
    obtain ⟨k, hlt, hk, hrest⟩ := exists_position (hp.trans hts)
    have hnext : CanSettle { pool with
        turns := pool.turns + 1, waiting := pool.waiting.eraseIdx k ++ [(i, ⟨steps, last⟩)] } (step s)
        (pool.settled ++ os) s' :=
      ih ((List.perm_append_singleton _ _).trans (hrest.cons _)) hleft
    refine hnext.turn hlt rfl fun schedule hpick => ?_
    rw [turn_of_pick hlt hpick, hk]
  | @settle s s' ts rest ts' os i last hts _ ih =>
    obtain ⟨k, hlt, hk, hrest⟩ := exists_position (hp.trans hts)
    have hnext : CanSettle { pool with
        turns := pool.turns + 1, waiting := pool.waiting.eraseIdx k, settled := pool.settled ++ [(i, (last s).2)] }
        (last s).1 (pool.settled ++ [(i, (last s).2)] ++ os) s' :=
      ih hrest hleft
    rw [List.append_cons]
    refine hnext.turn hlt rfl fun schedule hpick => ?_
    rw [turn_of_pick hlt hpick, hk]

/-- Where no task waits, outcomes are handed out as they stand. -/
theorem nextMany_of_waiting (h : pool.waiting = []) (n : Nat) (s : σ) :
    pool.nextMany schedule n s = (pool.settled.take n, s, { pool with settled := pool.settled.drop n }) := by
  induction n generalizing pool with
  | zero => rfl
  | succ n ih =>
    obtain ⟨launched, turns, waiting, settled⟩ := pool
    cases h
    unfold nextMany
    cases settled with
    | nil => rfl
    | cons o settled =>
      have hnext : (⟨launched, turns, [], o :: settled⟩ : TaskPool σ α).next schedule s =
          (some o, s, ⟨launched, turns, [], settled⟩) := rfl
      rw [hnext]
      dsimp only
      rw [ih rfl]
      rfl

theorem settle_of_settled (h : pool.settled ≠ []) (n : Nat) (s : σ) : pool.settle schedule n s = (s, pool) := by
  cases n with
  | zero => rfl
  | succ n =>
    unfold settle
    split
    · rfl
    · next hnil => exact absurd hnil h

/-- For each way in which tasks interleave there is a schedule under which a pool hands out their outcomes in the order
in which they settle. -/
theorem exists_schedule {os : List (Nat × Outcome α)} (hsettled : pool.settled = [])
    (h : Task.Interleaves s pool.waiting os s' []) :
    ∃ schedule, ∃ pool', pool.nextMany schedule pool.size s = (os, s', pool') := by
  have hlength : pool.waiting.length = os.length := by simpa using h.numbers.length_eq.symm
  have hsize : pool.size = os.length := by rw [size, hsettled, hlength, List.length_nil, Nat.add_zero]
  obtain ⟨pick, hpick⟩ := canSettle h (.refl pool.waiting)
  rw [hsettled, List.nil_append] at hpick
  -- all turns are taken before the first outcome is handed out
  refine ⟨{ pick, ahead := pool.work }, ?_⟩
  obtain ⟨hs, hwaiting, hos⟩ := hpick { pick, ahead := pool.work } (fun _ _ => rfl) (pool.work + 1) (Nat.le_succ _)
  rw [hsize]
  cases os with
  | nil =>
    rw [advance_of_waiting (List.length_eq_zero_iff.1 hlength)] at hs
    exact ⟨pool, by rw [← hs]; rfl⟩
  | cons o os =>
    generalize hafter : pool.advance { pick, ahead := pool.work } (pool.work + 1) s = after at hs hwaiting hos
    obtain ⟨s₁, pool₁⟩ := after
    dsimp only at hs hwaiting hos
    have hsettle : pool.settle { pick, ahead := pool.work } pool.work s = (s₁, pool₁) := by
      cases hwork : pool.work with
      | zero =>
        rw [waiting_eq_nil_of_work hwork] at hlength
        cases hlength
      | succ n =>
        rw [settle, hsettled]
        dsimp only
        rw [← hwork, hafter]
        exact settle_of_settled (by simp [hos]) n s₁
    have hnext : pool.next { pick, ahead := pool.work } s = (some o, s₁, { pool₁ with settled := os }) := by
      rw [next, hsettle]
      dsimp only
      rw [hos]
    rw [List.length_cons, nextMany, hnext]
    dsimp only
    have hleft : ({ pool₁ with settled := os } : TaskPool σ α).waiting = [] := hwaiting
    rw [nextMany_of_waiting hleft, List.take_length, hs]
    exact ⟨_, rfl⟩

end ScopeActions.TaskPool
