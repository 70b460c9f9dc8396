import Mathlib.Algebra.GroupWithZero.Nat
import Mathlib.Data.List.Perm.Basic
import ScopeActions.Proofs.Task.Interleaving
import ScopeActions.TaskPool
/-!
# Task pools

Whatever a pool does is an interleaving of its tasks (`TaskPool.Advances`), by any schedule. Waiting for an outcome
ends with one as long as the pool holds a task, so draining a pool lets all its tasks settle and gives their
outcomes in launch order (`TaskPool.drain_launchAll`).
-/

namespace ScopeActions.TaskPool

variable {σ α : Type} {schedule : Schedule} {pool pool' pool'' : TaskPool σ α} {s s' s'' : σ} {n : Nat}

/-- Some turns lead from one pool to another. -/
def Advances (pool : TaskPool σ α) (s : σ) (pool' : TaskPool σ α) (s' : σ) : Prop :=
  ∃ os, pool'.settled = pool.settled ++ os ∧ Task.Interleaves s pool.waiting os s' pool'.waiting

theorem Advances.refl (pool : TaskPool σ α) (s : σ) : Advances pool s pool s :=
  ⟨[], (List.append_nil _).symm, .stop (.refl _)⟩

theorem Advances.trans (h : Advances pool s pool' s') (h' : Advances pool' s' pool'' s'') : Advances pool s pool'' s'' := by
  obtain ⟨os, hs, hi⟩ := h
  obtain ⟨os', hs', hi'⟩ := h'
  exact ⟨os ++ os', by rw [hs', hs, List.append_assoc], hi.trans hi'⟩

/-- No outcome is lost. -/
theorem Advances.size_eq (h : Advances pool s pool' s') : pool'.size = pool.size := by
  obtain ⟨os, hs, hi⟩ := h
  have hlength := hi.numbers.length_eq
  simp only [List.length_append, List.length_map] at hlength
  rw [size, size, hs, List.length_append]
  omega

/-! ## Turns -/

theorem work_eq_sum : pool.work = (pool.waiting.map fun t => t.2.size).sum := by
  rw [work]
  induction pool.waiting with
  | nil => rfl
  | cons t ts ih => rw [List.foldr_cons, ih, List.map_cons, List.sum_cons]

theorem waiting_eq_nil_of_work (h : pool.work = 0) : pool.waiting = [] := by
  rw [work] at h
  cases hw : pool.waiting with
  | nil => rfl
  | cons t ts => simp [hw, Task.size] at h

/-- A turn is one of a waiting task, and leaves less to do. -/
theorem advances_turn (schedule : Schedule) (pool : TaskPool σ α) (s : σ) :
    let after := pool.turn schedule s
    Advances pool s after.2 after.1 ∧ after.2.work = pool.work - 1 := by
  unfold turn
  split
  · next h =>
    refine ⟨.refl _ _, ?_⟩
    simp [work, h]
  · next first others h =>
    have hlt : schedule.pick pool.turns % pool.waiting.length < pool.waiting.length := Nat.mod_lt _ (by simp [h])
    have hperm := (List.getElem_cons_eraseIdx_perm hlt).symm
    have hwork := work_eq_sum.trans (hperm.map fun t => t.2.size).sum_nat
    dsimp only [List.get_eq_getElem]
    generalize pool.waiting[schedule.pick pool.turns % pool.waiting.length] = t at hperm hwork
    generalize pool.waiting.eraseIdx (schedule.pick pool.turns % pool.waiting.length) = rest at hperm hwork
    obtain ⟨i, turns, last⟩ := t
    rw [hwork]
    cases turns with
    | nil =>
      refine ⟨⟨_, rfl, .settle hperm (.stop (.refl _))⟩, ?_⟩
      simp [work_eq_sum, Task.size]
    | cons step steps =>
      refine ⟨⟨[], (List.append_nil _).symm, .turn hperm (.stop ?_)⟩, ?_⟩
      · exact (List.perm_append_singleton _ _).symm
      · simp [work_eq_sum, Task.size]
        omega

theorem advances_advance (schedule : Schedule) (n : Nat) (pool : TaskPool σ α) (s : σ) :
    let after := pool.advance schedule n s
    Advances pool s after.2 after.1 ∧ after.2.work = pool.work - n := by
  induction n generalizing pool s with
  | zero => exact ⟨.refl _ _, rfl⟩
  | succ n ih =>
    obtain ⟨hturn, hwork⟩ := advances_turn schedule pool s
    obtain ⟨hrest, hwork'⟩ := ih (pool.turn schedule s).2 (pool.turn schedule s).1
    refine ⟨hturn.trans hrest, ?_⟩
    rw [advance, hwork', hwork]
    omega

/-! ## Outcomes -/

/-- Waiting for an outcome ends with one, or with no task left. -/
theorem advances_settle (schedule : Schedule) (pool : TaskPool σ α) (s : σ) (h : pool.work ≤ n) :
    let after := pool.settle schedule n s
    Advances pool s after.2 after.1 ∧ (after.2.settled = [] → after.2.waiting = []) := by
  induction n generalizing pool s with
  | zero => exact ⟨.refl _ _, fun _ => waiting_eq_nil_of_work (Nat.le_zero.1 h)⟩
  | succ n ih =>
    unfold settle
    split
    · next o os hsettled => exact ⟨.refl _ _, fun h => by rw [hsettled] at h; cases h⟩
    · obtain ⟨hadvance, hwork⟩ := advances_advance schedule (schedule.ahead + 1) pool s
      have hless : (pool.advance schedule (schedule.ahead + 1) s).2.work ≤ n := by omega
      obtain ⟨hrest, hnil⟩ := ih _ _ hless
      exact ⟨hadvance.trans hrest, hnil⟩

/-- Outcomes are handed out on the way from one pool to another. -/
def HandsOut (pool : TaskPool σ α) (s : σ) (outcomes : List (Nat × Outcome α)) (pool' : TaskPool σ α) (s' : σ) : Prop :=
  ∃ os, outcomes ++ pool'.settled = pool.settled ++ os ∧ Task.Interleaves s pool.waiting os s' pool'.waiting

theorem HandsOut.trans {outcomes outcomes' : List (Nat × Outcome α)} (h : HandsOut pool s outcomes pool' s')
    (h' : HandsOut pool' s' outcomes' pool'' s'') : HandsOut pool s (outcomes ++ outcomes') pool'' s'' := by
  obtain ⟨os, hs, hi⟩ := h
  obtain ⟨os', hs', hi'⟩ := h'
  refine ⟨os ++ os', ?_, hi.trans hi'⟩
  rw [List.append_assoc, hs', ← List.append_assoc, hs, List.append_assoc]

/-- One outcome is handed out if the pool holds a task. -/
theorem handsOut_next (schedule : Schedule) (pool : TaskPool σ α) (s : σ) :
    let after := pool.next schedule s
    HandsOut pool s after.1.toList after.2.2 after.2.1 ∧ after.2.2.size = pool.size - 1 ∧
      (after.1 = none → after.2.2.size = 0) := by
  obtain ⟨hsettle, hnil⟩ := advances_settle schedule pool s (Nat.le_refl pool.work)
  have hsize := hsettle.size_eq
  obtain ⟨os, hs, hi⟩ := hsettle
  unfold next
  dsimp only
  split
  · next h =>
    have hempty : (pool.settle schedule pool.work s).2.size = 0 := by rw [size, h, hnil h]; rfl
    refine ⟨⟨os, hs, hi⟩, ?_, fun _ => hempty⟩
    rw [← hsize, hempty]
  · next o rest h =>
    refine ⟨⟨os, by rw [← hs, h]; rfl, hi⟩, ?_, nofun⟩
    rw [← hsize, size, size, h, List.length_cons]
    rfl

theorem handsOut_nextMany (schedule : Schedule) (n : Nat) (pool : TaskPool σ α) (s : σ) :
    let after := pool.nextMany schedule n s
    HandsOut pool s after.1 after.2.2 after.2.1 ∧ after.2.2.size = pool.size - n := by
  induction n generalizing pool s with
  | zero => exact ⟨⟨[], (List.append_nil _).symm, .stop (.refl _)⟩, rfl⟩
  | succ n ih =>
    obtain ⟨hnext, hsize, hnone⟩ := handsOut_next schedule pool s
    unfold nextMany
    split
    · next h =>
      rw [h] at hnext hsize hnone
      have hempty := hnone rfl
      dsimp only at hsize hempty ⊢
      exact ⟨hnext, by omega⟩
    · next h =>
      rw [h] at hnext hsize
      obtain ⟨hrest, hsize'⟩ := ih _ _
      dsimp only at hsize
      exact ⟨hnext.trans hrest, by rw [hsize', hsize]; omega⟩

/-! ## Draining -/

theorem launchAll_eq (pool : TaskPool σ α) (ts : List (Task σ α)) : pool.launchAll ts =
    { pool with launched := pool.launched + ts.length, waiting := pool.waiting ++ numbered pool.launched ts } := by
  induction ts generalizing pool with
  | nil => simp [launchAll]
  | cons t ts ih =>
    have hcons : pool.launchAll (t :: ts) = (pool.launch t).2.launchAll ts := rfl
    rw [hcons, ih]
    simp [launch, Nat.add_assoc, Nat.add_comm 1]

theorem waiting_launchAll (ts : List (Task σ α)) : (launchAll {} ts).waiting = numbered 0 ts := by
  rw [launchAll_eq]
  rfl

theorem settled_launchAll (ts : List (Task σ α)) : (launchAll {} ts).settled = [] := by
  rw [launchAll_eq]

/-- Draining lets all tasks settle, and sorts their outcomes by launch. -/
theorem exists_interleaves_drain (schedule : Schedule) (hpool : pool.settled = []) (s : σ) :
    let after := pool.drain schedule s
    ∃ os, Task.Interleaves s pool.waiting os after.2.1 [] ∧ after.1 = (os.mergeSort fun a b => a.1 ≤ b.1).map (·.2) := by
  obtain ⟨⟨os, hs, hi⟩, hsize⟩ := handsOut_nextMany schedule pool.size pool s
  rw [Nat.sub_self, size, Nat.add_eq_zero_iff, List.length_eq_zero_iff, List.length_eq_zero_iff] at hsize
  obtain ⟨hwaiting, hsettled⟩ := hsize
  rw [hsettled, hpool, List.append_nil, List.nil_append] at hs
  rw [hwaiting] at hi
  refine ⟨os, hi, ?_⟩
  rw [← hs]
  rfl

/-- Tasks that are launched and drained run side by side to their ends. Where their outcomes do not depend on the
order of turns, these are handed out in launch order. -/
theorem drain_launchAll (schedule : Schedule) (ts : List (Task σ α)) (s : σ) :
    let after := (launchAll {} ts).drain schedule s
    (∃ os, Task.Interleaves s (numbered 0 ts) os after.2.1 []) ∧
      ∀ results, Task.Settles s ts results → after.1 = results.map .value := by
  obtain ⟨os, hi, hos⟩ := exists_interleaves_drain schedule (settled_launchAll ts) s
  rw [waiting_launchAll] at hi
  refine ⟨⟨os, hi⟩, fun results h => ?_⟩
  rw [hos, mergeSort_of_perm_numbered (h os _ hi)]
  exact map_snd_numbered

end ScopeActions.TaskPool
