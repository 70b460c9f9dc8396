import Mathlib.Data.List.Range
import ScopeActions.Proofs.Task.Pool
/-!
# Accounts of pools

Whatever is asked of a pool, and however its tasks take their turns, its replies account for each launch: a task gets
the next index, its outcome is handed out under this index or in its place among those that are drained, and never
again (`TaskPool.Balanced.serveAll`).
-/

namespace ScopeActions

/-! ## Requests -/

/-- What is asked of a pool. A schedule orders the turns that are taken meanwhile. -/
inductive Request (σ α : Type) where
  | launch (t : Task σ α)
  | next (schedule : Schedule)
  | drain (schedule : Schedule)
  | size
  /-- Turns are taken while nobody waits for an outcome. -/
  | pass (schedule : Schedule) (turns : Nat)

/-- What a pool replies. -/
inductive Reply (α : Type) where
  | launched (index : Nat)
  | next (outcome : Option (Nat × Outcome α))
  | drained (outcomes : List (Outcome α))
  | size (n : Nat)
  | passed
  deriving DecidableEq

namespace Request

variable {σ α π : Type}

/-- The task to launch, if the request is for that. -/
def task? : Request σ α → Option (Task σ α)
  | .launch t => some t
  | _ => none

/-- Serves requests one after the other. -/
def serveAll (serve : π → σ → Request σ α → Reply α × σ × π) (p : π) (s : σ) : List (Request σ α) → List (Reply α) × σ × π
  | [] => ([], s, p)
  | r :: rs =>
    let (reply, s, p) := serve p s r
    let (replies, s, p) := serveAll serve p s rs
    (reply :: replies, s, p)

end Request

/-! ## Accounts -/

section Accounts
variable {σ α : Type}

/-- The launches up to `n` that are not handed out, in order. -/
def missing (n : Nat) (handed : List Nat) : List Nat :=
  (List.range n).filter (· ∉ handed)

/-- A request and its reply, when launch `i` ends with `own i`. They lead from the number of launches and those of them
that are handed out to the same afterwards. -/
inductive Entered (own : Nat → Outcome α) : Nat → List Nat → Request σ α → Reply α → Nat → List Nat → Prop
  | launch {n : Nat} {handed : List Nat} {t : Task σ α} : Entered own n handed (.launch t) (.launched n) (n + 1) handed
  | next {n i : Nat} {handed : List Nat} {schedule : Schedule} : i < n → i ∉ handed →
      Entered own n handed (.next schedule) (.next (some (i, own i))) n (handed ++ [i])
  | nothing {n : Nat} {handed : List Nat} {schedule : Schedule} : missing n handed = [] →
      Entered own n handed (.next schedule) (.next none) n handed
  | drain {n : Nat} {handed : List Nat} {schedule : Schedule} :
      Entered own n handed (.drain schedule) (.drained ((missing n handed).map own)) n (handed ++ missing n handed)
  | size {n m : Nat} {handed : List Nat} : m + handed.length = n → Entered own n handed .size (.size m) n handed
  | pass {n turns : Nat} {handed : List Nat} {schedule : Schedule} :
      Entered own n handed (.pass schedule turns) .passed n handed

/-- Requests with their replies. -/
inductive Accounts (own : Nat → Outcome α) :
    Nat → List Nat → List (Request σ α) → List (Reply α) → Nat → List Nat → Prop
  | nil {n : Nat} {handed : List Nat} : Accounts own n handed [] [] n handed
  | cons {n n' n'' : Nat} {handed handed' handed'' : List Nat} {r : Request σ α} {reply : Reply α}
      {rs : List (Request σ α)} {replies : List (Reply α)} : Entered own n handed r reply n' handed' →
      Accounts own n' handed' rs replies n'' handed'' → Accounts own n handed (r :: rs) (reply :: replies) n'' handed''

theorem missing_append_missing (n : Nat) (handed : List Nat) : missing n (handed ++ missing n handed) = [] := by
  refine List.filter_eq_nil_iff.2 fun i hi => ?_
  by_cases hmem : i ∈ handed <;> simp_all [missing]

/-- After a drain no launch is missing. -/
theorem Accounts.missing_of_drain {own : Nat → Outcome α} {n n' : Nat} {handed handed' : List Nat}
    {rs : List (Request σ α)} {replies : List (Reply α)} {schedule : Schedule}
    (h : Accounts own n handed (rs ++ [.drain schedule]) replies n' handed') : missing n' handed' = [] := by
  induction rs generalizing n handed replies with
  | nil =>
    obtain _ | ⟨hentered, hrest⟩ := h
    cases hrest
    cases hentered
    exact missing_append_missing ..
  | cons r rs ih =>
    obtain _ | ⟨_, hrest⟩ := h
    exact ih hrest

end Accounts

namespace TaskPool

variable {σ α : Type} {pool pool' : TaskPool σ α} {s s' : σ} {handed : List Nat}

/-- Serves a request. -/
def serve (pool : TaskPool σ α) (s : σ) : Request σ α → Reply α × σ × TaskPool σ α
  | .launch t =>
    let (index, pool) := pool.launch t
    (.launched index, s, pool)
  | .next schedule =>
    let (outcome, s, pool) := pool.next schedule s
    (.next outcome, s, pool)
  | .drain schedule =>
    let (outcomes, s, pool) := pool.drain schedule s
    (.drained outcomes, s, pool)
  | .size => (.size pool.size, s, pool)
  | .pass schedule turns =>
    let (s, pool) := pool.advance schedule turns s
    (.passed, s, pool)

/-! ## What is pending -/

/-- The launches whose outcomes are not handed out yet. -/
def pending (pool : TaskPool σ α) : List Nat :=
  pool.settled.map Prod.fst ++ pool.waiting.map Prod.fst

theorem length_pending (pool : TaskPool σ α) : pool.pending.length = pool.size := by
  simp [pending, size, Nat.add_comm]

theorem HandsOut.pending {outcomes : List (Nat × Outcome α)} (h : HandsOut pool s outcomes pool' s') :
    (outcomes.map Prod.fst ++ pool'.pending).Perm pool.pending := by
  obtain ⟨os, hs, hi⟩ := h
  have hsettled : outcomes.map Prod.fst ++ pool'.settled.map Prod.fst = pool.settled.map Prod.fst ++ os.map Prod.fst := by
    rw [← List.map_append, hs, List.map_append]
  rw [TaskPool.pending, ← List.append_assoc, hsettled, List.append_assoc]
  exact hi.numbers.append_left _

/-- Each launch is handed out or pending, and once. -/
def Balanced (pool : TaskPool σ α) (handed : List Nat) : Prop :=
  (handed ++ pool.pending).Perm (List.range pool.launched)

theorem Balanced.nodup (h : pool.Balanced handed) : (handed ++ pool.pending).Nodup :=
  h.nodup_iff.2 List.nodup_range

theorem Balanced.lt_of_mem (h : pool.Balanced handed) {i : Nat} (hi : i ∈ handed ++ pool.pending) : i < pool.launched :=
  List.mem_range.1 (h.mem_iff.1 hi)

/-- What is pending is what is missing. -/
theorem Balanced.pending_perm (h : pool.Balanced handed) : pool.pending.Perm (missing pool.launched handed) := by
  have hnodup := List.nodup_append.1 h.nodup
  refine (List.perm_ext_iff_of_nodup hnodup.2.1 (List.nodup_range.filter _)).2 fun i => ?_
  rw [List.mem_filter, ← h.mem_iff, List.mem_append, decide_eq_true_iff]
  constructor
  · intro hi
    exact ⟨.inr hi, fun hmem => hnodup.2.2 i hmem i hi rfl⟩
  · rintro ⟨hi | hi, hnot⟩
    · exact absurd hi hnot
    · exact hi

/-- Where none is missing, all launches are handed out. -/
theorem Balanced.perm_of_missing (h : pool.Balanced handed) (hm : missing pool.launched handed = []) :
    handed.Perm (List.range pool.launched) := by
  have hpending : pool.pending = [] := (hm ▸ h.pending_perm).eq_nil
  rwa [Balanced, hpending, List.append_nil] at h

/-- What has settled is handed out or kept for the next who waits. -/
theorem Balanced.settled_perm (h : pool.Balanced handed) {os : List (Nat × Outcome α)}
    (hnumbers : (os.map Prod.fst ++ pool.waiting.map Prod.fst).Perm (List.range pool.launched)) :
    (handed ++ pool.settled.map Prod.fst).Perm (os.map Prod.fst) := by
  refine (List.perm_append_right_iff (pool.waiting.map Prod.fst)).1 (.trans ?_ hnumbers.symm)
  rw [List.append_assoc]
  exact h

theorem Balanced.launch (h : pool.Balanced handed) (t : Task σ α) : (pool.launch t).2.Balanced handed := by
  have hpending : (pool.launch t).2.pending = pool.pending ++ [pool.launched] := by
    simp [TaskPool.pending, TaskPool.launch]
  rw [Balanced, hpending, ← List.append_assoc]
  exact (h.append_right _).trans (.of_eq List.range_succ.symm)

theorem Balanced.handsOut {outcomes : List (Nat × Outcome α)} (h : pool.Balanced handed)
    (ho : HandsOut pool s outcomes pool' s') (hl : pool'.launched = pool.launched) :
    pool'.Balanced (handed ++ outcomes.map Prod.fst) := by
  rw [Balanced, List.append_assoc, hl]
  exact (ho.pending.append_left _).trans h

/-! ## No launch -/

theorem launched_turn (schedule : Schedule) (pool : TaskPool σ α) (s : σ) :
    (pool.turn schedule s).2.launched = pool.launched := by
  unfold turn
  split
  · rfl
  · dsimp only
    split <;> rfl

theorem launched_advance (schedule : Schedule) (n : Nat) (pool : TaskPool σ α) (s : σ) :
    (pool.advance schedule n s).2.launched = pool.launched := by
  induction n generalizing pool s with
  | zero => rfl
  | succ n ih => rw [advance, ih, launched_turn]

theorem launched_settle (schedule : Schedule) (n : Nat) (pool : TaskPool σ α) (s : σ) :
    (pool.settle schedule n s).2.launched = pool.launched := by
  induction n generalizing pool s with
  | zero => rfl
  | succ n ih =>
    unfold settle
    split
    · rfl
    · rw [ih, launched_advance]

theorem launched_next (schedule : Schedule) (pool : TaskPool σ α) (s : σ) :
    (pool.next schedule s).2.2.launched = pool.launched := by
  unfold next
  dsimp only
  split <;> exact launched_settle ..

theorem launched_nextMany (schedule : Schedule) (n : Nat) (pool : TaskPool σ α) (s : σ) :
    (pool.nextMany schedule n s).2.2.launched = pool.launched := by
  induction n generalizing pool s with
  | zero => rfl
  | succ n ih =>
    have hnext := launched_next schedule pool s
    unfold nextMany
    split
    · next h => rwa [h] at hnext
    · next h =>
      rw [h] at hnext
      exact (ih _ _).trans hnext

/-! ## Requests served -/

theorem Advances.handsOut (h : Advances pool s pool' s') : HandsOut pool s [] pool' s' := by
  obtain ⟨os, hs, hi⟩ := h
  exact ⟨os, hs, hi⟩

/-- An outcome that is handed out is that of a launch that is missing. -/
theorem Balanced.next (h : pool.Balanced handed) (schedule : Schedule) (s : σ) {own : Nat → Outcome α}
    (hown : ∀ o, (pool.next schedule s).1 = some o → o.2 = own o.1) :
    Entered own pool.launched handed (.next schedule : Request σ α) (.next (pool.next schedule s).1) pool.launched
      (handed ++ (pool.next schedule s).1.toList.map Prod.fst) := by
  obtain ⟨hnext, hsize, hnone⟩ := handsOut_next schedule pool s
  have hpending := hnext.pending
  cases ho : (pool.next schedule s).1 with
  | none =>
    have hempty : (pool.next schedule s).2.2.pending = [] := List.eq_nil_of_length_eq_zero (by
      rw [length_pending]
      exact hnone ho)
    rw [ho, hempty] at hpending
    rw [Option.toList_none, List.map_nil, List.append_nil]
    exact .nothing (h.pending_perm.symm.trans hpending.symm).eq_nil
  | some o =>
    obtain ⟨i, outcome⟩ := o
    rw [ho] at hpending
    have hi : i ∈ pool.pending := hpending.mem_iff.1 (by simp)
    obtain rfl : outcome = own i := hown _ ho
    refine .next (h.lt_of_mem (List.mem_append_right _ hi)) fun hmem => ?_
    exact (List.nodup_append.1 h.nodup).2.2 i hmem i hi rfl

/-- What is drained are the outcomes of the launches that are missing, in order. -/
theorem Balanced.drain (h : pool.Balanced handed) (schedule : Schedule) (s : σ) :
    let outcomes := (pool.nextMany schedule pool.size s).1
    (outcomes.map Prod.fst).Perm (missing pool.launched handed) ∧
      ∀ own, (∀ o ∈ outcomes, o.2 = own o.1) → (pool.drain schedule s).1 = (missing pool.launched handed).map own := by
  intro outcomes
  obtain ⟨hout, hsize⟩ := handsOut_nextMany schedule pool.size pool s
  have hempty : (pool.nextMany schedule pool.size s).2.2.pending = [] := List.eq_nil_of_length_eq_zero (by
    rw [length_pending, hsize, Nat.sub_self])
  have hpending := hout.pending
  rw [hempty, List.append_nil] at hpending
  have hmissing := hpending.trans h.pending_perm
  refine ⟨hmissing, fun own hown => ?_⟩
  exact map_snd_mergeSort hmissing (List.pairwise_lt_range.filter _) hown

/-- A request is served by turns of the tasks, one that it launches among them, and entered in the account. -/
def Served (pool : TaskPool σ α) (s : σ) (handed : List Nat) (r : Request σ α) (reply : Reply α) (pool' : TaskPool σ α)
    (s' : σ) (handed' : List Nat) : Prop :=
  ∃ os, Task.Interleaves s (pool.waiting ++ numbered pool.launched r.task?.toList) os s' pool'.waiting ∧
    pool'.settled ⊆ pool.settled ++ os ∧ pool'.launched = pool.launched + r.task?.toList.length ∧
    pool'.Balanced handed' ∧
    ∀ own, (∀ p ∈ pool.settled ++ os, p.2 = own p.1) → Entered own pool.launched handed r reply pool'.launched handed'

/-- A request that launches nothing is served by what hands out outcomes. -/
theorem HandsOut.served {outcomes : List (Nat × Outcome α)} {r : Request σ α} {reply : Reply α} {handed' : List Nat}
    (h : HandsOut pool s outcomes pool' s') (hl : pool'.launched = pool.launched) (hr : r.task? = none)
    (hb : pool'.Balanced handed')
    (hentered : ∀ own, (∀ o ∈ outcomes, o.2 = own o.1) → Entered own pool.launched handed r reply pool.launched handed') :
    Served pool s handed r reply pool' s' handed' := by
  obtain ⟨os, hs, hi⟩ := h
  refine ⟨os, ?_, ?_, ?_, hb, fun own hown => ?_⟩
  · rw [hr, Option.toList_none, numbered_nil, List.append_nil]
    exact hi
  · rw [← hs]
    exact List.subset_append_right _ _
  · rw [hr, hl]
    rfl
  · rw [hl]
    refine hentered own fun o ho => hown o ?_
    rw [← hs]
    exact List.mem_append_left _ ho

theorem Balanced.serve (h : pool.Balanced handed) (r : Request σ α) (s : σ) :
    let after := pool.serve s r
    ∃ handed', Served pool s handed r after.1 after.2.2 after.2.1 handed' := by
  cases r with
  | launch t =>
    exact ⟨handed, [], .stop (.refl _), List.subset_append_left _ _, rfl, h.launch t, fun _ _ => .launch⟩
  | next schedule =>
    have hnext := (handsOut_next schedule pool s).1
    have hl := launched_next schedule pool s
    refine ⟨_, hnext.served hl rfl (h.handsOut hnext hl) fun own hown => ?_⟩
    exact h.next schedule s fun o ho => hown o (Option.mem_toList.2 ho)
  | drain schedule =>
    have hout := (handsOut_nextMany schedule pool.size pool s).1
    have hl := launched_nextMany schedule pool.size pool s
    obtain ⟨hmissing, hdrained⟩ := h.drain schedule s
    have hbalanced : (pool.drain schedule s).2.2.Balanced (handed ++ missing pool.launched handed) :=
      ((hmissing.append_left _).symm.append_right _).trans (h.handsOut hout hl)
    refine ⟨_, hout.served hl rfl hbalanced fun own hown => ?_⟩
    change Entered own pool.launched handed _ (.drained (pool.drain schedule s).1) pool.launched _
    rw [hdrained own hown]
    exact .drain
  | size =>
    refine ⟨handed, (Advances.refl pool s).handsOut.served rfl rfl h fun _ _ => .size ?_⟩
    have hlength := h.length_eq
    rw [List.length_append, length_pending, List.length_range] at hlength
    omega
  | pass schedule turns =>
    have hadvance := (advances_advance schedule turns pool s).1.handsOut
    have hl := launched_advance schedule turns pool s
    have hbalanced := h.handsOut hadvance hl
    rw [List.map_nil, List.append_nil] at hbalanced
    exact ⟨handed, hadvance.served hl rfl hbalanced fun _ _ => .pass⟩

/-- Requests are served by an interleaving of the tasks, and entered in the account one by one. -/
theorem Balanced.serveAll (h : pool.Balanced handed) (rs : List (Request σ α)) (s : σ) :
    let after := Request.serveAll TaskPool.serve pool s rs
    ∃ os handed', Task.Interleaves s (pool.waiting ++ numbered pool.launched (rs.filterMap Request.task?)) os
        after.2.1 after.2.2.waiting ∧
      after.2.2.launched = pool.launched + (rs.filterMap Request.task?).length ∧ after.2.2.Balanced handed' ∧
      ∀ own, (∀ p ∈ pool.settled ++ os, p.2 = own p.1) →
        Accounts own pool.launched handed rs after.1 after.2.2.launched handed' := by
  induction rs generalizing pool s handed with
  | nil =>
    exact ⟨[], handed, (List.append_nil pool.waiting).symm ▸ .stop (.refl _), rfl, h, fun _ _ => .nil⟩
  | cons r rs ih =>
    obtain ⟨handed₁, os, hi, hsettled, hl, hbalanced, hentered⟩ := h.serve r s
    obtain ⟨os', handed', hi', hl', hbalanced', haccounts⟩ := ih hbalanced (pool.serve s r).2.1
    have htasks : (r :: rs).filterMap Request.task? = r.task?.toList ++ rs.filterMap Request.task? := by
      cases ht : r.task? <;> simp [ht]
    refine ⟨os ++ os', handed', ?_, ?_, hbalanced', fun own hown => ?_⟩
    · have hall := (hi.append (numbered (pool.serve s r).2.2.launched (rs.filterMap Request.task?))).trans hi'
      rwa [List.append_assoc, hl, ← numbered_append, ← htasks] at hall
    · rw [htasks, List.length_append, ← Nat.add_assoc, ← hl]
      exact hl'
    · refine .cons (hentered own fun p hp => hown p ?_) (haccounts own fun p hp => hown p ?_)
      · rw [← List.append_assoc]
        exact List.mem_append_left _ hp
      · rw [← List.append_assoc]
        rcases List.mem_append.1 hp with hp | hp
        · exact List.mem_append_left _ (hsettled hp)
        · exact List.mem_append_right _ hp

end TaskPool

end ScopeActions
