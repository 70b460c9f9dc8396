import Mathlib.Data.List.Nodup
import Mathlib.Data.List.Perm.Subperm
import ScopeActions.Task
/-!
# Interleavings

Tasks that run side by side take their turns in some order (`Task.Interleaves`). Each task settles once, so where
all of them settle the outcomes are those of one run in turn, in some order, as far as no outcome depends on
the order (`Task.Settles`).
-/

namespace ScopeActions

/-- The members of a list with their numbers, from a first one. -/
def numbered {β : Type} (n : Nat) (bs : List β) : List (Nat × β) :=
  (bs.zipIdx n).map Prod.swap

section Numbered
variable {β γ : Type} {n : Nat} {b : β} {bs cs : List β}

@[simp] theorem numbered_nil : numbered n ([] : List β) = [] :=
  rfl

@[simp] theorem numbered_cons : numbered n (b :: bs) = (n, b) :: numbered (n + 1) bs :=
  rfl

@[simp] theorem map_snd_numbered : (numbered n bs).map Prod.snd = bs := by
  simp [numbered, Function.comp_def]

@[simp] theorem map_fst_numbered : (numbered n bs).map Prod.fst = List.range' n bs.length := by
  simp [numbered, Function.comp_def, ← List.zipIdx_map_snd]

@[simp] theorem length_numbered : (numbered n bs).length = bs.length := by
  simp [numbered]

theorem numbered_append : numbered n (bs ++ cs) = numbered n bs ++ numbered (n + bs.length) cs := by
  simp [numbered, List.zipIdx_append]

theorem mem_numbered {i : Nat} : (i, b) ∈ numbered n bs ↔ n ≤ i ∧ bs[i - n]? = some b := by
  rw [← List.mk_mem_zipIdx_iff_le_and_getElem?_sub, numbered, List.mem_map]
  constructor
  · rintro ⟨⟨c, k⟩, hc, he⟩
    cases he
    exact hc
  · intro h
    exact ⟨(b, i), h, rfl⟩

/-- Members that are numbered from `n` on are those of a list with their numbers. -/
theorem numbered_map_snd {ps : List (Nat × β)} (h : ps.map Prod.fst = List.range' n ps.length) :
    numbered n (ps.map Prod.snd) = ps := by
  induction ps generalizing n with
  | nil => rfl
  | cons p ps ih =>
    rw [List.map_cons, List.length_cons, List.range'_succ] at h
    obtain ⟨hp, hps⟩ := List.cons.inj h
    rw [List.map_cons, numbered_cons, ih hps, ← hp]

theorem pairwise_mergeSort_fst (ps : List (Nat × β)) :
    (ps.mergeSort fun a b => a.1 ≤ b.1).Pairwise fun a b => a.1 ≤ b.1 := by
  have hs := @List.pairwise_mergeSort (Nat × β) (fun a b => decide (a.1 ≤ b.1))
    (by simp only [decide_eq_true_eq]; omega) (by simp; omega) ps
  exact hs.imp of_decide_eq_true

/-- Where the numbers are those from `n` on, sorting by them gives the members in order. -/
theorem perm_numbered {ps : List (Nat × β)} {m : Nat} (h : (ps.map Prod.fst).Perm (List.range' n m)) :
    ps.Perm (numbered n ((ps.mergeSort fun a b => a.1 ≤ b.1).map (·.2))) := by
  have hperm := List.mergeSort_perm ps fun a b => a.1 ≤ b.1
  have hlength : (ps.mergeSort fun a b => a.1 ≤ b.1).length = m := by
    rw [hperm.length_eq, ← List.length_map Prod.fst, h.length_eq, List.length_range']
  have hfst : (ps.mergeSort fun a b => a.1 ≤ b.1).map Prod.fst = List.range' n m := by
    have hsorted : ((ps.mergeSort fun a b => a.1 ≤ b.1).map Prod.fst).Pairwise (· ≤ ·) :=
      List.pairwise_map.2 (pairwise_mergeSort_fst ps)
    have hlt : (List.range' n m).Pairwise (· < ·) := List.pairwise_lt_range'
    have hrange : (List.range' n m).Pairwise (· ≤ ·) := hlt.imp Nat.le_of_lt
    apply ((hperm.map Prod.fst).trans h).eq_of_pairwise _ hsorted hrange
    intro a b _ _ hab hba
    exact Nat.le_antisymm hab hba
  rw [← hlength] at hfst
  rw [numbered_map_snd hfst]
  exact hperm.symm

/-- Sorting by numbers gives the list in which they increase. -/
theorem mergeSort_of_perm {ps qs : List (Nat × β)} (h : ps.Perm qs) (hlt : (qs.map Prod.fst).Pairwise (· < ·)) :
    (ps.mergeSort fun a b => a.1 ≤ b.1) = qs := by
  have hsorted := pairwise_mergeSort_fst ps
  have hperm := (List.mergeSort_perm ps fun a b => a.1 ≤ b.1).trans h
  have hle : qs.Pairwise fun a b => a.1 ≤ b.1 := (List.pairwise_map.1 hlt).imp Nat.le_of_lt
  refine hperm.eq_of_pairwise ?_ hsorted hle
  -- a number stands for one member only
  intro a b ha hb hab hba
  have hnodup : (qs.map Prod.fst).Nodup := hlt.imp Nat.ne_of_lt
  exact List.inj_on_of_nodup_map hnodup (hperm.mem_iff.1 ha) hb (Nat.le_antisymm hab hba)

/-- Sorting by the numbers gives the list back. -/
theorem mergeSort_of_perm_numbered {ps : List (Nat × β)} (h : ps.Perm (numbered n bs)) :
    (ps.mergeSort fun a b => a.1 ≤ b.1) = numbered n bs :=
  mergeSort_of_perm h (by rw [map_fst_numbered]; exact List.pairwise_lt_range')

/-- Sorting by numbers that stand for the members gives these in order. -/
theorem map_snd_mergeSort {ps : List (Nat × β)} {is : List Nat} {f : Nat → β} (h : (ps.map Prod.fst).Perm is)
    (hlt : is.Pairwise (· < ·)) (hf : ∀ p ∈ ps, p.2 = f p.1) :
    (ps.mergeSort fun a b => a.1 ≤ b.1).map (·.2) = is.map f := by
  have hps : (ps.map Prod.fst).map (fun i => (i, f i)) = ps := by
    rw [List.map_map]
    refine (List.map_congr_left fun p hp => ?_).trans (List.map_id ps)
    exact Prod.ext rfl (hf p hp).symm
  have hperm : ps.Perm (is.map fun i => (i, f i)) := hps ▸ h.map fun i => (i, f i)
  have hnumbers : (is.map fun i => (i, f i)).map Prod.fst = is := by
    rw [List.map_map]
    exact List.map_id' is
  rw [mergeSort_of_perm hperm (hnumbers.symm ▸ hlt), List.map_map]
  rfl

/-- Where numbers differ, one function gives the members. -/
theorem exists_own [Inhabited β] {ps : List (Nat × β)} (h : (ps.map Prod.fst).Nodup) :
    ∃ own : Nat → β, ∀ p ∈ ps, p.2 = own p.1 := by
  induction ps with
  | nil => exact ⟨default, nofun⟩
  | cons p ps ih =>
    rw [List.map_cons, List.nodup_cons] at h
    obtain ⟨own, hown⟩ := ih h.2
    refine ⟨Function.update own p.1 p.2, fun q hq => ?_⟩
    rcases List.mem_cons.1 hq with rfl | hq
    · rw [Function.update_self]
    · have hne : q.1 ≠ p.1 := fun heq => h.1 (heq ▸ List.mem_map_of_mem hq)
      rw [Function.update_of_ne hne, hown q hq]

theorem eq_of_perm_numbered (h : (numbered n bs).Perm (numbered n cs)) : bs = cs := by
  have heq : numbered n bs = numbered n cs :=
    (mergeSort_of_perm_numbered (.refl _)).symm.trans (mergeSort_of_perm_numbered h)
  calc bs = (numbered n bs).map Prod.snd := map_snd_numbered.symm
    _ = cs := by rw [heq, map_snd_numbered]

end Numbered

instance {α : Type} : Inhabited (Outcome α) :=
  ⟨.panicked .other⟩

namespace Task

variable {σ α : Type}

/-- From a state and numbered tasks, turns lead to a state and to what is left of the tasks. The outcomes are those
of the tasks that settle on the way, in this order. -/
inductive Interleaves : σ → List (Nat × Task σ α) → List (Nat × Outcome α) → σ → List (Nat × Task σ α) → Prop
  | stop {s : σ} {ts ts' : List (Nat × Task σ α)} : ts.Perm ts' → Interleaves s ts [] s ts'
  | turn {s s' : σ} {ts rest ts' : List (Nat × Task σ α)} {os : List (Nat × Outcome α)} {i : Nat} {step : σ → σ}
      {steps : List (σ → σ)} {last : σ → σ × Outcome α} : ts.Perm ((i, ⟨step :: steps, last⟩) :: rest) →
      Interleaves (step s) ((i, ⟨steps, last⟩) :: rest) os s' ts' → Interleaves s ts os s' ts'
  | settle {s s' : σ} {ts rest ts' : List (Nat × Task σ α)} {os : List (Nat × Outcome α)} {i : Nat}
      {last : σ → σ × Outcome α} : ts.Perm ((i, ⟨[], last⟩) :: rest) → Interleaves (last s).1 rest os s' ts' →
      Interleaves s ts ((i, (last s).2) :: os) s' ts'

variable {s s' s'' : σ} {ts ts' ts'' us : List (Nat × Task σ α)} {os os' : List (Nat × Outcome α)}

theorem Interleaves.perm (h : Interleaves s ts os s' ts') (hp : us.Perm ts) : Interleaves s us os s' ts' := by
  cases h with
  | stop h => exact .stop (hp.trans h)
  | turn h hr => exact .turn (hp.trans h) hr
  | settle h hr => exact .settle (hp.trans h) hr

theorem Interleaves.trans (h : Interleaves s ts os s' ts') (h' : Interleaves s' ts' os' s'' ts'') :
    Interleaves s ts (os ++ os') s'' ts'' := by
  induction h with
  | stop hp => exact h'.perm hp
  | turn hp _ ih => exact .turn hp (ih h')
  | settle hp _ ih => exact .settle hp (ih h')

theorem Interleaves.done {rest : List (Nat × Task σ α)} {i : Nat} {o : Outcome α} (hp : ts.Perm ((i, .done o) :: rest))
    (h : Interleaves s rest os s' ts') : Interleaves s ts ((i, o) :: os) s' ts' :=
  @Interleaves.settle _ _ _ _ _ _ _ _ _ (fun s => (s, o)) hp h

/-- Tasks that take no turn stay as they are. -/
theorem Interleaves.append (h : Interleaves s ts os s' ts') (us : List (Nat × Task σ α)) :
    Interleaves s (ts ++ us) os s' (ts' ++ us) := by
  induction h with
  | stop hp => exact .stop (hp.append_right us)
  | turn hp _ ih => exact .turn (hp.append_right us) ih
  | settle hp _ ih => exact .settle (hp.append_right us) ih

/-- Each task settles once or is left. -/
theorem Interleaves.numbers (h : Interleaves s ts os s' ts') :
    (os.map Prod.fst ++ ts'.map Prod.fst).Perm (ts.map Prod.fst) := by
  induction h with
  | stop hp => exact (hp.map Prod.fst).symm
  | turn hp _ ih => exact ih.trans (hp.map Prod.fst).symm
  | settle hp _ ih => exact (ih.cons _).trans (hp.map Prod.fst).symm

/-- What a task settles with is what its last turn gives. -/
theorem Interleaves.exists_last (h : Interleaves s ts os s' ts') :
    ∀ p ∈ os, ∃ t, (p.1, t) ∈ ts ∧ ∃ s, p.2 = (t.last s).2 := by
  induction h with
  | stop _ => nofun
  | @turn s s' ts rest ts' os i step steps last hp _ ih =>
    intro p hmem
    obtain ⟨t, ht, hlast⟩ := ih p hmem
    rcases List.mem_cons.1 ht with heq | ht
    · cases heq
      exact ⟨_, hp.mem_iff.2 List.mem_cons_self, hlast⟩
    · exact ⟨t, hp.mem_iff.2 (List.mem_cons_of_mem _ ht), hlast⟩
  | @settle s s' ts rest ts' os i last hp _ ih =>
    intro p hmem
    rcases List.mem_cons.1 hmem with rfl | hmem
    · exact ⟨_, hp.mem_iff.2 List.mem_cons_self, s, rfl⟩
    · obtain ⟨t, ht, hlast⟩ := ih p hmem
      exact ⟨t, hp.mem_iff.2 (List.mem_cons_of_mem _ ht), hlast⟩

/-- A task runs with nobody in between. -/
theorem interleaves_run (s : σ) (i : Nat) (t : Task σ α) : Interleaves s [(i, t)] [(i, (t.run s).2)] (t.run s).1 [] := by
  obtain ⟨turns, last⟩ := t
  induction turns generalizing s with
  | nil => exact .settle (.refl _) (.stop (.refl _))
  | cons step steps ih => exact .turn (.refl _) (ih (step s))

/-- Where there are no tasks, nothing happens. -/
theorem Interleaves.of_nil (h : Interleaves s [] os s' []) : s' = s := by
  cases h with
  | stop _ => rfl
  | turn hp _ => cases hp.length_eq
  | settle hp _ => cases hp.length_eq

/-- A task that runs with no others leads to where it leads with nobody in between. -/
theorem Interleaves.of_singleton {i : Nat} {t : Task σ α} (h : Interleaves s [(i, t)] os s' []) : s' = (t.run s).1 := by
  obtain ⟨turns, last⟩ := t
  induction turns generalizing s with
  | nil =>
    cases h with
    | stop hp => cases hp.length_eq
    | turn hp _ => cases List.singleton_perm.1 hp
    | settle hp hrest =>
      cases List.singleton_perm.1 hp
      exact hrest.of_nil
  | cons step steps ih =>
    cases h with
    | stop hp => cases hp.length_eq
    | turn hp hrest =>
      cases List.singleton_perm.1 hp
      exact ih hrest
    | settle hp _ => cases List.singleton_perm.1 hp

/-- Runs tasks in turn, each to its end. -/
def runAll : List (Task σ α) → σ → List (Outcome α) × σ
  | [], s => ([], s)
  | t :: ts, s =>
    let rest := runAll ts (t.run s).1
    ((t.run s).2 :: rest.1, rest.2)

theorem length_runAll (ts : List (Task σ α)) (s : σ) : (runAll ts s).1.length = ts.length := by
  induction ts generalizing s with
  | nil => rfl
  | cons t ts ih => simp [runAll, ih]

theorem runAll_append (ts us : List (Task σ α)) (s : σ) : runAll (ts ++ us) s =
    ((runAll ts s).1 ++ (runAll us (runAll ts s).2).1, (runAll us (runAll ts s).2).2) := by
  induction ts generalizing s with
  | nil => rfl
  | cons t ts ih => simp [runAll, ih]

/-- A run in turn is an interleaving. -/
theorem interleaves_runAll (ts : List (Task σ α)) (s : σ) (n : Nat) :
    Interleaves s (numbered n ts) (numbered n (runAll ts s).1) (runAll ts s).2 [] := by
  induction ts generalizing s n with
  | nil => exact .stop (.refl _)
  | cons t ts ih => exact ((interleaves_run s n t).append (numbered (n + 1) ts)).trans (ih (t.run s).1 (n + 1))

/-- Whatever the order of turns, the tasks settle with these results when all run from this state. -/
def Settles (s : σ) (ts : List (Task σ α)) (results : List α) : Prop :=
  ∀ os s', Interleaves s (numbered 0 ts) os s' [] → os.Perm (numbered 0 (results.map .value))

/-- A run in turn gives these results. -/
theorem Settles.runAll {ts : List (Task σ α)} {results : List α} (h : Settles s ts results) :
    (runAll ts s).1 = results.map .value :=
  eq_of_perm_numbered (h _ _ (interleaves_runAll ts s 0))

/-! ## Tasks that keep to an invariant -/

/-- In states that satisfy `I`, the task ends with this result, and each of its turns keeps `I`. -/
structure Keeps (I : σ → Prop) (t : Task σ α) (result : α) : Prop where
  turn : ∀ step ∈ t.turns, ∀ s, I s → I (step s)
  last : ∀ s, I s → I (t.last s).1 ∧ (t.last s).2 = .value result

variable {I : σ → Prop} {results : List α}

/-- Tasks that keep to an invariant end with their results among others that do. -/
theorem Interleaves.keeps (h : Interleaves s ts os s' ts') (hs : I s)
    (hts : ∀ p ∈ ts, ∃ r, results[p.1]? = some r ∧ p.2.Keeps I r) :
    I s' ∧ ∀ p ∈ os, ∃ r, results[p.1]? = some r ∧ p.2 = .value r := by
  induction h with
  | stop _ => exact ⟨hs, nofun⟩
  | @turn s s' ts rest ts' os i step steps last hp _ ih =>
    obtain ⟨r, hr, hk⟩ := hts _ (hp.mem_iff.2 List.mem_cons_self)
    refine ih (hk.turn step List.mem_cons_self s hs) fun p hmem => ?_
    rcases List.mem_cons.1 hmem with rfl | hmem
    · exact ⟨r, hr, fun step h => hk.turn step (List.mem_cons_of_mem _ h), hk.last⟩
    · exact hts p (hp.mem_iff.2 (List.mem_cons_of_mem _ hmem))
  | @settle s s' ts rest ts' os i last hp _ ih =>
    obtain ⟨r, hr, hk⟩ := hts _ (hp.mem_iff.2 List.mem_cons_self)
    obtain ⟨hkeep, hresult⟩ := hk.last s hs
    obtain ⟨hs', hos⟩ := ih hkeep fun p hmem => hts p (hp.mem_iff.2 (List.mem_cons_of_mem _ hmem))
    refine ⟨hs', fun p hmem => ?_⟩
    rcases List.mem_cons.1 hmem with rfl | hmem
    · exact ⟨r, hr, hresult⟩
    · exact hos p hmem

theorem settles_of_keeps {ts : List (Task σ α)} (hs : I s) (hlength : ts.length = results.length)
    (hts : ∀ (i : Nat) (t : Task σ α), ts[i]? = some t → ∃ r, results[i]? = some r ∧ t.Keeps I r) : Settles s ts results := by
  intro os s' h
  have hnumbers := h.numbers
  rw [List.map_nil, List.append_nil] at hnumbers
  rw [map_fst_numbered] at hnumbers
  have hnodup : os.Nodup := .of_map Prod.fst (hnumbers.nodup_iff.2 List.nodup_range')
  have hsub : os ⊆ numbered 0 (results.map .value) := by
    rintro ⟨i, o⟩ hmem
    obtain ⟨r, hr, rfl⟩ := (h.keeps hs fun p hp => hts p.1 p.2 (mem_numbered.1 hp).2).2 _ hmem
    refine mem_numbered.2 ⟨Nat.zero_le _, ?_⟩
    rw [Nat.sub_zero, List.getElem?_map, hr, Option.map_some]
  refine (List.subperm_of_subset hnodup hsub).perm_of_length_le ?_
  have := hnumbers.length_eq
  simp only [List.length_map, List.length_range', length_numbered] at this ⊢
  omega

end Task

end ScopeActions
