import ScopeActions.Proofs.Grammar.Walk
/-!
# Draining the pending entries

A walk drains each entry that gets marked, once, as `PruneWalk.drain_spec` says: it passes the rules of the
entry and restricts the entry in its place. With enough steps nothing is pending in the end.
-/

namespace ScopeActions

/-- The entries with those of the given names restricted. -/
def restrictAt (p : Rule → Bool) (names : List String) (entries : List (String × Rule)) : List (String × Rule) :=
  entries.map fun b => (b.1, if b.1 ∈ names then b.2.restrict p else b.2)

section RestrictAt
variable {p : Rule → Bool} {names : List String} {entries : List (String × Rule)} {name : String} {e : Rule}

theorem restrictAt_cons (b : String × Rule) : restrictAt p names (b :: entries) =
    (b.1, if b.1 ∈ names then b.2.restrict p else b.2) :: restrictAt p names entries := rfl

theorem get?_restrictAt : Assoc.get? (restrictAt p names entries) name =
    (Assoc.get? entries name).map fun e => if name ∈ names then e.restrict p else e :=
  Assoc.get?_map entries (fun n e => if n ∈ names then e.restrict p else e) name

theorem put_restrictAt (hk : (Assoc.keys entries).Nodup) (he : Assoc.get? entries name = some e) :
    Assoc.put (restrictAt p names entries) name (e.restrict p) = restrictAt p (names ++ [name]) entries := by
  induction entries with
  | nil => cases he
  | cons b entries ih =>
    obtain ⟨hb, hk⟩ := List.nodup_cons.1 (show (b.1 :: Assoc.keys entries).Nodup from hk)
    rw [restrictAt_cons, restrictAt_cons, Assoc.put]
    by_cases h : b.1 = name
    · have htail : restrictAt p names entries = restrictAt p (names ++ [name]) entries := by
        refine List.map_congr_left fun c hc => ?_
        have : c.1 ≠ name := fun e => hb (h ▸ e ▸ List.mem_map_of_mem hc)
        simp [this]
      rw [Assoc.get?, if_pos h] at he
      cases he
      simp [h, htail]
    · rw [Assoc.get?, if_neg h] at he
      simp [h, ih hk he]

end RestrictAt

namespace PruneWalk

/-- The rules passed when the entry is drained. -/
def entryTrail (entries : List (String × Rule)) (name : String) : List Rule :=
  ((Assoc.get? entries name).map Rule.trail).getD []

/-- The names of the entries drained, in order, and the state in which that ends. -/
def flush (V : Verdicts) (live : List String) (entries : List (String × Rule)) :
    Nat → PruneWalk → List String × PruneWalk
  | 0, w => ([], w)
  | n + 1, w =>
    match w.pending with
    | [] => ([], w)
    | name :: pending =>
      let rest := flush V live entries n ({ w with pending }.after (V.effect live (entryTrail entries name)))
      (name :: rest.1, rest.2)

/-- What draining keeps: an entry is marked once, and it is live; it has been drained or is pending. -/
structure Draining (live drained : List String) (w : PruneWalk) : Prop where
  nodup : w.marked.Nodup
  perm : w.marked.Perm (drained ++ w.pending)
  live : ∀ n ∈ w.marked, n ∈ live

variable {V : Verdicts} {grammar : String} {live drained : List String} {entries : List (String × Rule)} {w : PruneWalk}

theorem Draining.mark {name : String} (h : Draining live drained w) (hn : name ∈ live) :
    Draining live drained (w.mark name) := by
  rw [PruneWalk.mark]
  split
  · exact h
  · next hc =>
    refine ⟨?_, ?_, fun n hm => ?_⟩
    · refine List.nodup_append.2 ⟨h.nodup, by simp, ?_⟩
      rintro a ha b hb rfl
      obtain rfl := List.mem_singleton.1 hb
      exact hc (by simpa using ha)
    · refine (h.perm.append_right [name]).trans ?_
      rw [List.append_assoc]
      exact (List.perm_append_comm).append_left drained
    · rcases List.mem_append.1 hm with hm | hm
      · exact h.live n hm
      · exact List.mem_singleton.1 hm ▸ hn

theorem Draining.after {e : Effect} (h : Draining live drained w) (he : ∀ n ∈ e.marks, n ∈ live) :
    Draining live drained (w.after e) := by
  have marks : ∀ ns : List String, (∀ n ∈ ns, n ∈ live) → ∀ w, Draining live drained w →
      Draining live drained (ns.foldl PruneWalk.mark w) := by
    intro ns hns
    induction ns with
    | nil => exact fun _ h => h
    | cons n ns ih =>
      intro w h
      exact ih (fun k hk => hns k (List.mem_cons_of_mem n hk)) _ (h.mark (hns n List.mem_cons_self))
  obtain ⟨h1, h2, h3⟩ := marks e.marks he w h
  exact ⟨h1, h2, h3⟩

theorem Draining.pop {name : String} {pending : List String} (h : Draining live drained w)
    (hp : w.pending = name :: pending) : Draining live (drained ++ [name]) { w with pending } :=
  ⟨h.nodup, by simpa [hp] using h.perm, h.live⟩

theorem Draining.not_mem {name : String} {pending : List String} (h : Draining live drained w)
    (hp : w.pending = name :: pending) : name ∉ drained := by
  intro hn
  have := h.perm.nodup_iff.1 h.nodup
  rw [hp] at this
  exact (List.nodup_append.1 this).2.2 name hn name List.mem_cons_self rfl

theorem mem_live_of_mem_marks {rs : List Rule} {n : String} (h : n ∈ (V.effect live rs).marks) : n ∈ live := by
  obtain ⟨r, -, hr⟩ := List.mem_filterMap.1 h
  rw [Rule.marked?] at hr
  split at hr
  · split at hr
    · next hc =>
      cases hr
      simpa using hc
    · cases hr
  · cases hr

variable (V grammar) in
/-- Draining passes the rules of each entry that gets marked, and restricts the entry. -/
theorem drain_spec (hk : (Assoc.keys entries).Nodup) (hl : ∀ n ∈ live, n ∈ Assoc.keys entries) (n : Nat)
    (h : Draining live drained w) :
    let x := (drain (V.context grammar (Assoc.keys entries) live) n (restrictAt (V.sees live) drained entries)).run w
    let rest := flush V live entries n w
    x.value V.on = (restrictAt (V.sees live) (drained ++ rest.1) entries, rest.2) ∧
      x.asked V.on = (rest.1.flatMap (entryTrail entries)).filterMap (Rule.foreign? V.loaded) := by
  induction n generalizing drained w with
  | zero => simp [drain, flush]
  | succ n ih =>
    dsimp only
    rw [drain_run, flush]
    cases hp : w.pending with
    | nil => simp
    | cons name pending =>
      have hname : name ∈ live := h.live name (h.perm.mem_iff.2 (by simp [hp]))
      obtain ⟨e, he⟩ := Assoc.exists_of_mem_keys (hl name hname)
      -- an entry is drained once, so the walk still meets its rule as it was
      have he' : Assoc.get? (restrictAt (V.sees live) drained entries) name = some e := by
        rw [get?_restrictAt, he, Option.map_some, if_neg (h.not_mem hp)]
      have htrail : entryTrail entries name = e.trail := by simp [entryTrail, he]
      obtain ⟨hv, hs⟩ := Rule.prune_yields V grammar hl e { w with pending }
      obtain ⟨hv', hs'⟩ := ih ((h.pop hp).after (e := V.effect live e.trail) fun k hk => mem_live_of_mem_marks hk)
      dsimp only
      rw [he']
      dsimp only
      rw [Inquiry.value_bind, Inquiry.asked_bind, hv, hs, put_restrictAt hk he, htrail, hv', hs']
      simp [htrail, Verdicts.effect]

/-- With enough steps draining ends with nothing pending. -/
theorem flush_pending (hl : ∀ n ∈ live, n ∈ Assoc.keys entries) (n : Nat) (h : Draining live drained w)
    (hn : entries.length ≤ n + drained.length) : (flush V live entries n w).2.pending = [] ∧
      Draining live (drained ++ (flush V live entries n w).1) (flush V live entries n w).2 := by
  induction n generalizing drained w with
  | zero =>
    -- the marked entries are those drained and those pending, and there are no more than there are entries
    have hlen := (h.nodup.subperm fun n hn => hl n (h.live n hn)).length_le
    rw [h.perm.length_eq, List.length_append, Assoc.keys, List.length_map] at hlen
    have hp : w.pending.length = 0 := by omega
    rw [flush, List.append_nil]
    exact ⟨List.eq_nil_of_length_eq_zero hp, h⟩
  | succ n ih =>
    rw [flush]
    cases hp : w.pending with
    | nil => exact ⟨hp, by simpa using h⟩
    | cons name pending =>
      have := ih ((h.pop hp).after (e := V.effect live (entryTrail entries name)) fun k hk => mem_live_of_mem_marks hk)
        (by simp only [List.length_append, List.length_singleton]; omega)
      simpa using this

theorem mem_marked_after {e : Effect} {n : String} : n ∈ (w.after e).marked ↔ n ∈ w.marked ∨ n ∈ e.marks := by
  have marks : ∀ (ns : List String) (w : PruneWalk), n ∈ (ns.foldl mark w).marked ↔ n ∈ w.marked ∨ n ∈ ns := by
    intro ns
    induction ns with
    | nil => simp
    | cons k ns ih =>
      intro w
      rw [List.foldl_cons, ih, mark]
      split
      · next hc =>
        have hc : k ∈ w.marked := by simpa using hc
        rw [List.mem_cons]
        constructor
        · rintro (h | h)
          · exact .inl h
          · exact .inr (.inr h)
        · rintro (h | rfl | h)
          · exact .inl h
          · exact .inl hc
          · exact .inr h
      · simp [or_assoc]
  exact marks e.marks w

variable (V live entries) in
/-- What is marked stays so, and what a drained entry includes gets marked. -/
theorem mem_marked_flush (n : Nat) (w : PruneWalk) :
    (∀ k ∈ w.marked, k ∈ (flush V live entries n w).2.marked) ∧
      ∀ name ∈ (flush V live entries n w).1, ∀ k ∈ (V.effect live (entryTrail entries name)).marks,
        k ∈ (flush V live entries n w).2.marked := by
  induction n generalizing w with
  | zero => simp [flush]
  | succ n ih =>
    rw [flush]
    cases hp : w.pending with
    | nil => simp
    | cons name pending =>
      obtain ⟨h1, h2⟩ := ih ({ w with pending }.after (V.effect live (entryTrail entries name)))
      refine ⟨fun k hk => h1 k (mem_marked_after.2 (.inl hk)), fun m hm k hk => ?_⟩
      rcases List.mem_cons.1 hm with rfl | hm
      · exact h1 k (mem_marked_after.2 (.inr hk))
      · exact h2 m hm k hk

end PruneWalk

end ScopeActions
