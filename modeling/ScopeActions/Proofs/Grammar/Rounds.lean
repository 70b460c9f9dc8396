import ScopeActions.Proofs.Grammar.Leave
import ScopeActions.Proofs.Grammar.Steps
/-!
# Rounds find the least set

Where the verdicts on other grammars are given, a rule is live or not by what is known of the entries. The search for
live entries looks at them round by round, each time with what it has found so far. It ends after at most one round more
than there are entries to look at, with the least set that misses no entry seen to be live by it, in whatever order it
looks at them (`Liveness.liveEntries_least`).
-/

namespace ScopeActions

/-- Surroundings in which the verdicts are given beforehand. No question fails. -/
def Verdicts.given (V : Verdicts) : Surroundings Option :=
  { keep := V.keep, loaded := V.loaded, decide := fun scope => some (V.on scope) }

section Given
variable (V : Verdicts) (known : List String)

/-- Where the verdicts are given, an inquiry has the result that they give it. -/
theorem Inquiry.perform_given {α : Type} (x : Inquiry α) :
    x.perform V.given.decide (fun _ => some ()) = some (x.value V.on) := by
  induction x with
  | done a => rfl
  | ask s k ih => exact ih (V.on s)
  | report d x ih => exact ih

theorem Rule.live_given (r : Rule) : r.live V.given known = some (V.sees known r) := by
  rw [← Rule.live_inquired V.given known fun _ => some (), Inquiry.perform_given]
  exact congrArg some (Inquiry.value_live V known r)

theorem Rule.live_given_eq_true (r : Rule) : r.live V.given known = some true ↔ V.sees known r = true := by
  rw [Rule.live_given, Option.some_inj]

theorem Liveness.liveEntries_given (entries : List (String × Rule)) (names : List String) :
    liveEntries V.given entries names = some ((liveEntries V.inquired entries names).value V.on) := by
  rw [liveEntries, ← rounds_inquired V.given fun _ => some (), Inquiry.perform_given]
  rfl

end Given

namespace Liveness

/-- A set of entries to look at that misses none of them that is live where the set is known to be. -/
structure Closed (V : Verdicts) (entries : List (String × Rule)) (names known : List String) : Prop where
  mem : ∀ n ∈ known, n ∈ names
  live : ∀ n ∈ names, ∀ e, Assoc.get? entries n = some e → e.live V.given known = some true → n ∈ known

/-- The least such set. -/
structure Least (V : Verdicts) (entries : List (String × Rule)) (names live : List String) : Prop where
  closed : Closed V entries names live
  least : ∀ known, Closed V entries names known → ∀ n ∈ live, n ∈ known

variable {V : Verdicts} {entries : List (String × Rule)} {names names' live live' : List String}

theorem closed_iff {known : List String} : Closed V entries names known ↔
    (∀ n ∈ known, n ∈ names) ∧ Fixed V entries names known := by
  constructor
  · rintro ⟨hmem, hlive⟩
    refine ⟨hmem, fun n hn e he hs => hlive n hn e he ?_⟩
    exact (Rule.live_given_eq_true V known e).2 hs
  · rintro ⟨hmem, hfixed⟩
    refine ⟨hmem, fun n hn e he hs => hfixed n hn e he ?_⟩
    exact (Rule.live_given_eq_true V known e).1 hs

theorem Least.mem_iff (h : Least V entries names live) (h' : Least V entries names live') (n : String) :
    n ∈ live ↔ n ∈ live' :=
  ⟨h.least live' h'.closed n, h'.least live h.closed n⟩

/-- What has to be looked at counts, and not the order in which it is. -/
theorem Least.congr (h : Least V entries names live) (hn : ∀ n, n ∈ names ↔ n ∈ names') : Least V entries names' live := by
  have hclosed : ∀ known, Closed V entries names known ↔ Closed V entries names' known := by
    intro known
    simp only [closed_iff, Fixed, hn]
  exact ⟨(hclosed live).1 h.closed, fun known hknown => h.least known ((hclosed known).2 hknown)⟩

/-- The search finds the least set, where it looks at every entry to which those that it looks at lead. -/
theorem least_liveEntries (hn : ∀ n ∈ names, ∀ e, Assoc.get? entries n = some e →
    ∀ k ∈ e.entryInclusions, Assoc.contains entries k = true → k ∈ names) :
    Least V entries names ((liveEntries V.inquired entries names).value V.on) := by
  obtain ⟨hknown, hfixed⟩ := liveEntries_spec V entries names
  refine ⟨closed_iff.2 ⟨hknown.mem, hfixed⟩, fun known hclosed n hlive => ?_⟩
  obtain ⟨-, hfixed'⟩ := closed_iff.1 hclosed
  obtain ⟨e, he, hl⟩ := hknown.live n hlive
  have hmem : n ∈ names := hknown.mem n hlive
  exact hfixed' n hmem e he (hl.anyHead names hn hfixed' (hn n hmem e he))

/-- Reachable entries lead to reachable ones. -/
theorem mem_reachable_of_inclusion {patterns : List Rule} {n k : String} {e : Rule} (hn : n ∈ reachable patterns entries)
    (he : Assoc.get? entries n = some e) (hk : k ∈ e.entryInclusions) (hc : Assoc.contains entries k = true) :
    k ∈ reachable patterns entries :=
  mem_reachable.2 (.step (mem_reachable.1 hn) he hk hc)

/-- The entries that can be reached are listed once each, and the stack on which they are followed is empty in the end.
The rounds over them end by themselves, after at most one round more than there are of these entries, and leave the least
set of them that is closed. In any other order, as many rounds suffice and leave the same set. -/
theorem liveEntries_least (V : Verdicts) (g : Grammar) :
    let names := reachable g.patterns g.entries
    (∀ steps ≥ g.patterns.length + g.entries.length,
      followWithin g.entries steps [] g.patterns.reverse = some names) ∧
    names.Nodup ∧
    (∀ n, n ∈ names ↔
      (∃ e, Assoc.get? g.entries n = some e) ∧ ∃ r, g.Leads r ∧ r.inclusion? = some (.entry n)) ∧
    ∃ live, live.Nodup ∧ Least V g.entries names live ∧
      liveEntries V.given g.entries names = some live ∧
      (∀ n ≥ names.length + 1, roundsWithin V.given g.entries names n [] = some live) ∧
      ∀ order : List String, order.Perm names → ∃ live', live'.Perm live ∧
        liveEntries V.given g.entries order = some live' ∧
        ∀ n ≥ names.length + 1, roundsWithin V.given g.entries order n [] = some live' := by
  intro names
  have hleads : ∀ order : List String, order.Perm names → ∀ n ∈ order, ∀ e, Assoc.get? g.entries n = some e →
      ∀ k ∈ e.entryInclusions, Assoc.contains g.entries k = true → k ∈ order := by
    intro order horder n hn e he k hk hc
    exact horder.mem_iff.2 (mem_reachable_of_inclusion (horder.mem_iff.1 hn) he hk hc)
  have hwithin : ∀ order : List String, order.Perm names → ∀ n ≥ names.length + 1,
      roundsWithin V.given g.entries order n [] = liveEntries V.given g.entries order := by
    intro order horder n hn
    exact roundsWithin_liveEntries V.given g.entries order n (horder.length_eq ▸ hn)
  obtain ⟨hknown, -⟩ := liveEntries_spec V g.entries names
  have hleast : Least V g.entries names ((liveEntries V.inquired g.entries names).value V.on) :=
    least_liveEntries (hleads names (.refl names))
  refine ⟨fun steps => followWithin_reachable g.patterns g.entries steps, nodup_reachable _ _, fun n => ?_, _,
    hknown.nodup, hleast, liveEntries_given V g.entries names, fun n hn => ?_, fun order horder => ?_⟩
  · rw [mem_reachable, Grammar.reach_iff, Assoc.contains, Option.isSome_iff_exists]
  · rw [hwithin names (.refl names) n hn, liveEntries_given]
  · obtain ⟨hknown', -⟩ := liveEntries_spec V g.entries order
    have hleast' := (least_liveEntries (V := V) (hleads order horder)).congr fun n => horder.mem_iff
    refine ⟨_, ?_, liveEntries_given V g.entries order, fun n hn => ?_⟩
    · exact (List.perm_ext_iff_of_nodup hknown'.nodup hknown.nodup).2 (hleast'.mem_iff hleast)
    · rw [hwithin order horder n hn, liveEntries_given]

/-- An entry leads to one that leads back to it and to one that includes another grammar. No pattern leads to a fourth. -/
def tangled : Grammar :=
  ((((Grammar.ofPatterns "a" [.including "#x"]).addEntry "x" (.mk {} (some [.including "#y", .including "#z"]) none none
    none none)).addEntry "y" (.including "#x")).addEntry "z" (.including "b")).addEntry "u" (.named "k")

/-- The other grammar is kept. -/
def kept : Verdicts := { keep := ["k"], loaded := ["a", "b"], on := (· == "b") }

/-- Looked at from the last to the first, the three entries are found live as well. -/
theorem liveEntries_least_tangled :
    reachable tangled.patterns tangled.entries = ["x", "y", "z"] ∧
    followWithin tangled.entries 5 [] tangled.patterns.reverse = some ["x", "y", "z"] ∧
    ["z", "y", "x"].Perm ["x", "y", "z"] ∧
    ∃ live live', Least kept tangled.entries ["x", "y", "z"] live ∧ live'.Perm live ∧
      roundsWithin kept.given tangled.entries ["x", "y", "z"] 4 [] = some live ∧
      roundsWithin kept.given tangled.entries ["z", "y", "x"] 4 [] = some live' := by
  have hnames : reachable tangled.patterns tangled.entries = ["x", "y", "z"] := by decide +kernel
  have horder : ["z", "y", "x"].Perm ["x", "y", "z"] := by decide
  have hall := liveEntries_least kept tangled
  rw [hnames] at hall
  obtain ⟨hfollow, -, -, live, -, hleast, -, hwithin, hordered⟩ := hall
  obtain ⟨live', hperm, -, hwithin'⟩ := hordered ["z", "y", "x"] horder
  have hsteps : 5 ≥ tangled.patterns.length + tangled.entries.length := by decide +kernel
  exact ⟨hnames, hfollow 5 hsteps, horder, live, live', hleast, hperm, hwithin 4 (by decide), hwithin' 4 (by decide)⟩

end Liveness

end ScopeActions
