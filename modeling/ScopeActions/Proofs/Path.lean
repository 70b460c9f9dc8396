import ScopeActions.Path
import ScopeActions.Proofs.Text.Split
/-!
# Normal paths

What a path is resolved to is written in one form, with `..` in front only, and stands for the path whatever relative path
is seen from it (`Path.normalText_canonical`). The names that were not taken back are on a stack, above each `..` that
had none to take (`Path.Stack`).
-/

namespace ScopeActions.Path

variable {rooted : Bool} {reversed components cs : List String} {c p q s : String}

/-- A path is resolved as it is written. -/
def normalText (s : String) : String :=
  (ofText s).normalize.toText

/-- The path starts at the root. -/
def isRooted (s : String) : Bool :=
  s.toList.head? == some '/'

/-- A relative path is written after a path, which is ended by a separator unless it is empty or ends in one. -/
def beneath (p q : String) : String :=
  if p = "" then q
  else if p.toList.getLast? = some '/' then p ++ q
  else p ++ "/" ++ q

/-- A component that says where to go down. -/
def IsName (c : String) : Prop :=
  c ≠ "" ∧ c ≠ "." ∧ c ≠ ".." ∧ '/' ∉ c.toList

/-- The normal forms of paths that are rooted or not: a single point; names below the root; or names after any number of
`..`, at least one component in all. -/
inductive Canonical : Bool → String → Prop
  | here : Canonical false "."
  | rooted {names : List String} : (∀ c ∈ names, IsName c) → Canonical true ("/" ++ String.intercalate "/" names)
  | relative {ups : Nat} {names : List String} : List.replicate ups ".." ++ names ≠ [] → (∀ c ∈ names, IsName c) →
      Canonical false (String.intercalate "/" (List.replicate ups ".." ++ names))

/-! ## The stack -/

/-- The components of a normal path, last one first: names, then each `..` that they follow. None follows the root. -/
def Stack (rooted : Bool) (reversed : List String) : Prop :=
  ∃ names ups, reversed = names ++ List.replicate ups ".." ∧ (∀ c ∈ names, IsName c) ∧ (rooted = true → ups = 0)

theorem stack_nil (rooted : Bool) : Stack rooted [] :=
  ⟨[], 0, rfl, nofun, fun _ => rfl⟩

theorem Stack.step (h : Stack rooted reversed) (hc : c = ".." ∨ IsName c) : Stack rooted (step rooted reversed c) := by
  obtain ⟨names, ups, rfl, hnames, hups⟩ := h
  unfold Path.step
  split
  · cases names with
    | nil =>
      cases ups with
      | zero =>
        rw [List.replicate_zero, List.append_nil]
        dsimp only
        split
        · exact stack_nil rooted
        · next hrooted => exact ⟨[], 1, rfl, nofun, fun h => absurd h hrooted⟩
      | succ ups =>
        exact ⟨[], ups + 2, rfl, nofun, fun h => absurd (hups h) (Nat.succ_ne_zero ups)⟩
    | cons name names =>
      obtain ⟨hname, hnames⟩ := List.forall_mem_cons.1 hnames
      rw [List.cons_append]
      dsimp only
      rw [if_neg hname.2.2.1]
      exact ⟨names, ups, rfl, hnames, hups⟩
  · next hne =>
    exact ⟨c :: names, ups, rfl, List.forall_mem_cons.2 ⟨hc.resolve_left hne, hnames⟩, hups⟩

theorem Stack.foldl (h : Stack rooted reversed) (hcs : ∀ c ∈ cs, c = ".." ∨ IsName c) :
    Stack rooted (cs.foldl (Path.step rooted) reversed) := by
  induction cs generalizing reversed with
  | nil => exact h
  | cons c cs ih =>
    obtain ⟨hc, hcs⟩ := List.forall_mem_cons.1 hcs
    exact ih (h.step hc) hcs

/-- A stack is put on again as it was. -/
theorem Stack.foldl_reverse (h : Stack rooted reversed) : reversed.reverse.foldl (Path.step rooted) [] = reversed := by
  obtain ⟨names, ups, rfl, hnames, hups⟩ := h
  rw [List.foldl_reverse]
  induction names with
  | nil =>
    rw [List.nil_append]
    induction ups with
    | zero => rfl
    | succ ups ih =>
      have hrelative : rooted = false := Bool.eq_false_iff.2 fun h => Nat.succ_ne_zero ups (hups h)
      have hbelow := ih fun h => absurd (hups h) (Nat.succ_ne_zero ups)
      rw [List.replicate_succ, List.foldr_cons, hbelow, hrelative]
      cases ups <;> rfl
  | cons name names ih =>
    obtain ⟨hname, hnames⟩ := List.forall_mem_cons.1 hnames
    rw [List.cons_append, List.foldr_cons, ih hnames]
    exact if_neg hname.2.2.1

/-! ## Components -/

/-- A component as it is written: `..` or a name. -/
theorem mem_components_ofText (hc : c ∈ (ofText s).components) : c = ".." ∨ IsName c := by
  obtain ⟨hsplit, hkeep⟩ := List.mem_filter.1 hc
  obtain ⟨cs, hcs, rfl⟩ := List.mem_map.1 hsplit
  obtain ⟨hempty, hpoint⟩ : _ ∧ _ := of_decide_eq_true hkeep
  by_cases hup : String.ofList cs = ".."
  · exact .inl hup
  · refine .inr ⟨hempty, hpoint, hup, ?_⟩
    rw [String.toList_ofList]
    exact Text.sep_notMem_of_mem_splitOn hcs

theorem stack_ofText (s : String) : Stack (ofText s).rooted ((ofText s).components.foldl (step (ofText s).rooted) []) :=
  (stack_nil _).foldl fun _ => mem_components_ofText

/-- A normal path stands for the path that it was made of, wherever components follow. -/
theorem normalize_join {p q : Path} (h : Stack p.rooted (p.components.foldl (step p.rooted) [])) :
    (p.normalize.join q).normalize = (p.join q).normalize := by
  unfold join
  split
  · rfl
  · unfold normalize
    dsimp only
    rw [List.foldl_append, List.foldl_append, h.foldl_reverse]

theorem normalize_normalize {p : Path} (h : Stack p.rooted (p.components.foldl (step p.rooted) [])) :
    p.normalize.normalize = p.normalize := by
  unfold normalize
  dsimp only
  rw [h.foldl_reverse]

/-! ## Texts -/

theorem ofText_eq {rooted : Bool} (hrooted : isRooted s = rooted) (hcomponents : (ofText s).components = components) :
    ofText s = ⟨rooted, components⟩ := by
  rw [← hrooted, ← hcomponents]
  rfl

theorem isRooted_append (hp : p ≠ "") (q : String) : isRooted (p ++ q) = isRooted p := by
  obtain ⟨c, cs, hc⟩ := List.exists_cons_of_ne_nil (mt String.toList_eq_nil_iff.1 hp)
  rw [isRooted, isRooted, String.toList_append, hc]
  rfl

/-- The components of texts on both sides of a separator follow one another. -/
theorem components_append (p q : String) :
    (ofText (p ++ "/" ++ q)).components = (ofText p).components ++ (ofText q).components := by
  unfold ofText
  rw [Text.split_append rfl, List.filter_append]

/-- A relative path that is written after another is seen from it. -/
theorem ofText_beneath (p : String) (hq : isRooted q = false) : ofText (beneath p q) = (ofText p).join (ofText q) := by
  have hjoin : ∀ {t : String}, isRooted t = isRooted p →
      (ofText t).components = (ofText p).components ++ (ofText q).components → ofText t = (ofText p).join (ofText q) := by
    intro t hrooted hcomponents
    have hrelative : ¬(ofText q).rooted = true := Bool.eq_false_iff.1 hq
    rw [join, if_neg hrelative]
    exact ofText_eq hrooted hcomponents
  unfold beneath
  split
  · next hp =>
    subst hp
    exact hjoin hq rfl
  · next hp =>
    split
    · next hlast =>
      apply hjoin (isRooted_append hp q)
      obtain ⟨front, hfront⟩ := List.getLast?_eq_some_iff.1 hlast
      obtain rfl : p = String.ofList front ++ "/" := String.toList_inj.1 (by simpa using hfront)
      have hended := components_append (String.ofList front) ""
      rw [String.append_empty] at hended
      rw [components_append, hended]
      simp [ofText, Text.split, Text.splitOn]
    · apply hjoin
      · rw [String.append_assoc, isRooted_append hp]
      · exact components_append p q

theorem isRooted_intercalate {c : String} (hempty : c ≠ "") (hc : '/' ∉ c.toList) (cs : List String) :
    isRooted (String.intercalate "/" (c :: cs)) = false := by
  have hfirst : isRooted c = false := by
    refine beq_eq_false_iff_ne.2 fun h => hc ?_
    exact List.mem_of_head? h
  cases cs with
  | nil => rwa [String.intercalate_singleton]
  | cons d cs => rwa [String.intercalate_cons_cons, String.append_assoc, isRooted_append hempty]

/-- Components are written such that they are read back. -/
theorem ofText_toText {p : Path} (h : ∀ c ∈ p.components, c = ".." ∨ IsName c) : ofText p.toText = p := by
  have hwritten : ∀ c ∈ p.components, (c ≠ "" ∧ c ≠ ".") ∧ '/' ∉ c.toList := by
    intro c hc
    rcases h c hc with rfl | ⟨hempty, hpoint, -, hslash⟩
    · decide
    · exact ⟨⟨hempty, hpoint⟩, hslash⟩
  have hkeep : p.components.filter (fun c => c ≠ "" ∧ c ≠ ".") = p.components :=
    List.filter_eq_self.2 fun c hc => decide_eq_true (hwritten c hc).1
  have hsplit : p.components ≠ [] → (ofText (String.intercalate "/" p.components)).components = p.components := by
    intro hne
    rw [ofText]
    dsimp only
    rw [Text.split_intercalate rfl hne fun c hc => (hwritten c hc).2, hkeep]
  obtain ⟨rooted, components⟩ := p
  dsimp only at hwritten hsplit
  unfold toText
  dsimp only
  split
  · next hrooted =>
    have hroot : "/" ++ String.intercalate "/" components = "" ++ "/" ++ String.intercalate "/" components := rfl
    have hcomponents : (ofText ("/" ++ String.intercalate "/" components)).components = components := by
      rw [hroot, components_append]
      cases components with
      | nil => rfl
      | cons c cs => exact hsplit nofun
    rw [hrooted]
    exact ofText_eq (isRooted_append (by decide) _) hcomponents
  · next hrelative =>
    rw [Bool.eq_false_iff.2 hrelative]
    split
    · next hnone =>
      rw [hnone]
      rfl
    · next hne =>
      refine ofText_eq ?_ (hsplit hne)
      cases components with
      | nil => exact absurd rfl hne
      | cons c cs =>
        obtain ⟨⟨hempty, -⟩, hslash⟩ := hwritten c List.mem_cons_self
        exact isRooted_intercalate hempty hslash cs

/-! ## Normal texts -/

theorem Stack.of_mem_reverse (h : Stack rooted reversed) : ∀ c ∈ reversed.reverse, c = ".." ∨ IsName c := by
  obtain ⟨names, ups, rfl, hnames, -⟩ := h
  intro c hc
  rcases List.mem_append.1 (List.mem_reverse.1 hc) with hc | hc
  · exact .inr (hnames c hc)
  · exact .inl (List.eq_of_mem_replicate hc)

/-- What is written for a normal path is read as that path. -/
theorem ofText_normalText (s : String) : ofText (normalText s) = (ofText s).normalize :=
  ofText_toText (stack_ofText s).of_mem_reverse

/-- A stack is written in normal form. -/
theorem Stack.canonical (h : Stack rooted reversed) : Canonical rooted (toText ⟨rooted, reversed.reverse⟩) := by
  obtain ⟨names, ups, rfl, hnames, hups⟩ := h
  have hreverse : (names ++ List.replicate ups "..").reverse = List.replicate ups ".." ++ names.reverse := by simp
  have hnames' : ∀ c ∈ names.reverse, IsName c := fun c hc => hnames c (List.mem_reverse.1 hc)
  rw [hreverse]
  cases rooted with
  | true =>
    rw [hups rfl]
    exact .rooted hnames'
  | false =>
    unfold toText
    dsimp only
    rw [if_neg nofun]
    split
    · exact .here
    · next hne => exact .relative hne hnames'

/-- A path that does not start with `~` is resolved as it is written, after the base if it is relative. -/
theorem resolvePath_eq {home base raw : String} (hraw : raw.toList.head? ≠ some '~') :
    resolvePath home base raw = normalText (if isRooted raw then raw else beneath base raw) := by
  have hread : (if base = "" then ofText raw else (ofText base).join (ofText raw)) =
      ofText (if isRooted raw then raw else beneath base raw) := by
    cases hrooted : isRooted raw with
    | true =>
      have hjoin : (ofText base).join (ofText raw) = ofText raw := if_pos hrooted
      rw [hjoin, ite_self]
      rfl
    | false =>
      split
      · next hbase =>
        rw [hbase]
        rfl
      · exact (ofText_beneath base hrooted).symm
  unfold resolvePath
  dsimp only
  split
  · next heq => exact absurd (congrArg List.head? heq) hraw
  · rw [hread, normalText]

/-- Resolving a path gives its one normal form. It starts at the root exactly if the path does, and is resolved to itself.
A relative path leads to the same place from the path and from its normal form, as components and as text. -/
theorem normalText_canonical (p : String) :
    Canonical (isRooted p) (normalText p) ∧ isRooted (normalText p) = isRooted p ∧
    normalText (normalText p) = normalText p ∧
    ∀ q, isRooted q = false → normalText (beneath (normalText p) q) = normalText (beneath p q) ∧
      ((ofText (normalText p)).join (ofText q)).normalize = ((ofText p).join (ofText q)).normalize := by
  refine ⟨(stack_ofText p).canonical, ?_, ?_, fun q hq => ?_⟩
  · exact congrArg Path.rooted (ofText_normalText p)
  · rw [normalText, ofText_normalText, normalize_normalize (stack_ofText p)]
    rfl
  · have hjoin := normalize_join (q := ofText q) (stack_ofText p)
    rw [← ofText_normalText] at hjoin
    refine ⟨congrArg toText ?_, hjoin⟩
    rw [ofText_beneath _ hq, ofText_beneath _ hq, hjoin]

theorem normalText_canonical_relative :
    isRooted "./c//../../d" = false ∧ normalText (beneath "/a/../../b/." "./c//../../d") = "/d" ∧
    normalText (beneath (normalText "/a/../../b/.") "./c//../../d") = "/d" := by
  obtain ⟨-, -, -, hbeneath⟩ := normalText_canonical "/a/../../b/."
  have hrelative : isRooted "./c//../../d" = false := by decide
  have hnormal : normalText (beneath "/a/../../b/." "./c//../../d") = "/d" := by decide +kernel
  exact ⟨hrelative, hnormal, (hbeneath _ hrelative).1.trans hnormal⟩

end ScopeActions.Path
