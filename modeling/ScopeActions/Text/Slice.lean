/-!
# Cutting text at byte offsets

Offsets count the bytes of the UTF-8 form. A cut is possible only between two characters.
-/

namespace ScopeActions.Text

/-- Number of bytes of the characters in UTF-8. -/
def byteLength : List Char → Nat
  | [] => 0
  | c :: cs => c.utf8Size + byteLength cs

/-- The two parts of a text on both sides of byte offset `n`, if a character starts there or the text
ends there. -/
def cutAt : Nat → List Char → Option (List Char × List Char)
  | 0, cs => some ([], cs)
  | _ + 1, [] => none
  | n + 1, c :: cs =>
    if c.utf8Size ≤ n + 1 then (cutAt (n + 1 - c.utf8Size) cs).map fun p => (c :: p.1, p.2) else none

/-- The characters between two byte offsets, if both lie between characters. -/
def slice (start stop : Nat) (cs : List Char) : Option (List Char) :=
  match cutAt start cs with
  | none => none
  | some (_, rest) => (cutAt (stop - start) rest).map (·.1)

/-- A cut loses nothing, and its first part has `n` bytes. -/
theorem append_of_cutAt {n : Nat} {cs a b : List Char} (h : cutAt n cs = some (a, b)) :
    a ++ b = cs ∧ byteLength a = n := by
  fun_induction cutAt n cs generalizing a b with
  | case1 cs => simp_all [byteLength]
  | case2 => simp at h
  | case3 n c cs hle ih =>
    obtain ⟨⟨a', b'⟩, h', heq⟩ := Option.map_eq_some_iff.1 h
    simp only [Prod.mk.injEq] at heq
    obtain ⟨hab, hlen⟩ := ih h'
    obtain ⟨rfl, rfl⟩ := heq
    simp only [List.cons_append, hab, byteLength, hlen, true_and]
    omega
  | case4 => simp at h

end ScopeActions.Text
