import Mathlib.Data.List.Infix
import ScopeActions.Proofs.Text.Bytes
import ScopeActions.Text.Slice
/-!
# Cuts

A text can be cut where one of its characters starts and at its end (`Text.exists_cutAt_iff`). Between two cuts stand the
bytes from one offset to the other (`Text.bytes_of_slice`).
-/

namespace ScopeActions.Text

variable {n start stop : Nat} {as bs as' bs' cs piece : List Char} {s : String}

theorem byteLength_append (as bs : List Char) : byteLength (as ++ bs) = byteLength as + byteLength bs := by
  induction as with
  | nil => exact (Nat.zero_add _).symm
  | cons c as ih => rw [List.cons_append, byteLength, byteLength, ih, Nat.add_assoc]

theorem byteLength_eq_zero (h : byteLength cs = 0) : cs = [] := by
  cases cs with
  | nil => rfl
  | cons c cs =>
    have hpos := c.utf8Size_pos
    rw [byteLength] at h
    omega

theorem length_bytes (s : String) : (bytes s).length = byteLength s.toList := by
  rw [bytes_eq]
  induction s.toList with
  | nil => rfl
  | cons c cs ih => rw [List.flatMap_cons, List.length_append, String.length_utf8EncodeChar, ih, byteLength]

theorem utf8ByteSize_eq (s : String) : s.utf8ByteSize = byteLength s.toList := by
  rw [← length_bytes]
  rfl

/-! ## One cut -/

theorem cutAt_append (as bs : List Char) : cutAt (byteLength as) (as ++ bs) = some (as, bs) := by
  induction as with
  | nil => rw [byteLength, List.nil_append, cutAt]
  | cons c as ih =>
    obtain ⟨n, hn⟩ : ∃ n, c.utf8Size + byteLength as = n + 1 :=
      Nat.exists_eq_add_one.2 (Nat.add_pos_left c.utf8Size_pos _)
    rw [byteLength, List.cons_append, hn, cutAt, if_pos (by omega), ← hn, Nat.add_sub_cancel_left, ih]
    rfl

theorem exists_cutAt_iff : (∃ p, cutAt n s.toList = some p) ↔ String.Pos.Raw.IsValid s ⟨n⟩ := by
  rw [String.Pos.Raw.isValid_iff_exists_append]
  constructor
  · rintro ⟨⟨as, bs⟩, h⟩
    obtain ⟨hs, rfl⟩ := append_of_cutAt h
    refine ⟨String.ofList as, String.ofList bs, ?_, ?_⟩
    · rw [← String.ofList_append, hs, String.ofList_toList]
    · rw [String.rawEndPos, utf8ByteSize_eq, String.toList_ofList]
  · rintro ⟨p, q, rfl, hn⟩
    obtain rfl : n = byteLength p.toList := by
      rw [← utf8ByteSize_eq]
      exact congrArg String.Pos.Raw.byteIdx hn
    exact ⟨_, String.toList_append ▸ cutAt_append p.toList q.toList⟩

/-! ## Two cuts -/

/-- What stands between two cuts of a text. -/
theorem exists_between (h : as ++ bs = as' ++ bs') (hle : byteLength as ≤ byteLength as') :
    ∃ piece, as' = as ++ piece ∧ bs = piece ++ bs' := by
  rcases List.append_eq_append_iff.1 h with ⟨piece, hlater, hrest⟩ | ⟨piece, rfl, rfl⟩
  · exact ⟨piece, hlater, hrest⟩
  · rw [byteLength_append] at hle
    obtain rfl := byteLength_eq_zero (Nat.eq_zero_of_le_zero (Nat.le_of_add_le_add_left hle))
    exact ⟨[], by simp, rfl⟩

theorem slice_append (as piece bs : List Char) :
    slice (byteLength as) (byteLength (as ++ piece)) (as ++ (piece ++ bs)) = some piece := by
  rw [slice, cutAt_append]
  dsimp only
  rw [byteLength_append, Nat.add_sub_cancel_left, cutAt_append]
  rfl

theorem exists_of_slice (h : slice start stop cs = some piece) (hle : start ≤ stop) :
    ∃ as bs, cs = as ++ (piece ++ bs) ∧ byteLength as = start ∧ byteLength (as ++ piece) = stop := by
  unfold slice at h
  split at h
  · cases h
  · next as rest hstart =>
    obtain ⟨⟨_, bs⟩, hstop, rfl⟩ := Option.map_eq_some_iff.1 h
    obtain ⟨rfl, rfl⟩ := append_of_cutAt hstart
    obtain ⟨rfl, hlength⟩ := append_of_cutAt hstop
    refine ⟨as, bs, rfl, rfl, ?_⟩
    rw [byteLength_append, hlength]
    omega

/-- There is something between two offsets if the text can be cut at both. -/
theorem exists_slice_iff (hle : start ≤ stop) : (∃ piece, slice start stop s.toList = some piece) ↔
    String.Pos.Raw.IsValid s ⟨start⟩ ∧ String.Pos.Raw.IsValid s ⟨stop⟩ := by
  rw [← exists_cutAt_iff, ← exists_cutAt_iff]
  constructor
  · rintro ⟨piece, h⟩
    obtain ⟨as, bs, hs, rfl, rfl⟩ := exists_of_slice h hle
    rw [hs]
    exact ⟨⟨_, cutAt_append as _⟩, _, List.append_assoc as piece bs ▸ cutAt_append (as ++ piece) bs⟩
  · rintro ⟨⟨⟨as, bs⟩, hstart⟩, ⟨as', bs'⟩, hstop⟩
    obtain ⟨hs, rfl⟩ := append_of_cutAt hstart
    obtain ⟨hs', rfl⟩ := append_of_cutAt hstop
    obtain ⟨piece, rfl, rfl⟩ := exists_between (hs.trans hs'.symm) hle
    exact ⟨piece, hs ▸ slice_append as piece bs'⟩

/-- What stands between two offsets has the bytes between them. -/
theorem bytes_of_slice (h : slice start stop s.toList = some piece) (hle : start ≤ stop) :
    bytes (String.ofList piece) = ((bytes s).take stop).drop start := by
  obtain ⟨as, bs, hs, rfl, rfl⟩ := exists_of_slice h hle
  have hbytes : bytes s = bytes (String.ofList as) ++ bytes (String.ofList piece) ++ bytes (String.ofList bs) := by
    rw [← bytes_append, ← bytes_append, ← String.ofList_append, ← String.ofList_append, List.append_assoc, ← hs,
      String.ofList_toList]
  have hstart : byteLength as = (bytes (String.ofList as)).length := by rw [length_bytes, String.toList_ofList]
  have hstop : byteLength (as ++ piece) = (bytes (String.ofList as) ++ bytes (String.ofList piece)).length := by
    rw [← bytes_append, ← String.ofList_append, length_bytes, String.toList_ofList]
  rw [hbytes, hstop, List.take_left, hstart, List.drop_left]

end ScopeActions.Text
