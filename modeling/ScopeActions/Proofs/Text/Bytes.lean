import Mathlib.Data.List.Basic
/-!
# Texts as bytes

Texts are ordered by their code points, which is the order of their bytes in UTF-8 (`Text.bytes_lt`).
-/

namespace ScopeActions.Text

/-- The bytes of a text in UTF-8. -/
def bytes (s : String) : List UInt8 :=
  s.toUTF8.data.toList

theorem bytes_eq (s : String) : bytes s = s.toList.flatMap String.utf8EncodeChar := by
  have hencode : s.toUTF8 = s.toList.utf8Encode := by
    rw [String.toUTF8_eq_toByteArray, ← String.toByteArray_ofList, String.ofList_toList]
  rw [bytes, hencode, List.utf8Encode, List.data_toByteArray]

theorem bytes_append (s t : String) : bytes (s ++ t) = bytes s ++ bytes t := by
  rw [bytes_eq, bytes_eq, bytes_eq, String.toList_append, List.flatMap_append]

theorem toList_loop (b : ByteArray) (i : Nat) (acc : List UInt8) :
    ByteArray.toList.loop b i acc = acc.reverse ++ b.data.toList.drop i := by
  fun_induction ByteArray.toList.loop b i acc with
  | case1 i acc h ih =>
    have hi : i < b.data.toList.length := by simpa using h
    rw [ih, List.drop_eq_getElem_cons hi]
    simp [ByteArray.get!, h]
  | case2 i acc h =>
    have hi : b.data.toList.length ≤ i := by simpa using h
    rw [List.drop_eq_nil_of_le hi, List.append_nil]

theorem toList_toUTF8 (s : String) : s.toUTF8.toList = bytes s := by
  rw [ByteArray.toList, toList_loop]
  rfl

/-- The bytes of a text are read as the text. -/
theorem fromUTF8?_bytes (s : String) : String.fromUTF8? ⟨(bytes s).toArray⟩ = some s := by
  have harray : (⟨(bytes s).toArray⟩ : ByteArray) = s.toUTF8 := by simp [bytes]
  have hvalid : s.toUTF8.IsValidUTF8 := s.isValidUTF8
  rw [harray, String.fromUTF8?, dif_pos hvalid]
  rfl

/-! ## Numbers as bytes -/

/-- Below the bound, the bytes of a number come before those of each greater one, whatever follows either. -/
def Ascends (encode : Nat → List UInt8) (bound : Nat) : Prop :=
  ∀ v w, v < w → w < bound → ∀ s t, encode v ++ s < encode w ++ t

theorem cons_ofNat_lt {v w : Nat} (h : v < w) (hw : w < 256) (s t : List UInt8) :
    UInt8.ofNat v :: s < UInt8.ofNat w :: t := by
  apply List.cons_lt_cons_iff.2
  left
  rw [UInt8.lt_iff_toNat_lt, UInt8.toNat_ofNat', UInt8.toNat_ofNat']
  omega

theorem Ascends.mono {encode : Nat → List UInt8} {bound bound' : Nat} (h : Ascends encode bound) (hle : bound' ≤ bound) :
    Ascends encode bound' :=
  fun v w hvw hw => h v w hvw (Nat.lt_of_lt_of_le hw hle)

/-- The byte in front carries a mark. -/
theorem ascends_lead (bound mark : Nat) (h : bound + mark ≤ 256) :
    Ascends (fun v => [UInt8.ofNat (v % bound + mark)]) bound := by
  intro v w hvw hw s t
  dsimp only
  rw [Nat.mod_eq_of_lt hw, Nat.mod_eq_of_lt (Nat.lt_trans hvw hw)]
  exact cons_ofNat_lt (by omega) (by omega) s t

/-- One more byte carries six more bits. -/
theorem Ascends.snoc {encode : Nat → List UInt8} {bound : Nat} (h : Ascends encode bound) :
    Ascends (fun v => encode (v / 64) ++ [UInt8.ofNat (v % 64 + 128)]) (bound * 64) := by
  intro v w hvw hw s t
  dsimp only
  rw [List.append_assoc, List.append_assoc]
  have hw : w / 64 < bound := by omega
  rcases Nat.lt_or_ge (v / 64) (w / 64) with hlt | hge
  · exact h _ _ hlt hw _ _
  · have hsame : v / 64 = w / 64 := by omega
    rw [hsame]
    exact List.append_left_lt (cons_ofNat_lt (by omega) (by omega) s t)

/-- Small numbers have one encoding and the greater ones another, all of whose bytes come later. -/
theorem Ascends.join {encode encode' : Nat → List UInt8} {small bound : Nat} (h : Ascends encode small)
    (h' : Ascends encode' bound)
    (hlater : ∀ v w, v < small → small ≤ w → w < bound → ∀ s t, encode v ++ s < encode' w ++ t) :
    Ascends (fun v => if v < small then encode v else encode' v) bound := by
  intro v w hvw hw s t
  dsimp only
  by_cases hsmall : w < small
  · rw [if_pos hsmall, if_pos (Nat.lt_trans hvw hsmall)]
    exact h v w hvw hsmall s t
  · rw [if_neg hsmall]
    split
    · next hv => exact hlater v w hv (Nat.le_of_not_lt hsmall) hw s t
    · exact h' v w hvw hw s t

/-- The bytes of a code point. -/
def octets (v : Nat) : List UInt8 :=
  if v < 128 then [UInt8.ofNat v]
  else if v < 2048 then [UInt8.ofNat (v / 64 % 32 + 192), UInt8.ofNat (v % 64 + 128)]
  else if v < 65536 then
    [UInt8.ofNat (v / 64 / 64 % 16 + 224), UInt8.ofNat (v / 64 % 64 + 128), UInt8.ofNat (v % 64 + 128)]
  else
    [UInt8.ofNat (v / 64 / 64 / 64 % 8 + 240), UInt8.ofNat (v / 64 / 64 % 64 + 128), UInt8.ofNat (v / 64 % 64 + 128),
      UInt8.ofNat (v % 64 + 128)]

theorem ascends_octets : Ascends octets 1114112 := by
  have hone : Ascends (fun v => [UInt8.ofNat v]) 128 := fun v w hvw hw s t => cons_ofNat_lt hvw (by omega) s t
  have htwo : Ascends _ (32 * 64) := (ascends_lead 32 192 (by omega)).snoc
  have hthree : Ascends _ (16 * 64 * 64) := (ascends_lead 16 224 (by omega)).snoc.snoc
  have hfour : Ascends _ (8 * 64 * 64 * 64) := (ascends_lead 8 240 (by omega)).snoc.snoc.snoc
  have hlast : Ascends _ 1114112 := hfour.mono (by omega)
  have hlong := hthree.join hlast fun v w hv hw hbound s t =>
    cons_ofNat_lt (by omega) (by omega) _ _
  have hmore := htwo.join hlong fun v w hv hw hbound s t => by
    split <;> exact cons_ofNat_lt (by omega) (by omega) _ _
  have hall := hone.join hmore fun v w hv hw hbound s t => by
    split
    · exact cons_ofNat_lt (by omega) (by omega) _ _
    · split <;> exact cons_ofNat_lt (by omega) (by omega) _ _
  exact hall

theorem utf8EncodeChar_eq (c : Char) : String.utf8EncodeChar c = octets c.toNat := by
  unfold String.utf8EncodeChar octets
  simp only [Nat.div_div_eq_div_mul, Nat.lt_succ_iff]
  rfl

/-- Only ASCII characters have bytes in the ASCII range. -/
theorem le_of_mem_octets {v : Nat} (hv : 128 ≤ v) {b : UInt8} (hb : b ∈ octets v) : 128 ≤ b.toNat := by
  rw [octets, if_neg (Nat.not_lt.2 hv)] at hb
  split at hb
  · simp only [List.mem_cons, List.not_mem_nil, or_false] at hb
    rcases hb with rfl | rfl
    all_goals
      rw [UInt8.toNat_ofNat']
      omega
  · split at hb
    all_goals
      simp only [List.mem_cons, List.not_mem_nil, or_false] at hb
    · rcases hb with rfl | rfl | rfl
      all_goals
        rw [UInt8.toNat_ofNat']
        omega
    · rcases hb with rfl | rfl | rfl | rfl
      all_goals
        rw [UInt8.toNat_ofNat']
        omega

/-- An ASCII character has one byte, which no other character has. -/
theorem mem_utf8EncodeChar {a c : Char} (ha : a.toNat < 128) :
    UInt8.ofNat a.toNat ∈ String.utf8EncodeChar c ↔ c = a := by
  have hbyte : ∀ v, v < 128 → (UInt8.ofNat v).toNat = v := by
    intro v hv
    rw [UInt8.toNat_ofNat']
    omega
  rw [utf8EncodeChar_eq]
  constructor
  · intro hmem
    have hc : c.toNat < 128 := by
      refine Nat.lt_of_not_le fun hge => ?_
      have hle := le_of_mem_octets hge hmem
      rw [hbyte _ ha] at hle
      omega
    rw [octets, if_pos hc, List.mem_singleton] at hmem
    have hnat := congrArg UInt8.toNat hmem
    rw [hbyte _ ha, hbyte _ hc] at hnat
    exact (Char.toNat_inj.1 hnat).symm
  · rintro rfl
    rw [octets, if_pos ha]
    exact List.mem_singleton_self _

theorem utf8EncodeChar_lt {c d : Char} (h : c < d) (s t : List UInt8) :
    String.utf8EncodeChar c ++ s < String.utf8EncodeChar d ++ t := by
  have hd : d.toNat < 1114112 := by
    have hvalid : d.val.toNat.isValidChar := d.valid
    unfold Nat.isValidChar at hvalid
    change d.val.toNat < 1114112
    omega
  rw [utf8EncodeChar_eq, utf8EncodeChar_eq]
  exact ascends_octets _ _ h hd s t

/-! ## Texts -/

theorem mem_bytes {a : Char} (ha : a.toNat < 128) {s : String} : UInt8.ofNat a.toNat ∈ bytes s ↔ a ∈ s.toList := by
  rw [bytes_eq, List.mem_flatMap]
  constructor
  · rintro ⟨c, hc, hmem⟩
    rwa [(mem_utf8EncodeChar ha).1 hmem] at hc
  · exact fun hmem => ⟨a, hmem, (mem_utf8EncodeChar ha).2 rfl⟩

theorem bytes_lt_of_toList_lt {cs ds : List Char} (h : cs < ds) :
    cs.flatMap String.utf8EncodeChar < ds.flatMap String.utf8EncodeChar := by
  induction cs generalizing ds with
  | nil =>
    cases ds with
    | nil => cases h
    | cons d ds =>
      have hne : (d :: ds).flatMap String.utf8EncodeChar ≠ [] := by simp
      obtain ⟨b, bs, hb⟩ := List.exists_cons_of_ne_nil hne
      rw [hb]
      exact List.Lex.nil
  | cons c cs ih =>
    cases ds with
    | nil => cases h
    | cons d ds =>
      rw [List.flatMap_cons, List.flatMap_cons]
      rcases List.cons_lt_cons_iff.1 h with hlt | ⟨rfl, hrest⟩
      · exact utf8EncodeChar_lt hlt _ _
      · exact List.append_left_lt (ih hrest)

/-- Texts are ordered as their bytes. -/
theorem bytes_lt {s t : String} (h : s < t) : bytes s < bytes t := by
  rw [bytes_eq, bytes_eq]
  exact bytes_lt_of_toList_lt h

end ScopeActions.Text
