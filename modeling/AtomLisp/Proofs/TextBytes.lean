import Mathlib.Data.String.Basic

/-!
# The bytes of a text

A text is a sequence of characters, and a place in it is counted in bytes. The bytes between two
places are those of a text only if the two places are at the ends of characters, because the first
byte of a character differs from all that come after it in one (`extract_toByteArray_eq_iff`). The
order of texts by their characters is that by their bytes (`lt_iff_bytes_lt`).
-/

namespace AtomLisp.Text

open String (utf8EncodeChar)

/-! ### Parts of a text -/

/-- Bytes from the beginning of the second part on are those of this part. -/
theorem extract_append (before rest : String) (n : Nat) :
    (before ++ rest).toByteArray.extract before.utf8ByteSize (before.utf8ByteSize + n) =
      rest.toByteArray.extract 0 n := by
  have hsize : before.utf8ByteSize = before.toByteArray.size := String.size_toByteArray.symm
  have h := ByteArray.extract_append_size_add' (b := rest.toByteArray) (i := 0) (j := n) hsize
  rwa [Nat.add_zero, ← String.toByteArray_append] at h

/-- Bytes that are those of a text begin where a character does. -/
theorem isValid_of_extract_eq {text part : String} {start stop : Nat} (hlt : start < stop)
    (hstop : stop ≤ text.utf8ByteSize)
    (h : text.toByteArray.extract start stop = part.toByteArray) :
    String.Pos.Raw.IsValid text ⟨start⟩ := by
  have hsize : text.toByteArray.size = text.utf8ByteSize := String.size_toByteArray
  have hpos : 0 < (text.toByteArray.extract start stop).size := by
    rw [ByteArray.size_extract]
    omega
  have hvalid : (text.toByteArray.extract start stop).IsValidUTF8 := h ▸ part.isValidUTF8
  have hbyte := hvalid.isUTF8FirstByte_getElem_zero hpos
  rw [ByteArray.getElem_extract] at hbyte
  have hstart : (⟨start⟩ : String.Pos.Raw) < text.rawEndPos :=
    String.Pos.Raw.lt_iff.2 (show start < text.utf8ByteSize by omega)
  exact String.Pos.Raw.isValid_iff_isUTF8FirstByte.2 (.inr ⟨hstart, hbyte⟩)

/-- A text whose first bytes are those of another one begins with it. -/
theorem exists_append_of_extract_zero_eq {text part : String} {n : Nat}
    (h : text.toByteArray.extract 0 n = part.toByteArray) : ∃ after, text = part ++ after := by
  have hbytes : part.toByteArray ++ text.toByteArray.extract n text.toByteArray.size =
      text.toByteArray := by
    rw [← h, ByteArray.extract_append_extract, Nat.zero_min, ByteArray.extract_zero_max_size]
  have hinit : part.toList <+: text.toList := by
    refine List.isPrefix_of_utf8Encode_append_eq_utf8Encode
      (text.toByteArray.extract n text.toByteArray.size) ?_
    rwa [String.utf8Encode_toList, String.utf8Encode_toList]
  obtain ⟨after, hafter⟩ := hinit
  refine ⟨String.ofList after, String.toList_inj.1 ?_⟩
  rw [String.toList_append, String.toList_ofList, hafter]

/-- Bytes in the middle of a text are those of some other text just when this is a part of it that
stands there. -/
theorem extract_toByteArray_eq_iff {text part : String} {start stop : Nat} (hlt : start < stop)
    (hstop : stop ≤ text.utf8ByteSize) :
    text.toByteArray.extract start stop = part.toByteArray ↔
      ∃ before after, text = before ++ part ++ after ∧ before.utf8ByteSize = start ∧
        start + part.utf8ByteSize = stop := by
  constructor
  · intro h
    have hsize : part.utf8ByteSize = stop - start := by
      rw [← String.size_toByteArray, ← h, ByteArray.size_extract, String.size_toByteArray]
      omega
    obtain ⟨before, rest, rfl, hbefore⟩ :=
      String.Pos.Raw.isValid_iff_exists_append.1 (isValid_of_extract_eq hlt hstop h)
    obtain rfl : start = before.utf8ByteSize := congrArg String.Pos.Raw.byteIdx hbefore
    obtain ⟨n, rfl⟩ := Nat.exists_eq_add_of_le hlt.le
    rw [extract_append] at h
    obtain ⟨after, rfl⟩ := exists_append_of_extract_zero_eq h
    exact ⟨before, after, String.append_assoc.symm, rfl, by omega⟩
  · rintro ⟨before, after, rfl, rfl, rfl⟩
    rw [String.append_assoc, extract_append, String.toByteArray_append]
    exact ByteArray.extract_append_eq_left String.size_toByteArray.symm

/-! ### The order of texts -/

/-- The bytes of a text. Lists of them are in lexicographic order. -/
def bytes (text : String) : List UInt8 :=
  text.toByteArray.data.toList

/-- The bytes of a text are those of its characters. -/
theorem bytes_eq_flatMap (text : String) : bytes text = text.toList.flatMap utf8EncodeChar := by
  rw [bytes, ← String.utf8Encode_toList, List.utf8Encode, List.data_toByteArray]

/-- The greater one of two characters has the greater bytes, whatever comes after them. -/
theorem utf8EncodeChar_append_lt {c d : Char} (h : c < d) (xs ys : List UInt8) :
    utf8EncodeChar c ++ xs < utf8EncodeChar d ++ ys := by
  have hcode : c.val.toNat < d.val.toNat := h
  have hmax : d.val.toNat < 0x110000 := by
    rcases d.valid with h | h
    · exact Nat.lt_trans h (by decide)
    · exact h.2
  have hlt : ∀ m n, m < 256 → n < 256 → (UInt8.ofNat m < UInt8.ofNat n ↔ m < n) := by
    intro m n hm hn
    rw [UInt8.lt_iff_toNat_lt, UInt8.toNat_ofNat_of_lt' hm, UInt8.toNat_ofNat_of_lt' hn]
  have heq : ∀ m n, m < 256 → n < 256 → (UInt8.ofNat m = UInt8.ofNat n ↔ m = n) := by
    intro m n hm hn
    rw [← UInt8.toNat_inj, UInt8.toNat_ofNat_of_lt' hm, UInt8.toNat_ofNat_of_lt' hn]
  generalize hv : c.val.toNat = v at hcode
  generalize hw : d.val.toNat = w at hcode hmax
  simp only [utf8EncodeChar, hv, hw]
  -- the bytes hold the digits to the base 64, the highest one first
  have hdigit : ∀ m n : Nat, m < n →
      m / 64 < n / 64 ∨ m / 64 = n / 64 ∧ m % 64 < n % 64 := by omega
  have h₁ := hdigit v w hcode
  have h₂ := hdigit (v / 64) (w / 64)
  have h₃ := hdigit (v / 4096) (w / 4096)
  have hpow : ∀ m < 0x110000, m / 4096 = m / 64 / 64 ∧ m / 262144 % 8 = m / 4096 / 64 := by
    omega
  obtain ⟨hv₂, hv₃⟩ := hpow v (by omega)
  obtain ⟨hw₂, hw₃⟩ := hpow w hmax
  split_ifs <;>
    simp (disch := omega) only [List.cons_append, List.nil_append, List.cons_lt_cons_iff, hlt,
      heq] <;>
    omega

/-- Characters in order have their bytes in order. -/
theorem flatMap_utf8EncodeChar_lt {cs ds : List Char} (h : cs < ds) :
    cs.flatMap utf8EncodeChar < ds.flatMap utf8EncodeChar := by
  induction h with
  | @nil d ds =>
    obtain ⟨b, bs, hb⟩ := List.exists_cons_of_ne_nil (String.utf8EncodeChar_ne_nil (c := d))
    rw [List.flatMap_nil, List.flatMap_cons, hb]
    exact List.nil_lt_cons _ _
  | rel h => exact utf8EncodeChar_append_lt h _ _
  | cons _ ih => exact List.append_left_lt ih

/-- Texts are in the order of their bytes. -/
theorem lt_iff_bytes_lt {a b : String} : a < b ↔ bytes a < bytes b := by
  have hmono : ∀ {a b : String}, a < b → bytes a < bytes b := fun {a b} h => by
    rw [bytes_eq_flatMap, bytes_eq_flatMap]
    exact flatMap_utf8EncodeChar_lt (String.lt_iff_toList_lt.1 h)
  refine ⟨hmono, fun h => ?_⟩
  rcases lt_trichotomy a b with hlt | rfl | hgt
  · exact hlt
  · exact absurd h (List.lt_irrefl _)
  · exact absurd h (List.lt_asymm (hmono hgt))

end AtomLisp.Text
