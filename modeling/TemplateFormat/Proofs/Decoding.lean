import TemplateFormat.Proofs.Blanks
import TemplateFormat.Proofs.Offsets

/-!
# Texts that are read as they were written

The bytes of a text need not be read as the text again: a stray byte may start a character
together with what was put behind it.  The texts that are read from bytes are **decoded**: no
stray byte in them starts a character.  Collapsing keeps them so, although it takes glyphs out
from behind a stray byte, since all that it puts in their place is a space, and a space belongs
to no character but itself.

* `utf8DecodeChar?_eq_some_iff` — a character is read where its bytes stand;
* `decoded_decode`, `decode_toBytes` — decoded texts are those that are read from bytes;
* `Decoded.collapse` — collapsing a decoded text.
-/

namespace TemplateFormat.Text

/-- A text in which no stray byte starts a character. -/
def Decoded : Text → Prop
  | [] => True
  | .char _ :: s => Decoded s
  | .stray b :: s => (∀ c, ¬String.utf8EncodeChar c <+: b :: encode s) ∧ Decoded s

/-! ## Reading characters -/

/-- **A character is read** at a place exactly if its bytes stand there. -/
theorem utf8DecodeChar?_eq_some_iff {bytes : ByteArray} {i : Nat} {c : Char} :
    bytes.utf8DecodeChar? i = some c ↔
      String.utf8EncodeChar c <+: bytes.data.toList.drop i := by
  have hall : (bytes.extract i bytes.size).data.toList = bytes.data.toList.drop i := by
    rw [toList_extract]
    refine List.take_of_length_le ?_
    rw [List.length_drop, Array.length_toList]
    exact Nat.le_refl _
  rw [ByteArray.utf8DecodeChar?_eq_utf8DecodeChar?_extract, ← hall]
  constructor
  · intro h
    obtain ⟨rest, hrest⟩ := ByteArray.exists_of_utf8DecodeChar?_eq_some h
    refine ⟨rest.data.toList, ?_⟩
    rw [hrest, ByteArray.data_append, Array.toList_append, List.toList_data_toByteArray]
  · rintro ⟨rest, hrest⟩
    have hbytes : bytes.extract i bytes.size =
        (String.utf8EncodeChar c).toByteArray ++ rest.toByteArray := by
      refine ByteArray.ext (Array.toList_inj.mp ?_)
      rw [← hrest, ByteArray.data_append, Array.toList_append, List.toList_data_toByteArray,
        List.toList_data_toByteArray]
    rw [hbytes]
    exact ByteArray.utf8DecodeChar?_utf8EncodeChar_append

/-- The glyph at a place is the one that was written there. -/
theorem glyphAt_eq {bytes : ByteArray} {i : Nat} (h : i < bytes.size) {r : Glyph} {s : Text}
    (hdecoded : Decoded (r :: s)) (hbytes : bytes.data.toList.drop i = encode (r :: s)) :
    glyphAt bytes i h = r := by
  have hlen : i < bytes.data.toList.length := by simpa using h
  rw [encode_cons] at hbytes
  unfold glyphAt
  cases r with
  | char c =>
      have hread : bytes.utf8DecodeChar? i = some c :=
        utf8DecodeChar?_eq_some_iff.mpr ⟨encode s, hbytes.symm⟩
      rw [hread]
  | stray b =>
      have hread : bytes.utf8DecodeChar? i = none := by
        refine Option.eq_none_iff_forall_ne_some.mpr fun c hc => ?_
        rw [utf8DecodeChar?_eq_some_iff, hbytes] at hc
        exact hdecoded.1 c hc
      rw [List.drop_eq_getElem_cons hlen] at hbytes
      rw [hread]
      exact congrArg Glyph.stray (List.cons.inj hbytes).1

theorem Decoded.tail {r : Glyph} {s : Text} (h : Decoded (r :: s)) : Decoded s := by
  cases r with
  | char c => exact h
  | stray b => exact h.2

/-- The bytes of a decoded text are read as the text, behind what was read before. -/
theorem decodeFrom_eq {bytes : ByteArray} {i : Nat} {s : Text} (h : Decoded s)
    (hbytes : bytes.data.toList.drop i = encode s) (seen : Text) :
    decodeFrom bytes i seen = seen.reverse ++ s := by
  induction s generalizing i seen with
  | nil =>
      have hend : ¬i < bytes.size := by
        have hlen := congrArg List.length hbytes
        rw [List.length_drop, Array.length_toList] at hlen
        exact Nat.not_lt.mpr (Nat.le_of_sub_eq_zero hlen)
      rw [decodeFrom, dif_neg hend, List.append_nil]
  | cons r s ih =>
      have hi : i < bytes.size := by
        have hlen := congrArg List.length hbytes
        rw [length_encode, width_cons, List.length_drop, Array.length_toList] at hlen
        have hpos := width_pos r
        have hleft : 0 < bytes.size - i := Nat.lt_of_lt_of_eq (by omega) hlen.symm
        exact Nat.lt_of_sub_pos hleft
      have hglyph := glyphAt_eq hi h hbytes
      have hrest : bytes.data.toList.drop (i + r.width) = encode s := by
        rw [← List.drop_drop, hbytes, encode_cons, ← length_bytes, List.drop_left]
      rw [decodeFrom, dif_pos hi, hglyph, ih h.tail hrest]
      simp

/-- **A decoded text is read** from its bytes. -/
theorem decode_toBytes {s : Text} (h : Decoded s) : decode s.toBytes = s :=
  decodeFrom_eq h rfl []

/-- What is read from a place on is a decoded text. -/
theorem decoded_decodeFrom (bytes : ByteArray) (i : Nat) (seen : Text) :
    ∃ s, decodeFrom bytes i seen = seen.reverse ++ s ∧ Decoded s := by
  fun_induction decodeFrom bytes i seen with
  | case1 i seen h ih =>
      obtain ⟨s, hread, hdecoded⟩ := ih
      refine ⟨glyphAt bytes i h :: s, by rw [hread]; simp, ?_⟩
      have hrest : encode s = bytes.data.toList.drop (i + (glyphAt bytes i h).width) := by
        have hencode := encode_decodeFrom bytes (i + (glyphAt bytes i h).width)
          (glyphAt bytes i h :: seen)
        rw [hread, encode_append] at hencode
        exact List.append_cancel_left hencode
      have hbytes := bytes_glyphAt bytes i h
      rw [← hrest] at hbytes
      cases hglyph : glyphAt bytes i h with
      | char c => exact hdecoded
      | stray b =>
          refine ⟨fun c hc => ?_, hdecoded⟩
          have hchar : bytes.utf8DecodeChar? i = some c := by
            rw [utf8DecodeChar?_eq_some_iff, hbytes, hglyph]
            exact hc
          simp [glyphAt, hchar] at hglyph
  | case2 i seen h => exact ⟨[], by simp, trivial⟩

/-- **What is read from bytes** is a decoded text. -/
theorem decoded_decode (bytes : ByteArray) : Decoded (decode bytes) := by
  obtain ⟨s, hread, hdecoded⟩ := decoded_decodeFrom bytes 0 []
  rw [decode, hread]
  exact hdecoded

/-- Characters are read as they were written. -/
theorem decoded_of_chars {s : Text} (h : ∀ r ∈ s, ∃ c, r = .char c) : Decoded s := by
  induction s with
  | nil => trivial
  | cons r s ih =>
      obtain ⟨c, rfl⟩ := h r List.mem_cons_self
      exact ih fun a ha => h a (List.mem_cons_of_mem _ ha)

/-! ## Collapsing -/

/-- A space belongs to no character that starts before it. -/
theorem prefix_of_prefix_space {c : Char} {front rest : List UInt8} (hne : front ≠ [])
    (h : String.utf8EncodeChar c <+: front ++ 0x20 :: rest) :
    String.utf8EncodeChar c <+: front := by
  obtain ⟨tail, htail⟩ := h
  rcases List.append_eq_append_iff.mp htail with ⟨more, rfl, -⟩ | ⟨more, hchar, hrest⟩
  · exact List.prefix_append _ _
  · cases more with
    | nil => exact ⟨[], by simp [hchar]⟩
    | cons b more =>
        -- a first byte stands at the start of a character only
        obtain rfl : 0x20 = b := (List.cons.inj hrest).1
        have hlen : front.length < (String.utf8EncodeChar c).length := by simp [hchar]
        have hbyte : (String.utf8EncodeChar c)[front.length] = 0x20 := by simp [hchar]
        have hfirst : (String.utf8EncodeChar c)[front.length].IsUTF8FirstByte := by
          rw [hbyte]
          decide
        have hstart := UInt8.isUTF8FirstByte_getElem_utf8EncodeChar.mp hfirst
        exact absurd (List.length_eq_zero_iff.mp hstart) hne

/-- Behind blanks the pass writes a space or nothing. -/
theorem squeezeBlanks_true (s : Text) :
    squeezeBlanks true s = [] ∨ ∃ t, squeezeBlanks true s = .char ' ' :: t := by
  induction s with
  | nil => exact .inl rfl
  | cons r s ih =>
      cases hr : r.isBlank with
      | true => simpa [squeezeBlanks, hr] using ih
      | false => exact .inr ⟨r :: squeezeBlanks false s, by simp [squeezeBlanks, hr]⟩

/-- A character that is read before the squeezed text is read before the text. -/
theorem prefix_of_prefix_squeezeBlanks {c : Char} {front : List UInt8} (hne : front ≠ [])
    {s : Text} (h : String.utf8EncodeChar c <+: front ++ encode (squeezeBlanks false s)) :
    String.utf8EncodeChar c <+: front ++ encode s := by
  induction s generalizing front with
  | nil => exact h
  | cons r s ih =>
      cases hr : r.isBlank with
      | true =>
          have hfront : String.utf8EncodeChar c <+: front := by
            simp only [squeezeBlanks, hr, if_true] at h
            rcases squeezeBlanks_true s with hnil | ⟨t, ht⟩
            · simpa [hnil, encode] using h
            · rw [ht, encode_cons] at h
              exact prefix_of_prefix_space hne h
          exact hfront.trans (List.prefix_append _ _)
      | false =>
          simp only [squeezeBlanks, hr, Bool.false_eq_true, if_false] at h
          rw [encode_cons, ← List.append_assoc] at h ⊢
          exact ih (by simp [hne]) h

/-- The pass keeps a text decoded. -/
theorem Decoded.squeezeBlanks {s : Text} (h : Decoded s) (gap : Bool) :
    Decoded (squeezeBlanks gap s) := by
  induction s generalizing gap with
  | nil => exact h
  | cons r s ih =>
      cases hr : r.isBlank with
      | true => simpa [Text.squeezeBlanks, hr] using ih h.tail true
      | false =>
          have hrest : Decoded (r :: Text.squeezeBlanks false s) := by
            cases r with
            | char c => exact ih h false
            | stray b =>
                have hne : [b] ≠ [] := List.cons_ne_nil b []
                exact ⟨fun c hc => h.1 c (prefix_of_prefix_squeezeBlanks hne hc), ih h.2 false⟩
          rw [Text.squeezeBlanks, if_neg (by simp [hr])]
          split
          · exact hrest
          · exact hrest

/-- What is left of a text without its first glyphs is decoded with the text. -/
theorem Decoded.dropWhile {s : Text} (h : Decoded s) (f : Glyph → Bool) :
    Decoded (s.dropWhile f) := by
  induction s with
  | nil => exact h
  | cons r s ih =>
      rw [List.dropWhile_cons]
      split
      · exact ih h.tail
      · exact h

/-- **Collapsing keeps a text decoded.** -/
theorem Decoded.collapse {s : Text} (h : Decoded s) : Decoded (collapse s) := by
  rw [collapse_eq]
  exact (h.dropWhile Glyph.isBlank).squeezeBlanks false

end TemplateFormat.Text
