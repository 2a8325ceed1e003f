import TemplateFormat.Text.Utf8

/-!
# Offsets and the bytes they count

Offsets into a source count bytes, while a text is a list of glyphs.  Cutting at
an offset is cutting between glyphs as long as the offset is the width of a
leading part, and every offset the scanner hands out is one.

* `dropWidth_width`, `takeWidth_width` — cutting at the width of a leading part;
* `slice` — the part between two offsets, and `slice_append`, which part that is;
* `holder?` — the glyph that a byte belongs to;
* `encode_decode` — decoding loses no byte, so the width of a decoded text is the
  number of its bytes (`width_decode`) and a part of it is the bytes between its offsets
  (`encode_of_decode_eq`).
-/

namespace TemplateFormat.Text

/-! ## Widths -/

@[simp] theorem width_nil : width [] = 0 := rfl

/-- Widths add up from the left as from the right. -/
theorem foldl_width (n : Nat) (s : Text) :
    s.foldl (fun n r => n + r.width) n = n + width s := by
  unfold width
  induction s generalizing n with
  | nil => rfl
  | cons r s ih =>
      rw [List.foldl_cons, List.foldl_cons, ih, ih (0 + r.width)]
      omega

@[simp] theorem width_cons (r : Glyph) (s : Text) : width (r :: s) = r.width + width s := by
  have h := foldl_width (0 + r.width) s
  rw [Nat.zero_add] at h
  rw [← h, width, List.foldl_cons, Nat.zero_add]

@[simp] theorem width_append (s t : Text) : width (s ++ t) = width s + width t := by
  induction s with
  | nil => simp
  | cons r s ih =>
      rw [List.cons_append, width_cons, width_cons, ih]
      omega

@[simp] theorem width_reverse (s : Text) : width s.reverse = width s := by
  induction s with
  | nil => rfl
  | cons r s ih =>
      rw [List.reverse_cons, width_append, ih, width_cons, width_cons, width_nil]
      omega

/-- A text that is not empty has bytes. -/
theorem width_pos_of_ne_nil {s : Text} (h : s ≠ []) : 0 < width s := by
  obtain ⟨r, rest, rfl⟩ := List.exists_cons_of_ne_nil h
  have := width_pos r
  rw [width_cons]
  omega

/-- A text of glyphs of one byte has as many bytes as glyphs. -/
theorem width_eq_length {s : Text} (h : ∀ r ∈ s, r.width = 1) : width s = s.length := by
  induction s with
  | nil => rfl
  | cons r s ih =>
      rw [width_cons, List.length_cons, h r List.mem_cons_self,
        ih fun x hx => h x (List.mem_cons_of_mem r hx), Nat.add_comm]

/-! ## Cutting at an offset -/

@[simp] theorem dropWidth_zero (s : Text) : dropWidth 0 s = s := by
  cases s <;> rfl

/-- Dropping the width of a leading part drops the part. -/
@[simp] theorem dropWidth_width (s t : Text) : dropWidth (width s) (s ++ t) = t := by
  induction s with
  | nil => simp
  | cons r s ih =>
      have := width_pos r
      rw [List.cons_append, dropWidth, width_cons, if_neg (by omega), Nat.add_sub_cancel_left]
      exact ih

/-- The glyphs seen before come first. -/
theorem takeWidthAfter_eq (seen : Text) (n : Nat) (s : Text) :
    takeWidthAfter seen n s = seen.reverse ++ takeWidth n s := by
  unfold takeWidth
  induction s generalizing seen n with
  | nil => simp [takeWidthAfter]
  | cons r s ih =>
      by_cases hn : n = 0
      · simp [takeWidthAfter, hn]
      · simp only [takeWidthAfter, if_neg hn]
        rw [ih (r :: seen), ih [r]]
        simp

/-- Taking the width of a leading part takes the part. -/
@[simp] theorem takeWidth_width (s t : Text) : takeWidth (width s) (s ++ t) = s := by
  induction s with
  | nil => cases t <;> simp [takeWidth, takeWidthAfter]
  | cons r s ih =>
      have := width_pos r
      rw [List.cons_append, takeWidth, takeWidthAfter, width_cons, if_neg (by omega),
        Nat.add_sub_cancel_left, takeWidthAfter_eq, ih]
      rfl

/-- The part of a text from byte `start` up to byte `stop`. -/
def slice (start stop : Nat) (s : Text) : Text := (s.dropWidth start).takeWidth (stop - start)

/-- A part of a text is the slice between its ends. -/
theorem slice_append (before s after : Text) :
    slice (width before) (width before + width s) (before ++ s ++ after) = s := by
  rw [slice, List.append_assoc, dropWidth_width, Nat.add_sub_cancel_left, takeWidth_width]

/-! ## The glyph of a byte -/

/-- The glyph that byte `k` belongs to; none behind the last byte. -/
def holder? : (k : Nat) → Text → Option Glyph
  | _, [] => none
  | k, r :: s => if k < r.width then some r else holder? (k - r.width) s

/-- A byte of the first part belongs to a glyph of it. -/
theorem holder?_of_lt {k : Nat} {s : Text} (h : k < width s) (t : Text) :
    ∃ r ∈ s, holder? k (s ++ t) = some r := by
  induction s generalizing k with
  | nil => simp at h
  | cons r s ih =>
      rw [width_cons] at h
      by_cases hk : k < r.width
      · exact ⟨r, List.mem_cons_self, by simp [holder?, hk]⟩
      · obtain ⟨a, ha, hholder⟩ := ih (k := k - r.width) (by omega)
        exact ⟨a, List.mem_cons_of_mem r ha, by simpa [holder?, hk] using hholder⟩

/-- A byte behind the first part belongs to the second. -/
theorem holder?_append {k : Nat} (s t : Text) : holder? (width s + k) (s ++ t) = holder? k t := by
  induction s generalizing k with
  | nil => simp
  | cons r s ih =>
      rw [List.cons_append, holder?, width_cons, if_neg (by omega), ← ih]
      congr 1
      omega

/-- A byte of the first part belongs to the same glyph without the second. -/
theorem holder?_append_of_lt {k : Nat} {s : Text} (h : k < width s) (t : Text) :
    holder? k (s ++ t) = holder? k s := by
  induction s generalizing k with
  | nil => simp at h
  | cons r s ih =>
      rw [width_cons] at h
      rw [List.cons_append, holder?, holder?]
      split
      · rfl
      · exact ih (by omega)

/-- The glyph of a byte stands in the text. -/
theorem mem_of_holder? {k : Nat} {s : Text} {r : Glyph} (h : holder? k s = some r) : r ∈ s := by
  induction s generalizing k with
  | nil => cases h
  | cons a s ih =>
      rw [holder?] at h
      split at h
      · cases h
        exact List.mem_cons_self
      · exact List.mem_cons_of_mem a (ih h)

/-! ## Bytes -/

theorem encode_cons (r : Glyph) (s : Text) : encode (r :: s) = r.bytes ++ encode s := by
  simp [encode]

@[simp] theorem encode_append (s t : Text) : encode (s ++ t) = encode s ++ encode t := by
  simp [encode]

theorem length_bytes (r : Glyph) : r.bytes.length = r.width := by
  cases r with
  | char c => exact String.length_utf8EncodeChar c
  | stray b => rfl

/-- The width of a text is the number of its bytes. -/
theorem length_encode (s : Text) : (encode s).length = width s := by
  induction s with
  | nil => rfl
  | cons r s ih =>
      rw [encode_cons, List.length_append, length_bytes, ih, width_cons]

/-- The bytes of a part of an array. -/
theorem toList_extract (bytes : ByteArray) (i j : Nat) :
    (bytes.extract i j).data.toList = (bytes.data.toList.drop i).take (j - i) := by
  rw [ByteArray.data_extract, Array.toList_extract, List.extract_eq_take_drop]

/-- The bytes of the glyph at a place are the bytes that stand there. -/
theorem bytes_glyphAt (bytes : ByteArray) (i : Nat) (h : i < bytes.size) :
    bytes.data.toList.drop i =
      (glyphAt bytes i h).bytes ++ bytes.data.toList.drop (i + (glyphAt bytes i h).width) := by
  unfold glyphAt
  split
  · next c hc =>
      rw [ByteArray.utf8DecodeChar?_eq_utf8DecodeChar?_extract] at hc
      obtain ⟨rest, hrest⟩ := ByteArray.exists_of_utf8DecodeChar?_eq_some hc
      have hall : (bytes.extract i bytes.size).data.toList = bytes.data.toList.drop i := by
        rw [toList_extract]
        refine List.take_of_length_le ?_
        rw [List.length_drop, Array.length_toList]
        exact Nat.le_refl _
      have hsplit : bytes.data.toList.drop i = String.utf8EncodeChar c ++ rest.data.toList := by
        rw [← hall, hrest, ByteArray.data_append, Array.toList_append,
          List.toList_data_toByteArray]
      have hdrop : bytes.data.toList.drop (i + c.utf8Size) = rest.data.toList := by
        rw [← List.drop_drop, hsplit, ← String.length_utf8EncodeChar c, List.drop_left]
      rw [hsplit]
      exact congrArg _ hdrop.symm
  · have hlen : i < bytes.data.toList.length := by simpa using h
    rw [List.drop_eq_getElem_cons hlen]
    rfl

/-- Decoding goes on from a place with the bytes that are left. -/
theorem encode_decodeFrom (bytes : ByteArray) (i : Nat) (seen : Text) :
    encode (decodeFrom bytes i seen) = encode seen.reverse ++ bytes.data.toList.drop i := by
  fun_induction decodeFrom bytes i seen with
  | case1 i seen h ih =>
      have hglyph : encode [glyphAt bytes i h] = (glyphAt bytes i h).bytes := by simp [encode]
      rw [ih, List.reverse_cons, encode_append, hglyph, List.append_assoc,
        ← bytes_glyphAt bytes i h]
  | case2 i seen h =>
      have hlen : bytes.data.toList.length ≤ i := by
        rw [Array.length_toList]
        exact Nat.le_of_not_lt h
      rw [List.drop_eq_nil_of_le hlen, List.append_nil]

/-- **Decoding loses no byte.** -/
theorem encode_decode (bytes : ByteArray) : encode (decode bytes) = bytes.data.toList := by
  rw [decode, encode_decodeFrom]
  rfl

/-- A decoded text is as wide as its bytes are many. -/
theorem width_decode (bytes : ByteArray) : width (decode bytes) = bytes.size := by
  rw [← length_encode, encode_decode, Array.length_toList]
  rfl

/-- The bytes of a part of a decoded text are those between its offsets. -/
theorem encode_of_decode_eq {bytes : ByteArray} {before span after : Text}
    (h : decode bytes = before ++ span ++ after) :
    encode span = (bytes.extract before.width (before.width + span.width)).data.toList := by
  have hbytes : bytes.data.toList = encode before ++ (encode span ++ encode after) := by
    rw [← encode_decode bytes, h, encode_append, encode_append, List.append_assoc]
  rw [toList_extract, hbytes, Nat.add_sub_cancel_left, ← length_encode before, List.drop_left,
    ← length_encode span, List.take_left]

end TemplateFormat.Text
