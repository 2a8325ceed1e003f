import TemplateFormat.Cache
import TemplateFormat.Proofs.Blanks

/-!
# What a cache writes

A cache digests a content and the options as one text, and writes its entries to a file.
Both can be read back: the digested text determines the content and the options, although
nothing separates its parts but the first, and the text of a cache file determines the
entries.

* `ofInt_inj` — the decimal digits of a number determine it;
* `keyText_inj` — what is digested determines the content and the options;
* `unescape_escape`, `ofText?_toText` — a cache file is read as it was written.
-/

namespace TemplateFormat

/-! ## Numerals -/

namespace Text

/-- The glyphs of a numeral. -/
def isNumeral (r : Glyph) : Bool := r.isDigit || r = .char '-'

/-- A number is written with the sign and the digits of its size. -/
theorem ofInt_eq (n : Int) :
    ofInt n = (if n < 0 then [.char '-'] else []) ++ (Nat.toDigits 10 n.natAbs).map .char := by
  cases n with
  | ofNat m => simp [ofInt, text, ToString.toString, Int.repr]
  | negSucc m => simp [ofInt, text, ToString.toString, Int.repr]

/-- The digits of a size are digits. -/
theorem isDigit_of_mem_digits {n : Nat} {r : Glyph}
    (h : r ∈ (Nat.toDigits 10 n).map Glyph.char) : r.isDigit = true := by
  obtain ⟨c, hc, rfl⟩ := List.mem_map.mp h
  exact Nat.isDigit_of_mem_toDigits (by decide) (by decide) hc

theorem isNumeral_of_mem_ofInt {n : Int} {r : Glyph} (h : r ∈ ofInt n) : isNumeral r = true := by
  rw [ofInt_eq, List.mem_append] at h
  rw [isNumeral, Bool.or_eq_true, decide_eq_true_eq]
  rcases h with h | h
  · split at h
    · exact .inr (List.mem_singleton.mp h)
    · cases h
  · exact .inl (isDigit_of_mem_digits h)

/-- **The digits of a number determine it.** -/
theorem ofInt_inj {m n : Int} (h : ofInt m = ofInt n) : m = n := by
  rw [ofInt_eq, ofInt_eq] at h
  have hminus : ∀ k : Nat, .char '-' ∉ (Nat.toDigits 10 k).map Glyph.char := by
    intro k hmem
    exact absurd (isDigit_of_mem_digits hmem) (by decide)
  have hsize : ∀ j k : Nat, (Nat.toDigits 10 j).map Glyph.char = (Nat.toDigits 10 k).map .char →
      j = k := by
    intro j k hdigits
    have hchars := List.map_inj_right (fun _ _ hc => Glyph.char.inj hc) |>.mp hdigits
    rw [← Nat.ofDigitChars_ten_toDigits (n := j), hchars, Nat.ofDigitChars_ten_toDigits]
  by_cases hm : m < 0
  · by_cases hn : n < 0
    · rw [if_pos hm, if_pos hn] at h
      have := hsize _ _ (List.append_cancel_left h)
      omega
    · rw [if_pos hm, if_neg hn] at h
      exact absurd (by rw [List.nil_append] at h; rw [← h]; exact List.mem_cons_self)
        (hminus n.natAbs)
  · by_cases hn : n < 0
    · rw [if_neg hm, if_pos hn] at h
      exact absurd (by rw [List.nil_append] at h; rw [h]; exact List.mem_cons_self)
        (hminus m.natAbs)
    · rw [if_neg hm, if_neg hn] at h
      have := hsize _ _ (List.append_cancel_left h)
      omega

/-- What stands behind the last occurrence of an element is determined, and so is what
stands before it. -/
theorem cons_append_inj {α : Type} {a b s t : List α} {r : α} (hs : r ∉ s) (ht : r ∉ t)
    (h : a ++ r :: s = b ++ r :: t) : a = b ∧ s = t := by
  rcases List.append_eq_append_iff.mp h with ⟨c, rfl, hc⟩ | ⟨c, rfl, hc⟩
  · cases c with
    | nil => simpa using hc
    | cons x c =>
        obtain ⟨-, rfl⟩ := List.cons.inj hc
        exact absurd (by simp) hs
  · cases c with
    | nil => simpa using hc.symm
    | cons x c =>
        obtain ⟨-, rfl⟩ := List.cons.inj hc
        exact absurd (by simp) ht

/-- A text of glyphs of one sort is determined where a glyph of another sort follows. -/
theorem append_inj_of_sort {p : Glyph → Bool} {a b s t : Text} {r r' : Glyph}
    (ha : ∀ x ∈ a, p x = true) (hb : ∀ x ∈ b, p x = true) (hr : p r = false)
    (hr' : p r' = false) (h : a ++ r :: s = b ++ r' :: t) : a = b ∧ r :: s = r' :: t := by
  have hlead : ∀ {u v : Text} {x : Glyph}, (∀ y ∈ u, p y = true) → p x = false →
      (u ++ x :: v).takeWhile p = u := by
    intro u v x hu hx
    rw [List.takeWhile_append_of_pos hu, List.takeWhile_cons_of_neg (by simp [hx]), List.append_nil]
  have hfront : a = b := by rw [← hlead ha hr, h, hlead hb hr']
  subst hfront
  exact ⟨rfl, List.append_cancel_left h⟩

end Text

/-! ## What is digested -/

namespace Cache

open Text Layout

/-- The options as they are digested. -/
def optionsText (o : Options) : Text :=
  Text.ofInt o.indentSize ++ (truth o.useSpaces ++ (truth o.inlineShort ++
    (truth o.keepMultiline ++ Text.ofInt o.threshold)))

theorem keyText_eq (content : Text) (o : Options) :
    keyText content o = content ++ .char '\x00' :: optionsText o := by
  simp [keyText, optionsText]

/-- A truth value is written with letters, of which there is at least one. -/
theorem truth_cons (b : Bool) :
    ∃ r s, truth b = r :: s ∧ ∀ x ∈ truth b, isNumeral x = false ∧ x ≠ .char '\x00' := by
  cases b with
  | true => exact ⟨_, _, rfl, by decide⟩
  | false => exact ⟨_, _, rfl, by decide⟩

/-- The words for the truth values differ in their first letters. -/
theorem truth_inj {b c : Bool} {s t : Text} (h : truth b ++ s = truth c ++ t) : b = c ∧ s = t := by
  cases b <;> cases c
  · exact ⟨rfl, List.append_cancel_left h⟩
  · cases (List.cons.inj h).1
  · cases (List.cons.inj h).1
  · exact ⟨rfl, List.append_cancel_left h⟩

/-- No NUL is written for options. -/
theorem nul_notMem_optionsText (o : Options) : .char '\x00' ∉ optionsText o := by
  intro h
  have hint : ∀ n : Int, .char '\x00' ∉ Text.ofInt n := by
    intro n hmem
    exact absurd (isNumeral_of_mem_ofInt hmem) (by decide)
  have htruth : ∀ b, .char '\x00' ∉ truth b := by decide
  simp only [optionsText, List.mem_append] at h
  rcases h with h | h | h | h | h
  · exact hint _ h
  · exact htruth _ h
  · exact htruth _ h
  · exact htruth _ h
  · exact hint _ h

/-- The options are determined by how they are digested. -/
theorem optionsText_inj {o o' : Options} (h : optionsText o = optionsText o') : o = o' := by
  obtain ⟨r, s, hb, hletters⟩ := truth_cons o.useSpaces
  obtain ⟨r', s', hb', hletters'⟩ := truth_cons o'.useSpaces
  rw [hb] at hletters
  rw [hb'] at hletters'
  rw [optionsText, optionsText, hb, hb', List.cons_append, List.cons_append] at h
  obtain ⟨hsize, h⟩ := append_inj_of_sort (fun _ => isNumeral_of_mem_ofInt)
    (fun _ => isNumeral_of_mem_ofInt) (hletters r List.mem_cons_self).1
    (hletters' r' List.mem_cons_self).1 h
  rw [← List.cons_append, ← List.cons_append, ← hb, ← hb'] at h
  obtain ⟨huse, h⟩ := truth_inj h
  obtain ⟨hinline, h⟩ := truth_inj h
  obtain ⟨hkeep, h⟩ := truth_inj h
  cases o
  cases o'
  simp only [Options.mk.injEq]
  exact ⟨ofInt_inj hsize, huse, hinline, ofInt_inj h, hkeep⟩

/-- **What is digested determines the content and the options**, whatever the content ends
in. -/
theorem keyText_inj {content content' : Text} {o o' : Options}
    (h : keyText content o = keyText content' o') : content = content' ∧ o = o' := by
  rw [keyText_eq, keyText_eq] at h
  obtain ⟨hcontent, hoptions⟩ :=
    cons_append_inj (nul_notMem_optionsText o) (nul_notMem_optionsText o') h
  exact ⟨hcontent, optionsText_inj hoptions⟩

/-! ## Cache files -/

/-- Hexadecimal digits are neither blanks nor line ends. -/
theorem mem_hexDigits {n : Nat} {c : Char} (h : c ∈ Nat.toDigits 16 n) : c ≠ ' ' ∧ c ≠ '\n' := by
  have hdigit : ∀ d < 16, Nat.digitChar d ≠ ' ' ∧ Nat.digitChar d ≠ '\n' := by decide
  induction n using Nat.strongRecOn with
  | ind n ih =>
      rw [Nat.toDigits_eq_if (by decide)] at h
      split at h
      · next hlt =>
          rw [List.mem_singleton] at h
          exact h ▸ hdigit n hlt
      · next hle =>
          rcases List.mem_append.mp h with h | h
          · exact ih (n / 16) (Nat.div_lt_self (by omega) (by decide)) h
          · rw [List.mem_singleton] at h
            exact h ▸ hdigit _ (Nat.mod_lt _ (by decide))

/-- A key can stand before a blank on a line. -/
theorem mem_key {content : Text} {o : Options} {r : Glyph} (h : r ∈ key content o) :
    r ≠ .char ' ' ∧ r ≠ .char '\n' := by
  obtain ⟨word, -, hword⟩ := List.mem_flatMap.mp h
  obtain ⟨c, hc, rfl⟩ := List.mem_map.mp hword
  have hhex : c ≠ ' ' ∧ c ≠ '\n' := by
    rcases List.mem_append.mp hc with hc | hc
    · rw [List.eq_of_mem_replicate hc]
      decide
    · exact mem_hexDigits hc
  exact ⟨fun heq => hhex.1 (Glyph.char.inj heq), fun heq => hhex.2 (Glyph.char.inj heq)⟩

/-- Only a backslash is read in another way. -/
theorem unescape_cons {r : Glyph} (hr : r ≠ .char '\\') (rest : Text) :
    unescape (r :: rest) = r :: unescape rest := by
  rw [unescape.eq_def]
  split <;> simp_all

/-- An escaped path is read as the path. -/
theorem unescape_escape (path : Text) : unescape (escape path) = path := by
  induction path with
  | nil => rfl
  | cons r path ih =>
      have hcons : escape (r :: path) = (if r = .char '\n' then text "\\n"
          else if r = .char '\\' then text "\\\\" else [r]) ++ escape path := rfl
      rw [hcons]
      split
      · next hnewline =>
          rw [hnewline]
          exact congrArg _ ih
      · split
        · next hslash =>
            rw [hslash]
            exact congrArg _ ih
        · next hslash => rw [List.singleton_append, unescape_cons hslash, ih]

/-- An escaped path stands on one line. -/
theorem newline_notMem_escape (path : Text) : .char '\n' ∉ escape path := by
  intro h
  obtain ⟨r, -, hr⟩ := List.mem_flatMap.mp h
  split at hr
  · exact absurd hr (by decide)
  · next hnewline =>
      split at hr
      · exact absurd hr (by decide)
      · exact hnewline (List.mem_singleton.mp hr).symm

/-- The line of an entry is read as the entry. -/
theorem entry?_line (path : Text) {key : Text} (hkey : .char ' ' ∉ key) :
    entry? (key ++ text " " ++ escape path) = some (path, key) := by
  have hpass : ∀ r ∈ key, (r != .char ' ') = true := by
    intro r hr
    exact bne_iff_ne.mpr fun heq => hkey (heq ▸ hr)
  have hline : key ++ text " " ++ escape path = key ++ .char ' ' :: escape path := by simp [text]
  unfold entry?
  rw [hline, Text.cut, List.dropWhile_append_of_pos hpass,
    List.dropWhile_cons_of_neg (by simp), List.takeWhile_append_of_pos hpass,
    List.takeWhile_cons_of_neg (by simp), List.append_nil]
  simp only [unescape_escape]

/-- **A cache file is read as it was written.** -/
theorem ofText?_toText {entries : Entries}
    (h : ∀ e ∈ entries, .char ' ' ∉ e.2 ∧ .char '\n' ∉ e.2) :
    ofText? (toText entries) = some entries := by
  have hafter : ∀ lead s : Text, Text.after? lead (lead ++ s) = some s := by
    intro lead s
    induction lead with
    | nil => rfl
    | cons r lead ih => simpa [Text.after?] using ih
  have hlines : ((entries.flatMap fun e =>
      e.2 ++ text " " ++ escape e.1 ++ text "\n").splitOn (.char '\n')).filterMap entry? =
        entries := by
    induction entries with
    | nil => rfl
    | cons e entries ih =>
        obtain ⟨path, key⟩ := e
        obtain ⟨hblank, hnewline⟩ := h _ List.mem_cons_self
        have hline : .char '\n' ∉ key ++ text " " ++ escape path := by
          simp only [List.mem_append, not_or]
          exact ⟨⟨hnewline, by decide⟩, newline_notMem_escape path⟩
        have hrest := ih fun e he => h e (List.mem_cons_of_mem _ he)
        rw [List.flatMap_cons, List.append_assoc, show text "\n" = [.char '\n'] from rfl,
          List.singleton_append, List.splitOn_append_cons_self, List.splitOn_eq_singleton hline,
          List.singleton_append, List.filterMap_cons_some (entry?_line path hblank)]
        exact congrArg _ hrest
  have hne : (toText entries).isEmpty = false := rfl
  rw [ofText?, hne, if_neg (by decide), toText, hafter, Option.map_some]
  exact congrArg some hlines

end Cache

end TemplateFormat
