import Mathlib.Data.List.Chain
import TemplateFormat.Proofs.Decoding

/-!
# The first glyphs of a collapsed text

Look-alike elements are compared by the first glyphs of their collapsed contents.  `lead`
reads these off the text itself: it remembers that blanks were passed and writes a space only
when another glyph follows, and it stops at the glyph that makes up the number, be it that
space or what stands behind it.  What it finds is what collapsing the whole text would give.

* `leadFrom_eq`, `lead_eq` — the lead is cut off the collapsed text;
* `leadFrom_append` — what follows the last glyph of a lead does not matter;
* `isChain_squeezeBlanks` — no two blanks of a collapsed text stand side by side;
* `lead_collapsed` — the lead of a text that is read from bytes.
-/

namespace TemplateFormat

open Text

/-- A stray byte is shown as a glyph that is no blank, as it is none itself. -/
@[simp] theorem Glyph.isBlank_shown (r : Glyph) : r.shown.isBlank = r.isBlank := by
  cases r with
  | char c => rfl
  | stray b => exact (by decide : replacement.isBlank = false)

namespace Text

/-! ## The scan and the collapsed text -/

/-- Behind a glyph, the scan gives what the pass over the whole text gives. -/
theorem leadFrom_eq (gap : Bool) (n : Nat) (s : Text) :
    leadFrom true gap n s = ((squeezeBlanks gap s).map Glyph.shown).take n := by
  induction s generalizing gap n with
  | nil => cases n <;> rfl
  | cons r s ih =>
      cases n with
      | zero => simp [leadFrom]
      | succ n =>
          cases hr : r.isBlank with
          | true => simpa [leadFrom, squeezeBlanks, hr] using ih true (n + 1)
          | false =>
              cases gap with
              | false => simp [leadFrom, squeezeBlanks, hr, ih]
              | true =>
                  -- the space may be the last glyph that is asked for
                  cases n with
                  | zero => simp [leadFrom, squeezeBlanks, hr, Glyph.shown]
                  | succ n => simp [leadFrom, squeezeBlanks, hr, ih, Glyph.shown]

/-- Before the first glyph, the scan passes over blanks. -/
theorem lead_dropWhile (n : Nat) (s : Text) :
    lead n s = leadFrom true false n (s.dropWhile Glyph.isBlank) := by
  induction s with
  | nil => cases n <;> rfl
  | cons r s ih =>
      cases n with
      | zero => simp [lead, leadFrom]
      | succ n =>
          cases hr : r.isBlank with
          | true => simpa [lead, leadFrom, hr] using ih
          | false => simp [lead, leadFrom, hr]

/-- **The lead of a text** is cut off the collapsed text. -/
theorem lead_eq (n : Nat) (s : Text) : lead n s = ((collapse s).map Glyph.shown).take n := by
  rw [lead_dropWhile, leadFrom_eq, ← collapse_eq]

/-- **The scan stops** when it has found its glyphs: what follows is not read. -/
theorem leadFrom_append {started gap : Bool} {n : Nat} {front : Text}
    (h : (leadFrom started gap n front).length = n) (rest : Text) :
    leadFrom started gap n (front ++ rest) = leadFrom started gap n front := by
  induction front generalizing started gap n with
  | nil =>
      cases n with
      | zero => simp [leadFrom]
      | succ n => simp [leadFrom] at h
  | cons r front ih =>
      cases n with
      | zero => simp [leadFrom]
      | succ n =>
          rw [List.cons_append]
          simp only [leadFrom] at h ⊢
          split at h
          · next hr => rw [if_pos hr, if_pos hr, ih h]
          · next hr =>
              rw [if_neg hr, if_neg hr]
              split at h
              · next hgap =>
                  rw [if_pos hgap, if_pos hgap]
                  cases n with
                  | zero => rfl
                  | succ n =>
                      simp only [List.length_cons, Nat.add_right_cancel_iff] at h ⊢
                      rw [ih h]
              · next hgap =>
                  rw [if_neg hgap, if_neg hgap]
                  simp only [List.length_cons, Nat.add_right_cancel_iff] at h
                  rw [ih h]

/-! ## Collapsed texts -/

/-- The pass leaves no two blanks side by side. -/
theorem isChain_squeezeBlanks (gap : Bool) (s : Text) :
    (squeezeBlanks gap s).IsChain fun a b => ¬(a.isBlank = true ∧ b.isBlank = true) := by
  induction s generalizing gap with
  | nil => exact .nil
  | cons r s ih =>
      rw [squeezeBlanks]
      split
      · exact ih true
      · next hr =>
          have hrest : (r :: squeezeBlanks false s).IsChain
              fun a b => ¬(a.isBlank = true ∧ b.isBlank = true) :=
            (ih false).cons fun _ _ hboth => hr hboth.1
          split
          · exact .cons_cons (fun hboth => hr hboth.2) hrest
          · exact hrest

/-- **The lead of a text that is read from bytes.**  It is the first `n` glyphs of the
collapsed text as its bytes are read, stray bytes shown as the replacement character.  These
are at most `n` glyphs when they are read again; the first is no blank and no two blanks
stand side by side.  Once `n` glyphs are found in the front of a text, the rest is not read. -/
theorem lead_collapsed (n : Nat) (bytes : ByteArray) :
    let s := decode bytes
    let found := lead n s
    found = ((decode (collapse s).toBytes).map Glyph.shown).take n ∧
    decode found.toBytes = found ∧ found.length ≤ n ∧
    (∀ r ∈ found.head?, r.isBlank = false) ∧
    found.IsChain (fun a b => ¬(a.isBlank = true ∧ b.isBlank = true)) ∧
    ∀ front rest, s = front ++ rest → (lead n front).length = n → found = lead n front := by
  intro s found
  have hfound : found = ((collapse s).map Glyph.shown).take n := lead_eq n s
  have hchars : ∀ r ∈ found, ∃ c, r = .char c := by
    intro r hr
    rw [hfound] at hr
    obtain ⟨a, -, rfl⟩ := List.mem_map.mp (List.mem_of_mem_take hr)
    cases a with
    | char c => exact ⟨c, rfl⟩
    | stray b => exact ⟨_, rfl⟩
  refine ⟨?_, decode_toBytes (decoded_of_chars hchars), ?_, fun r hr => ?_, ?_, ?_⟩
  · rw [decode_toBytes (decoded_decode bytes).collapse]
    exact hfound
  · rw [hfound, List.length_take]
    exact Nat.min_le_left _ _
  · rw [hfound, List.head?_take] at hr
    split at hr
    · cases hr
    · obtain ⟨a, ha, rfl⟩ : ∃ a, (collapse s).head? = some a ∧ a.shown = r := by
        simpa using hr
      rw [Glyph.isBlank_shown]
      exact (trimmed_collapse s).head a ha
  · rw [hfound, collapse_eq]
    refine ((List.isChain_map _).mpr ?_).take n
    simpa using isChain_squeezeBlanks false (s.dropWhile Glyph.isBlank)
  · intro front rest hs hfull
    have hstop : lead n (front ++ rest) = lead n front := leadFrom_append hfull rest
    rw [← hstop, ← hs]

/-- The space is the last glyph that is asked for, and what follows it is not read. -/
example : lead 3 (text "  ab \n cd") = text "ab " := by decide

end Text

end TemplateFormat
