import TemplateFormat.Proofs.Positions

/-!
# From an offset to a position and back

The positions of the boundaries of a document increase, with one exception: a carriage return
and a newline end one line, and the boundary between the two already has the position of the
start of the next line.  A position leads back to the first boundary that has it, so every
offset is found again but the one behind such a pair, from which the way back ends inside
the pair.

* `before_endFrom` — the position behind a text is further than the one before it, unless the
  text is the second half of a line end;
* `walked_endFrom` — the walk to the position behind a text passes the text;
* `toOffset_ofOffset_iff` — which offsets are found again.
-/

namespace TemplateFormat.Editor

open Text

/-! ## Positions increase -/

/-- The order of positions, continued by one that is not before. -/
theorem before_of_before {p q q' : Position} (h : q.before q' = true)
    (h' : p.before q' = false) : q.before p = true := by
  rw [← Bool.not_eq_true] at h'
  rw [before_iff] at h h' ⊢
  omega

/-- A glyph leads to a further position, unless it is the second half of a line end. -/
theorem before_next (q : Position) {afterReturn : Bool} {r : Glyph}
    (h : ¬(afterReturn = true ∧ r = .char '\n')) : q.before (q.next afterReturn r) = true := by
  have hunits := units_pos r
  rw [before_iff, Position.next]
  split
  · left
    dsimp only
    omega
  · split
    · next hnewline =>
        rw [if_neg (by simpa [hnewline] using h)]
        left
        dsimp only
        omega
    · right
      dsimp only
      omega

/-- Positions do not go back. -/
theorem endFrom_not_before (q : Position) (afterReturn : Bool) (s : Text) :
    (endFrom q afterReturn s).before q = false := by
  induction s generalizing q afterReturn with
  | nil => simp [endFrom, Position.before]
  | cons r s ih =>
      rw [endFrom]
      by_cases hpaired : afterReturn = true ∧ r = .char '\n'
      · obtain ⟨rfl, rfl⟩ := hpaired
        exact ih q _
      · have hstep := before_next q hpaired
        have hrest := ih (q.next afterReturn r) (r == .char '\r')
        rw [← Bool.not_eq_true] at hrest ⊢
        rw [before_iff] at hstep hrest ⊢
        omega

/-- **The position behind a text is further**, unless the text is the second half of a line
end. -/
theorem before_endFrom (q : Position) {afterReturn : Bool} {s : Text} (hne : s ≠ [])
    (h : ¬(afterReturn = true ∧ s = [.char '\n'])) :
    q.before (endFrom q afterReturn s) = true := by
  induction s generalizing q afterReturn with
  | nil => exact absurd rfl hne
  | cons r s ih =>
      rw [endFrom]
      by_cases hpaired : afterReturn = true ∧ r = .char '\n'
      · obtain ⟨rfl, rfl⟩ := hpaired
        have hmore : s ≠ [] := by
          intro hnil
          exact h ⟨rfl, by rw [hnil]⟩
        exact ih q hmore (by simp)
      · exact before_of_before (before_next q hpaired) (endFrom_not_before _ _ s)

/-! ## The way back -/

/-- **The walk to the position behind a text passes the text**, unless the text ends behind the
second half of a line end. -/
theorem walked_endFrom (q : Position) {afterReturn : Bool} {part : Text}
    (hpair : ¬text "\r\n" <:+ part) (hhalf : ¬(afterReturn = true ∧ part = [.char '\n']))
    (rest : Text) :
    walked (endFrom q afterReturn part) q afterReturn (part ++ rest) = part := by
  induction part generalizing q afterReturn with
  | nil =>
      cases rest with
      | nil => rfl
      | cons r s => simp [walked, endFrom, Position.before]
  | cons r s ih =>
      have hnext : ¬((r == .char '\r') = true ∧ s = [.char '\n']) := by
        intro hends
        obtain ⟨hr, rfl⟩ := hends
        rw [beq_iff_eq.mp hr] at hpair
        exact hpair List.suffix_rfl
      have hrest : ¬text "\r\n" <:+ s := fun hs => hpair (hs.trans (List.suffix_cons r s))
      rw [List.cons_append, walked, if_pos (before_endFrom q (List.cons_ne_nil r s) hhalf), endFrom,
        ih _ hrest hnext]

/-- The position behind a line end of two glyphs is the one between them. -/
theorem endFrom_pair (q : Position) (afterReturn : Bool) (head : Text) :
    endFrom q afterReturn (head ++ text "\r\n") = endFrom q afterReturn (head ++ text "\r") := by
  induction head generalizing q afterReturn with
  | nil => rfl
  | cons r s ih => exact ih _ _

/-- **Which offsets are found again.**  An offset behind a part of a document leads to a position,
and this back to the offset, unless the part ends in a carriage return and a newline: then the
way back ends one byte earlier, between the two.  The offset between the two is found again. -/
theorem toOffset_ofOffset_iff (part rest : Text) :
    let back := Position.toOffset (part ++ rest) (Position.ofOffset (part ++ rest) part.width)
    (back = part.width ↔ part.endsWith (text "\r\n") = false) ∧
      (back + 1 = part.width ↔ part.endsWith (text "\r\n") = true) := by
  intro back
  have hback : back = width (walked (endFrom {} false part) {} false (part ++ rest)) := by
    rw [← toOffset_eq, ← ofOffset_eq part rest]
  cases hpair : part.endsWith (text "\r\n") with
  | false =>
      have hsuffix : ¬text "\r\n" <:+ part := by
        rw [← List.isSuffixOf_iff_suffix, Bool.not_eq_true]
        exact hpair
      rw [hback, walked_endFrom {} hsuffix (by simp)]
      simp
  | true =>
      obtain ⟨head, rfl⟩ := List.isSuffixOf_iff_suffix.mp hpair
      have hinside : ¬text "\r\n" <:+ head ++ text "\r" := by
        intro hsuffix
        have hlast := hsuffix.getLast (by simp [text])
        simp [text] at hlast
      have hsplit : head ++ text "\r\n" ++ rest = (head ++ text "\r") ++ (.char '\n' :: rest) := by
        simp [text]
      have hwidth : width (head ++ text "\r\n") = width (head ++ text "\r") + 1 := by
        rw [width_append, width_append]
        rfl
      rw [hback, endFrom_pair, hsplit, walked_endFrom {} hinside (by simp), hwidth]
      simp

/-- The start of a line behind a carriage return and a newline: the position of its offset leads
back between the two. -/
theorem toOffset_ofOffset_pair :
    Text.width (text "a\r\n") = 3 ∧ Position.ofOffset (text "a\r\nb") 3 = { line := 1 } ∧
      Position.toOffset (text "a\r\nb") { line := 1 } = 2 := by
  decide

end TemplateFormat.Editor
