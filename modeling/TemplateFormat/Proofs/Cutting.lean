import TemplateFormat.Markup.Lexeme

/-!
# Cutting loses nothing

`Lexeme.split` walks over the source with a count of glyphs that belong to a
piece already cut and with the plain text collected so far.  Here the walk is
put in a form that proofs can step through:

* `marked?_length` — a marked piece takes at least one glyph and no more than
  there are;
* `splitFrom_of_marked`, `splitFrom_of_plain` — one step of the walk, either
  over a whole marked piece or over one glyph of plain text;
* `split_raws` — the raw texts of the pieces, put side by side, are the source.
-/

namespace TemplateFormat.Markup.Lexeme

/-! ## The lengths of marked pieces -/

/-- Glyphs passed before only shift the end of an interpolation. -/
theorem interpolationLength_add (depth n k : Nat) (s : Text) :
    interpolationLength depth (n + k) s = interpolationLength depth n s + k := by
  fun_induction interpolationLength depth n s with
  | case1 => simp [interpolationLength]
  | case2 => simp only [interpolationLength]; omega
  | case3 depth n a b s h ih =>
      rw [interpolationLength, if_pos h, ← ih]
      congr 1
      omega
  | case4 depth n a b s h h' hd =>
      rw [interpolationLength, if_neg h, if_pos h', if_pos hd]
      omega
  | case5 depth n a b s h h' hd ih =>
      rw [interpolationLength, if_neg h, if_pos h', if_neg hd, ← ih]
      congr 1
      omega
  | case6 depth n a b s h h' ih =>
      rw [interpolationLength, if_neg h, if_neg h', ← ih]
      congr 1
      omega

/-- An interpolation ends inside the text. -/
theorem interpolationLength_le (depth n : Nat) (s : Text) :
    interpolationLength depth n s ≤ n + s.length := by
  fun_induction interpolationLength depth n s <;> simp_all <;> omega

/-- An interpolation takes at least one glyph. -/
theorem lt_interpolationLength (depth n : Nat) {s : Text} (hs : s ≠ []) :
    n < interpolationLength depth n s := by
  have hgrow : ∀ depth n s, n ≤ interpolationLength depth n s := by
    intro depth n s
    rw [← Nat.zero_add n, interpolationLength_add]
    omega
  cases s with
  | nil => exact absurd rfl hs
  | cons a s =>
      cases s with
      | nil => simp [interpolationLength]
      | cons b s =>
          rw [interpolationLength]
          have h2 := fun d => hgrow d (n + 2) s
          have h1 := hgrow depth (n + 1) (b :: s)
          split
          · exact Nat.lt_of_lt_of_le (by omega) (h2 _)
          · split
            · split
              · omega
              · exact Nat.lt_of_lt_of_le (by omega) (h2 _)
            · omega

/-- A control header takes at least one glyph and ends inside the text. -/
theorem headerLength_bounds (n : Nat) (s : Text) :
    n ≤ headerLength n s ∧ headerLength n s ≤ n + s.length ∧
      (s ≠ [] → n < headerLength n s) := by
  induction s generalizing n with
  | nil => simp [headerLength]
  | cons r s ih =>
      have := ih (n + 1)
      rw [headerLength]
      split <;> simp only [List.length_cons] <;> omega

/-- A comment ends inside the text. -/
theorem commentLength_bounds (n : Nat) (s : Text) :
    n ≤ commentLength n s ∧ commentLength n s ≤ n + s.length := by
  induction s generalizing n with
  | nil => simp [commentLength]
  | cons r s ih =>
      have := ih (n + 1)
      rw [commentLength]
      split
      · next hclose =>
          have := (List.isPrefixOf_iff_prefix.mp hclose).length_le
          omega
      · simp only [List.length_cons]
        omega

/-- A tag ends inside the text. -/
theorem tagLength_bounds (prev : Glyph) (q : Quote) (n : Nat) (s : Text) :
    n ≤ tagLength prev q n s ∧ tagLength prev q n s ≤ n + s.length := by
  induction s generalizing prev q n with
  | nil => simp [tagLength]
  | cons r s ih =>
      have := ih r (q.next (some prev) r) (n + 1)
      rw [tagLength]
      split <;> simp only [List.length_cons] <;> omega

/-- A marked piece takes at least one glyph and no more than there are. -/
theorem marked?_length {prev : Option Glyph} {r : Glyph} {s : Text} {kind : Kind} {n : Nat}
    (h : marked? prev r s = some (kind, n)) : 0 < n ∧ n ≤ s.length + 1 := by
  rw [marked?] at h
  split at h
  · cases h
    have := interpolationLength_le 0 0 (r :: s)
    exact ⟨lt_interpolationLength 0 0 (List.cons_ne_nil r s), by simpa using this⟩
  · split at h
    · split at h
      · next hclose =>
          cases h
          have := (List.isPrefixOf_iff_prefix.mp hclose).length_le
          exact ⟨by decide, by simpa using this⟩
      · obtain ⟨word, _, hw⟩ := Option.map_eq_some_iff.mp h
        cases hw
        have := headerLength_bounds 0 (r :: s)
        simp only [List.length_cons] at this
        exact ⟨this.2.2 (List.cons_ne_nil r s), by omega⟩
    · split at h
      · split at h
        · cases h
        · cases h
          omega
      · split at h
        · split at h
          · next hopen =>
              cases h
              have hlen := (List.isPrefixOf_iff_prefix.mp hopen).length_le
              have hfour : commentOpen.length = 4 := rfl
              have := commentLength_bounds commentOpen.length
                (s.drop (commentOpen.length - 1))
              simp only [List.length_cons, List.length_drop, hfour] at hlen this ⊢
              omega
          · cases h
            have := tagLength_bounds r .outside 1 s
            omega
        · cases h

/-! ## Steps of the walk -/

/-- Glyphs of a piece already cut are passed over. -/
theorem splitFrom_skip (a s : Text) (prev : Option Glyph) (pending : Text) :
    splitFrom a.length prev pending (a ++ s) = splitFrom 0 (a.getLast?.or prev) pending s := by
  induction a generalizing prev with
  | nil => rfl
  | cons r a ih =>
      rw [List.length_cons, List.cons_append, splitFrom, ih, List.getLast?_cons]
      cases a.getLast? <;> rfl

/-- **A step over a marked piece.**  The text collected so far becomes a piece,
then the marked piece, and the walk goes on behind it. -/
theorem splitFrom_of_marked {prev : Option Glyph} {r : Glyph} {s rest : Text}
    {kind : Kind}
    (pending : Text)
    (h : marked? prev r (s ++ rest) = some (kind, s.length + 1)) :
    splitFrom 0 prev pending (r :: (s ++ rest)) =
      ofPending pending ++ ⟨kind, r :: s⟩ :: splitFrom 0 (r :: s).getLast? [] rest := by
  have htake : (r :: (s ++ rest)).take (s.length + 1) = r :: s := by
    rw [List.take_succ_cons, List.take_left]
  have hlast : (r :: s).getLast? = s.getLast?.or (some r) := by
    rw [List.getLast?_cons]
    cases s.getLast? <;> rfl
  rw [splitFrom, h]
  simp only [htake, Nat.add_sub_cancel, splitFrom_skip, hlast]

/-- A step over one glyph of plain text. -/
theorem splitFrom_of_plain {prev : Option Glyph} {r : Glyph} {s : Text}
    (pending : Text)
    (h : marked? prev r s = none) :
    splitFrom 0 prev pending (r :: s) = splitFrom 0 (some r) (r :: pending) s := by
  rw [splitFrom, h]

/-- A marked piece stands at the start of the text, with what follows it. -/
theorem marked?_piece {prev : Option Glyph} {r : Glyph} {s : Text} {kind : Kind} {n : Nat}
    (h : marked? prev r s = some (kind, n)) :
    ∃ body rest, s = body ++ rest ∧ n = body.length + 1 := by
  have := marked?_length h
  refine ⟨s.take (n - 1), s.drop (n - 1), (List.take_append_drop _ s).symm, ?_⟩
  rw [List.length_take]
  omega

theorem ofPending_raws (pending : Text) :
    (ofPending pending).flatMap raw = pending.reverse := by
  cases pending with
  | nil => rfl
  | cons r pending => simp [ofPending]

/-- The raw texts of the pieces are the text collected and the text that is
left. -/
theorem splitFrom_raws (skip : Nat) (prev : Option Glyph) (pending s : Text) :
    (splitFrom skip prev pending s).flatMap raw = pending.reverse ++ s.drop skip := by
  fun_induction splitFrom skip prev pending s with
  | case1 => simp [ofPending_raws]
  | case2 skip prev pending r s ih => simpa using ih
  | case3 prev pending r s kind n h ih =>
      have hpos := (marked?_length h).1
      have hdrop : (r :: s).drop n = s.drop (n - 1) := by
        obtain ⟨m, rfl⟩ := Nat.exists_eq_succ_of_ne_zero (Nat.ne_of_gt hpos)
        simp
      simp only [List.flatMap_append, ofPending_raws, List.flatMap_cons, ih,
        List.reverse_nil,
        List.nil_append, List.drop_zero]
      rw [← hdrop, List.take_append_drop]
  | case4 prev pending r s h ih => simpa using ih

/-- **Cutting loses nothing.**  The raw texts of the pieces, side by side, are
the source. -/
theorem split_raws (source : Text) : (split source).flatMap raw = source := by
  simp [split, splitFrom_raws]

end TemplateFormat.Markup.Lexeme
