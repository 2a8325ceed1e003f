import TemplateFormat.Proofs.NormalForm

/-!
# String literals in interpolations

Quotes hide an expression's spaces and operators from being rewritten, but not its
pipe characters.  For an expression whose quotes are closed and hide no pipe
character, all that rewriting does is change blanks outside quotes.

* `Quoting.exists_part` — a glyph inside quotes ends up in a quoted part;
* `Segmented.reblanked` — spacing the pipes changes blanks only;
* `quotedParts_normalize` — the quoted parts of the expression are those of the
  rewritten interpolation.
-/

namespace TemplateFormat

open Text Markup

/-! ## Quoted parts and quotes -/

namespace Quoting

/-- The parts that were passed stay. -/
theorem mem_parts_run {scan : Quoting} {part : Text} (h : part ∈ scan.parts)
    (prev : Option Glyph) (s : Text) : part ∈ (scan.run prev s).parts := by
  induction s generalizing scan prev with
  | nil => exact h
  | cons r s ih =>
      refine ih ?_ _
      rw [next]
      split
      · split <;> exact h
      · split
        · exact List.mem_cons_of_mem _ h
        · exact h

/-- Inside quotes, glyphs are collected until the quotes are closed. -/
theorem next_of_inside {scan : Quoting} (hinside : scan.quote ≠ .outside) (prev : Option Glyph)
    (r : Glyph) :
    (scan.quote.next prev r = .outside ∧ (r :: scan.part).reverse ∈ (scan.next prev r).parts) ∨
      scan.next prev r = { scan with part := r :: scan.part } := by
  have hcopy : ¬scan.quote.isOutside = true := by simpa [Quote.isOutside] using hinside
  by_cases hclose : (scan.quote.next prev r).isOutside = true
  · refine .inl ⟨of_decide_eq_true hclose, ?_⟩
    rw [Quoting.next, if_neg hcopy, if_pos hclose]
    exact List.mem_cons_self
  · exact .inr (by rw [Quoting.next, if_neg hcopy, if_neg hclose])

/-- **A glyph inside quotes** that are closed later ends up in a quoted part. -/
theorem exists_part {scan : Quoting} {r : Glyph} (hpart : r ∈ scan.part)
    (hinside : scan.quote ≠ .outside) (prev : Option Glyph) (s : Text)
    (hend : (scan.run prev s).quote = .outside) :
    ∃ part ∈ (scan.run prev s).parts, r ∈ part := by
  induction s generalizing scan prev with
  | nil => exact absurd hend hinside
  | cons a s ih =>
      rcases next_of_inside hinside prev a with ⟨-, hmem⟩ | hnext
      · exact ⟨_, mem_parts_run hmem _ _, by simp [hpart]⟩
      · rw [run_cons, hnext] at hend ⊢
        have hmem : r ∈ ({ scan with part := a :: scan.part } : Quoting).part :=
          List.mem_cons_of_mem a hpart
        exact ih hmem hinside _ hend

/-- Where no quoted part holds a glyph and all quotes are closed, the glyph stands outside. -/
theorem after_eq_outside {u v : Text} {r : Glyph} (hr : r.isQuote = false)
    (hend : (of (u ++ r :: v)).quote = .outside)
    (hparts : ∀ part ∈ quotedParts (u ++ r :: v), r ∉ part) :
    Quote.after .outside none u = .outside := by
  by_contra hinside
  have hquote : (run {} none u).quote ≠ .outside := by rwa [quote_run]
  have hrun : of (u ++ r :: v) =
      run { run {} none u with part := r :: (run {} none u).part } (some r) v := by
    have hnext := (next_of_inside hquote (u.getLast?.or none) r).resolve_left fun hclose => by
      rw [Quote.next_of_isQuote hr] at hclose
      exact hquote hclose.1
    rw [of, run_append, run_cons, hnext]
  rw [hrun] at hend
  have hcollected : r ∈ ({ run {} none u with part := r :: (run {} none u).part } : Quoting).part :=
    List.mem_cons_self
  obtain ⟨part, hpart, hmem⟩ := exists_part hcollected hquote _ v hend
  refine hparts part ?_ hmem
  rw [quotedParts, List.mem_reverse, hrun]
  exact hpart

end Quoting

/-- Blanks changed outside quotes leave the whole scan as it is. -/
theorem Reblanked.of_eq {s t : Text} (h : Reblanked none none .outside s t) :
    Quoting.of t = Quoting.of s :=
  h.run_eq rfl

/-- Trimming a text changes blanks outside quotes if its quotes are closed. -/
theorem reblanked_trim {prev prev' : Option Glyph} (hprev : ¬Escapes prev) (hprev' : ¬Escapes prev')
    {s : Text} (hend : Quote.after .outside prev s = .outside) :
    Reblanked prev prev' .outside s (trim s) := by
  obtain ⟨w, w', hs, hw, hw'⟩ := trim_spec s
  have hfront : Reblanked prev prev' .outside (w ++ trim s) ([] ++ trim s) := by
    refine (Reblanked.dropBlanks hw prev prev').append (.refl _ _ fun _ _ _ => ?_)
    exact iff_of_false (not_escapes_of_blank hw hprev) hprev'
  rw [hs, Quote.after_append, Quote.after_of_blank hw'] at hend
  have hall := hfront.append (u := w') (v := []) (by
    rw [hend]
    exact .dropBlanks hw' _ _)
  rw [List.nil_append, List.append_nil] at hall
  rwa [← hs] at hall

namespace Layout.Interpolation

/-! ## The passes over an expression -/

/-- **Spacing the pipes** changes blanks outside quotes if the pipe characters stand there. -/
theorem Segmented.reblanked {gs : List Text} {s : Text} (h : Segmented gs s)
    {prev prev' : Option Glyph} (hprev : ¬Escapes prev) (hprev' : ¬Escapes prev')
    (hend : Quote.after .outside prev s = .outside)
    (hpipes : ∀ u v, s = u ++ .char '|' :: v → Quote.after .outside prev u = .outside) :
    Reblanked prev prev' .outside s (join (text " | ") (gs.map trim)) := by
  have hpipe : ¬Escapes (some (.char '|')) := by simp [Escapes]
  have hspace : ¬Escapes (some (.char ' ')) := by simp [Escapes]
  induction h generalizing prev prev' with
  | last ha => simpa using reblanked_trim hprev hprev' hend
  | @cons a t gs ha ht tail ih =>
      have hfirst : Quote.after .outside prev a = .outside := hpipes a t rfl
      have hafter : ∀ u, Quote.after .outside prev (a ++ .char '|' :: u) =
          Quote.after .outside (some (.char '|')) u := fun u => by
        rw [Quote.after_append, hfirst, Quote.after, Quote.next_of_isQuote rfl]
      have hrest : Reblanked (some (.char '|')) (some (.char ' ')) .outside t
          (join (text " | ") (gs.map trim)) := by
        refine ih hpipe hspace (by rwa [hafter] at hend) fun u v hu => ?_
        rw [← hafter]
        exact hpipes _ v (by simp [hu])
      obtain ⟨g, gs, rfl⟩ : ∃ g gs', gs = g :: gs' := by
        cases tail with
        | last => exact ⟨_, _, rfl⟩
        | cons => exact ⟨_, _, rfl⟩
      rw [List.map_cons, List.map_cons, join_cons_cons, List.append_assoc]
      refine (reblanked_trim hprev hprev' hfirst).append ?_
      rw [hfirst]
      have hsep : text " | " = [.char ' ', .char '|', .char ' '] := rfl
      rw [hsep]
      refine .add rfl (.copy (fun hquote => by cases hquote) ?_)
      rw [Quote.next_of_isQuote rfl]
      exact .add rfl hrest

/-- The scan of a rewritten expression is that of the expression. -/
theorem of_normalBody {expr : Text} (hend : (Quoting.of expr).quote = .outside)
    (hparts : ∀ part ∈ quotedParts expr, .char '|' ∉ part) :
    Quoting.of (normalBody expr) = Quoting.of expr := by
  have hnone : ¬Escapes none := by simp [Escapes]
  have hafter : ∀ {s}, Quoting.of s = Quoting.of expr → Quote.after .outside none s = .outside := by
    intro s hs
    rw [← hs, Quoting.of, Quoting.quote_run] at hend
    exact hend
  have htrim : Quoting.of (trim expr) = Quoting.of expr :=
    (reblanked_trim hnone hnone (hafter rfl)).of_eq
  have hcollapse : Quoting.of (collapseOutside (trim expr)) = Quoting.of expr := by
    rw [collapseOutside, collapseFrom_eq, List.reverse_nil, List.nil_append, ← htrim]
    exact (reblanked_squeeze (trim expr) (by simp) fun _ => Iff.rfl).of_eq
  have hsplit : Quoting.of (splitPipes (collapseOutside (trim expr))) = Quoting.of expr := by
    rw [splitPipes]
    split
    · exact hcollapse
    · rw [← hcollapse]
      refine ((segmented _).reblanked hnone hnone (hafter hcollapse) fun u v hu => ?_).of_eq
      rw [hu] at hcollapse
      refine Quoting.after_eq_outside (v := v) (r := .char '|') rfl (by rw [hcollapse, hend]) ?_
      rwa [quotedParts, hcollapse]
  have hspace : Quoting.of (spaceOperators (splitPipes (collapseOutside (trim expr)))) =
      Quoting.of expr := by
    rw [spaceOperators_eq, ← hsplit]
    exact (Reads.reblanked_write (reads_piecesFrom _ none (by simp)) (by simp) (fun _ => Iff.rfl)
      (by simp)).of_eq
  rw [normalBody, (reblanked_trim hnone hnone (hafter hspace)).of_eq, hspace]

/-- The markers of an interpolation have no quotes. -/
theorem quotedParts_markers {body : Text} (h : (Quoting.of body).quote = .outside) :
    quotedParts (interpolationOpen ++ (text " " ++ body ++ text " ") ++ interpolationClose) =
      quotedParts body := by
  have hshape : interpolationOpen ++ (text " " ++ body ++ text " ") ++ interpolationClose =
      (interpolationOpen ++ text " ") ++ body ++ (text " " ++ interpolationClose) := by
    simp only [List.append_assoc]
  have hbody : Quoting.run {} (some (.char ' ')) body = Quoting.of body :=
    (Reblanked.refl .outside body fun _ _ _ =>
      iff_of_false (by simp [Escapes]) (by simp [Escapes])).run_eq rfl
  have hopen : (interpolationOpen ++ text " ").getLast?.or none = some (.char ' ') := rfl
  rw [quotedParts, quotedParts, hshape, Quoting.of, Quoting.run_append {} none (_ ++ body),
    Quoting.run_append {} none _ body, Quoting.run_of_outside (s := interpolationOpen ++ text " ") rfl (by decide), hopen, hbody,
    Quoting.run_of_outside h (by decide)]

/-- **String literals are kept.**  For an expression whose quotes are closed and hide no pipe
character, the quoted parts of the rewritten interpolation are those of the expression. -/
theorem quotedParts_normalize (expr : Text) (hend : (Quoting.of expr).quote = .outside)
    (hparts : ∀ part ∈ quotedParts expr, .char '|' ∉ part) :
    quotedParts (normalize (interpolationOpen ++ expr ++ interpolationClose)) =
      quotedParts expr := by
  have hof := of_normalBody hend hparts
  rw [normalize_eq, inner?_append]
  dsimp only
  rw [quotedParts_markers (by rw [hof, hend]), quotedParts, hof, quotedParts]

/-- Two literals with an operator between them and a pipe behind them. -/
theorem quotedParts_normalize_mixed :
    quotedParts (normalize (interpolationOpen ++ text "'\\'  '+\x22a\x22|b" ++
      interpolationClose)) = [text "'\\'  '", text "\x22a\x22"] :=
  (quotedParts_normalize (text "'\\'  '+\x22a\x22|b") (by decide) (by decide)).trans (by decide)

end Layout.Interpolation

end TemplateFormat
