import TemplateFormat.Proofs.PipeSegments

/-!
# Interpolations rewritten more than once

The three passes over an expression come down to one thing done to each of its
segments, `tidy`, with the quotes before the segment.  The result is divided into
the same segments, so rewriting it tidies them again.

* `normalBody_eq` — the expression of a rewritten interpolation, by segments;
* `segments_normalBody` — it is divided into the tidied segments;
* `normalize_normalize_iff` — rewriting it again changes nothing exactly if no
  operator of one glyph stands directly behind another operator, as the sign in
  `a+-b` does; rewriting it a third time never changes anything.
-/

namespace TemplateFormat.Layout.Interpolation

open Text Markup

/-! ## The expression of a rewritten interpolation -/

/-- What an expression is rewritten to. -/
def normalBody (expr : Text) : Text :=
  trim (spaceOperators (splitPipes (collapseOutside (trim expr))))

/-- What an interpolation is rewritten to; an expression of blanks is no case of its own. -/
theorem normalize_eq (literal : Text) :
    normalize literal =
      match inner? literal with
      | none => literal
      | some expr =>
        interpolationOpen ++ (text " " ++ normalBody expr ++ text " ") ++ interpolationClose := by
  rw [normalize]
  cases inner? literal with
  | none => rfl
  | some expr =>
      dsimp only
      split
      · next hempty =>
          rw [normalBody, List.isEmpty_iff.mp hempty]
          rfl
      · simp only [normalBody, List.append_assoc]

/-- The expression between the markers. -/
theorem inner?_append (expr : Text) :
    inner? (interpolationOpen ++ expr ++ interpolationClose) = some expr := by
  have hend : (expr ++ interpolationClose).endsWith interpolationClose = true :=
    List.isSuffixOf_iff_suffix.mpr (List.suffix_append _ _)
  have hafter : after? interpolationOpen (interpolationOpen ++ expr ++ interpolationClose) =
      some (expr ++ interpolationClose) := rfl
  rw [inner?, hafter]
  simp [hend]

/-- Squeezing keeps a text trimmed. -/
theorem trimmed_squeeze {s : Text} (hs : Trimmed s) (q : Quote) :
    Trimmed (Tag.squeeze none q false s) where
  head := by
    cases s with
    | nil => simp [Tag.squeeze]
    | cons r s =>
        have hr := hs.head r rfl
        rw [Tag.squeeze, if_neg (by simp [not_isSpace_of_isBlank hr]), if_neg (by simp)]
        simpa using hr
  last := by
    rw [Tag.getLast?_squeeze none q false hs.last]
    exact hs.last

/-- Spacing the pipes of a trimmed expression joins its segments. -/
theorem splitPipes_eq {expr : Text} (h : Trimmed expr) :
    splitPipes expr = join (text " | ") (segments expr) := by
  rw [splitPipes]
  split
  · next a ha =>
      have hjoin := join_pipeSegments [] expr
      rw [ha, join_singleton, List.reverse_nil, List.nil_append] at hjoin
      rw [segments, ha, hjoin, List.map_singleton, join_singleton, h.trim_eq]
  · rfl

/-- More waiting spaces are written first or not at all. -/
theorem exists_write_add (keep : Bool) (m n : Nat) (ps : List Piece) :
    ∃ k, write keep (m + n) ps = List.replicate k (.char ' ') ++ write keep n ps := by
  induction ps generalizing n with
  | nil => exact ⟨0, rfl⟩
  | cons p ps ih =>
      cases p with
      | copied r => exact ⟨m, by simp [write, ← List.append_assoc]⟩
      | gap => exact ih (n + 1)
      | single r =>
          cases keep with
          | true => exact ⟨m, by simp [write, ← List.append_assoc]⟩
          | false => exact ⟨0, rfl⟩
      | compound op => exact ⟨0, rfl⟩

/-- **Setting off the operators of joined segments** sets off those of each. -/
theorem spaceOperators_join {gs : List Text} (hne : gs ≠ []) (hgs : ∀ g ∈ gs, Trimmed g) :
    trim (spaceOperators (join (text " | ") gs)) =
      trim (join (text " | ") ((threaded .outside gs).map fun at_ =>
        trim (spaceFrom 0 false none at_.1 [] at_.2))) ∧
    (Roomy (pieces (join (text " | ") gs)) ↔
      ∀ at_ ∈ threaded .outside gs, Roomy (piecesFrom 0 false none at_.1 at_.2)) := by
  have hspaces : ∀ (s : Text) m n, trim (List.replicate m (.char ' ') ++ s ++
      List.replicate n (.char ' ')) = trim s := fun s _ _ =>
    Text.trim_between isBlank_of_mem_spaces s isBlank_of_mem_spaces
  have hnone : ∀ a ∈ (none : Option Glyph), a = .char ' ' := by simp
  obtain ⟨ps, k, hreads, hroomy, hwrite⟩ := reads_join hne hgs hnone .outside
  have hpieces : pieces (join (text " | ") gs) = ps := hreads.pieces_eq
  refine ⟨?_, by rw [hpieces, hroomy]⟩
  -- at the start of the expression no space waits, which only trimming would show
  obtain ⟨m, hmore⟩ := exists_write_add true 1 0 ps
  have hone : behindSpace .outside = 1 + 0 := rfl
  rw [hone, hmore] at hwrite
  calc trim (spaceOperators (join (text " | ") gs))
      = trim (write true 0 ps ++ List.replicate (waiting 0 ps) (.char ' ')) := by
        rw [spaceOperators_eq, hpieces]
    _ = trim (write true 0 ps) := trim_append_blank isBlank_of_mem_spaces _
    _ = trim (List.replicate m (.char ' ') ++ write true 0 ps ++
          List.replicate (waiting (1 + 0) ps) (.char ' ')) := (hspaces _ _ _).symm
    _ = _ := by rw [hwrite, hspaces]

/-! ## Tidied segments -/

/-- Trimming keeps the quotes behind a text. -/
theorem after_trim (q : Quote) (s : Text) : q.after none (trim s) = q.after none s := by
  obtain ⟨a, b, hs, ha, hb⟩ := trim_spec s
  conv => rhs; rw [hs, Quote.after_between ha _ hb q (by simp [Escapes])]

/-- So does squeezing it. -/
theorem after_trim_squeeze (q : Quote) (s : Text) :
    q.after none (trim (Tag.squeeze none q false s)) = q.after none s := by
  rw [after_trim]
  exact (reblanked_squeeze s (by simp) fun _ => Iff.rfl).after_eq

/-- So does tidying it. -/
theorem after_tidy (q : Quote) (s : Text) : q.after none (tidy q s) = q.after none s := by
  have hspace := spaceFrom_eq 0 false none q 0 [] (trim (Tag.squeeze none q false s)) (by simp)
  have hwrite : Reblanked none none q (trim (Tag.squeeze none q false s))
      (write true 0 (tidyPieces q s) ++
        List.replicate (waiting 0 (tidyPieces q s)) (.char ' ')) :=
    (reads_tidyPieces q s).reblanked_write (by simp) (fun _ => Iff.rfl) (by simp)
  rw [tidy, after_trim, ← after_trim_squeeze q s]
  refine Eq.trans (congrArg _ hspace) hwrite.after_eq

/-- **A rewritten expression**, by segments. -/
theorem normalBody_eq (expr : Text) :
    normalBody expr = trim (join (text " | ") ((threaded .outside (segments expr)).map fun at_ =>
      tidy at_.1 at_.2)) ∧
    (Roomy (pieces (splitPipes (collapseOutside (trim expr)))) ↔
      ∀ at_ ∈ threaded .outside (segments expr), Roomy (tidyPieces at_.1 at_.2)) := by
  have hcollapse : collapseOutside (trim expr) = Tag.squeeze none .outside false (trim expr) :=
    collapseFrom_eq none .outside false [] _
  have hnone : ¬Escapes none := by simp [Escapes]
  have hsegments := segments_squeeze (trim expr) hnone .outside false
  rw [segments_trim] at hsegments
  have hsplit := splitPipes_eq (trimmed_squeeze (trimmed_trim expr) .outside)
  obtain ⟨hspace, hroomy⟩ := spaceOperators_join
    (segments_ne_nil (Tag.squeeze none .outside false (trim expr)))
    fun g hg => (mem_segments hg).1
  rw [hsegments, threaded_map after_trim_squeeze] at hspace hroomy
  rw [hsegments] at hsplit
  rw [normalBody, hcollapse, hsplit, hspace, hroomy, List.map_map, List.forall_mem_map]
  exact ⟨rfl, Iff.rfl⟩

/-- **A rewritten expression is divided** into the tidied segments. -/
theorem segments_normalBody (expr : Text) :
    segments (normalBody expr) =
      (threaded .outside (segments expr)).map fun at_ => tidy at_.1 at_.2 := by
  rw [(normalBody_eq expr).1, segments_trim, segments_join]
  · obtain ⟨g, gs, hgs⟩ := List.exists_cons_of_ne_nil (segments_ne_nil expr)
    simp [hgs, threaded]
  · intro g hg
    obtain ⟨at_, hat, rfl⟩ := List.mem_map.mp hg
    exact ⟨trimmed_trim _, (mem_segments (mem_of_mem_threaded hat)).2.tidy _⟩

/-- A rewritten expression is its segments joined. -/
theorem normalBody_eq_join (expr : Text) :
    normalBody expr = trim (join (text " | ") (segments (normalBody expr))) := by
  rw [segments_normalBody]
  exact (normalBody_eq expr).1

/-- The segments of an expression that was rewritten twice. -/
theorem segments_normalBody_normalBody (expr : Text) :
    segments (normalBody (normalBody expr)) =
      (threaded .outside (segments expr)).map fun at_ => tidy at_.1 (tidy at_.1 at_.2) := by
  rw [segments_normalBody (normalBody expr), segments_normalBody, threaded_map after_tidy,
    List.map_map]
  simp only [Function.comp_def]

/-- Rewriting an expression again changes nothing exactly if tidying its segments again does
not. -/
theorem normalBody_normalBody_iff (expr : Text) :
    normalBody (normalBody expr) = normalBody expr ↔
      Roomy (pieces (splitPipes (collapseOutside (trim expr)))) := by
  have hsegments : segments (normalBody (normalBody expr)) = segments (normalBody expr) ↔
      ∀ at_ ∈ threaded .outside (segments expr), Roomy (tidyPieces at_.1 at_.2) := by
    rw [segments_normalBody_normalBody, segments_normalBody, List.map_inj_left]
    exact forall₂_congr fun at_ _ => tidy_tidy_iff at_.1 at_.2
  rw [(normalBody_eq expr).2, ← hsegments]
  refine ⟨congrArg segments, fun h => ?_⟩
  rw [normalBody_eq_join (normalBody expr), h, ← normalBody_eq_join]

/-- An expression rewritten twice stays as it is. -/
theorem normalBody_normalBody_normalBody (expr : Text) :
    normalBody (normalBody (normalBody expr)) = normalBody (normalBody expr) := by
  have hkeep : ∀ (q : Quote) g, q.after none (tidy q (tidy q g)) = q.after none g := fun q g => by
    rw [after_tidy, after_tidy]
  have hsegments : segments (normalBody (normalBody (normalBody expr))) =
      segments (normalBody (normalBody expr)) := by
    rw [segments_normalBody (normalBody (normalBody expr)), segments_normalBody_normalBody,
      threaded_map hkeep, List.map_map]
    simp only [Function.comp_def, tidy_tidy_tidy]
  rw [normalBody_eq_join (normalBody (normalBody expr)), hsegments, ← normalBody_eq_join]

/-! ## Rewriting again -/

/-- An interpolation around an expression. -/
theorem normalize_append (expr : Text) :
    normalize (interpolationOpen ++ (text " " ++ expr ++ text " ") ++ interpolationClose) =
      interpolationOpen ++ (text " " ++ normalBody expr ++ text " ") ++ interpolationClose := by
  have hbody : normalBody (text " " ++ expr ++ text " ") = normalBody expr := by
    rw [normalBody, Text.trim_between (by decide) _ (by decide), ← normalBody]
  rw [normalize_eq, inner?_append]
  dsimp only
  rw [hbody]

/-- **When rewriting an interpolation once is enough.**  Rewriting it again changes nothing exactly
if, when its operators are set off, none of one glyph stands directly behind another operator.
Rewriting it twice is always enough. -/
theorem normalize_normalize_iff (literal : Text) :
    (normalize (normalize literal) = normalize literal ↔
      ∀ expr, inner? literal = some expr →
        Roomy (pieces (splitPipes (collapseOutside (trim expr))))) ∧
    normalize (normalize (normalize literal)) = normalize (normalize literal) := by
  cases hinner : inner? literal with
  | none =>
      have hself : normalize literal = literal := by rw [normalize_eq, hinner]
      simp [hself]
  | some expr =>
      have hone : normalize literal = interpolationOpen ++
          (text " " ++ normalBody expr ++ text " ") ++ interpolationClose := by
        rw [normalize_eq, hinner]
      have hroomy := normalBody_normalBody_iff expr
      rw [hone, normalize_append, normalize_append, normalBody_normalBody_normalBody]
      refine ⟨?_, rfl⟩
      simpa [List.append_cancel_left_eq] using hroomy

/-- A sign behind an operator: both write a space between them, and the next rewriting leaves one
of the two. -/
theorem normalize_normalize_sign :
    normalize (text "\x7b\x7ba+-b\x7d\x7d") = text "\x7b\x7b a +  - b \x7d\x7d" ∧
      normalize (normalize (text "\x7b\x7ba+-b\x7d\x7d")) ≠
        normalize (text "\x7b\x7ba+-b\x7d\x7d") := by
  decide

end TemplateFormat.Layout.Interpolation
