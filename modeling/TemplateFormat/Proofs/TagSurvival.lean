import TemplateFormat.Proofs.Rereading

/-!
# When the tags of a document survive

Tags and comments are meant to come out of a layout as they went in.  The printer
writes them as they are, and so does a merge that takes text and interpolations
only.  A flattened line is different: its white space is changed after it is put
together, also inside quoted values and comments.  A comment that lacks its end
takes a newline behind it.

These are the only ways in which a tag can change.  `tagLiterals_format_iff` says
so: the tags of a document survive exactly when each flattened line keeps its own
tags and no comment without an end stands before a final newline.

* `Laid.newline` — what a newline at the end of a layout does to its pieces;
* `length_reread`, `reread_of_not_flat` — a step keeps the number of its tags, and
  the tags themselves unless it flattens;
* `tagLiterals_print_iff` — the law for layouts.
-/

namespace TemplateFormat.Markup

open Text Layout

namespace Lexeme

/-! ## A newline at the end -/

/-- A comment that lacks its end still does before a newline. -/
theorem commentLength_newline {n : Nat} {s : Text}
    (h : commentLength n s = n + s.length)
    (hopen : endsComment s = false) :
    commentLength n (s ++ [.char '\n']) = n + (s.length + 1) := by
  induction s generalizing n with
  | nil => simp [commentLength, commentClose, text]
  | cons r s ih =>
      have hprefix : commentClose.isPrefixOf (r :: s ++ [.char '\n']) =
        commentClose.isPrefixOf (r :: s) := by
        rw [Bool.eq_iff_iff, List.isPrefixOf_iff_prefix,
          List.isPrefixOf_iff_prefix]
        refine ⟨prefix_of_prefix_append fun a ha => ?_,
          fun hp => hp.trans (List.prefix_append _ _)⟩
        obtain rfl : .char '\n' = a := by simpa using ha
        decide
      rw [commentLength] at h
      rw [endsComment] at hopen
      rw [List.cons_append, commentLength, ← List.cons_append, hprefix]
      split at h
      · next hclose =>
          have hlen : s.length = 2 := by
            have : commentClose.length = 3 := rfl
            simp only [List.length_cons] at h
            omega
          simp [hclose, hlen] at hopen
      · next hclose =>
          simp only [hclose, if_false, Bool.false_eq_true] at hopen ⊢
          have := ih (n := n + 1) (by simp only [List.length_cons] at h; omega) hopen
          rw [this]
          simp only [List.length_cons]
          omega

/-- Whether the piece has its end, if it is a comment. -/
def hasEnd (lexeme : Lexeme) : Bool :=
  lexeme.kind != .comment || endsComment (lexeme.raw.drop commentOpen.length)

/-- A piece that runs on takes a newline at the end of the text. -/
theorem Running.newline {kind : Kind} {raw : Text} (h : Running kind raw)
    (hkind : kind ≠ .tag)
    (hopen : kind = .comment → hasEnd ⟨kind, raw⟩ = false) :
    Running kind (raw ++ [.char '\n']) := by
  cases h with
  | @interpolation s depth half h =>
      refine .interpolation (s := s ++ [.char '\n']) (?_ : _ =
        Nesting.opened depth none)
      rw [Nesting.run_append, h]
      simp [Nesting.next]
  | @header word s hword hs =>
      refine .header (s := s ++ [.char '\n']) ?_ (by simpa using hs)
      rw [keyword?_append (by simp; decide), hword]
  | @comment s h =>
      rw [List.append_assoc]
      refine .comment ?_
      rw [commentLength_newline h (by simpa [hasEnd] using hopen rfl),
        List.length_append]
      rfl
  | tag => exact absurd rfl hkind

/-- A comment that runs on but has its end is closed. -/
theorem Running.closed_of_hasEnd {raw : Text} (h : Running .comment raw)
    (hend : hasEnd ⟨.comment, raw⟩ = true) : Closed .comment raw := by
  cases h with
  | comment => exact .comment (by simpa [hasEnd] using hend)

/-- A closed comment has its end. -/
theorem Closed.hasEnd {kind : Kind} {raw : Text} (h : Closed kind raw) :
    Lexeme.hasEnd ⟨kind, raw⟩ = true := by
  cases h with
  | comment h => simpa [Lexeme.hasEnd] using h
  | _ => rfl

/-- The last piece has its end if it does without one more piece before it. -/
theorem hasEnd_cons {lexeme : Lexeme} {rest : List Lexeme}
    (h : lexeme.hasEnd = true)
    (hrest : ∀ l ∈ rest.getLast?, l.hasEnd = true) :
    ∀ l ∈ (lexeme :: rest).getLast?, l.hasEnd = true := by
  intro l hl
  rw [List.getLast?_cons] at hl
  cases hlast : rest.getLast? with
  | none =>
      obtain rfl : lexeme = l := by simpa [hlast] using hl
      exact h
  | some last =>
      obtain rfl : last = l := by simpa [hlast] using hl
      exact hrest last hlast

/-- **A newline at the end** of a layout changes nothing, or goes to a last piece
that runs on. -/
theorem Laid.newline {prev : Option Glyph} {lexemes : List Lexeme} {t : Text}
    (h : Laid true prev lexemes t) :
    ((∀ lexeme ∈ lexemes.getLast?, lexeme.hasEnd = true) ∧
      Laid true prev lexemes (t ++ [.char '\n'])) ∨
    ∃ front kind raw, lexemes = front ++ [⟨kind, raw⟩] ∧ kind ≠ .tag ∧
      (kind = .comment → hasEnd ⟨kind, raw⟩ = false) ∧
      Laid true prev (front ++ [⟨kind, raw ++ [.char '\n']⟩]) (t ++ [.char '\n']) := by
  induction h with
  | nil => exact .inl ⟨by simp, .blank rfl .nil⟩
  | @blank prev w lexemes t hw tail ih =>
      rcases ih with ⟨hend, hlaid⟩ | ⟨front, kind, raw, hlast, hkind, hopen, hlaid⟩
      · exact .inl ⟨hend, .blank hw hlaid⟩
      · exact .inr ⟨front, kind, raw, hlast, hkind, hopen, .blank hw hlaid⟩
  | @text prev s t lexemes hs htrim hne hmeet hnext tail ih =>
      have hmeet' : Meets s (t ++ [.char '\n']) := by
        cases t with
        | nil => exact fun r hr => .inl (by cases hr; rfl)
        | cons r t => exact hmeet
      rw [List.append_assoc]
      rcases ih with ⟨hend, hlaid⟩ | ⟨front, kind, raw, rfl, hkind, hopen, hlaid⟩
      · exact .inl ⟨hasEnd_cons rfl hend, .text hs htrim hne hmeet' hnext hlaid⟩
      · refine .inr ⟨⟨.text, s⟩ :: front, kind, raw, rfl, hkind, hopen,
          .text hs htrim hne hmeet' ?_ hlaid⟩
        cases front with
        | nil => simpa using hnext
        | cons => exact hnext
  | @closed prev kind raw t lexemes h hprev tail ih =>
      rw [List.append_assoc]
      rcases ih with ⟨hend, hlaid⟩ | ⟨front, kind', raw', rfl, hkind, hopen, hlaid⟩
      · exact .inl ⟨hasEnd_cons h.hasEnd hend, .closed h hprev hlaid⟩
      · exact .inr ⟨⟨kind, raw⟩ :: front, kind', raw', rfl, hkind, hopen,
          .closed h hprev hlaid⟩
  | @running prev kind raw hloose h hkind =>
      by_cases hend : kind = .comment ∧ hasEnd ⟨kind, raw⟩ = true
      · obtain ⟨rfl, hend⟩ := hend
        refine .inl ⟨by simpa using hend, ?_⟩
        exact .closed (h.closed_of_hasEnd hend) (by simp) (.blank rfl .nil)
      · have hopen : kind = .comment → hasEnd ⟨kind, raw⟩ = false := by
          intro hcomment
          simpa using fun h => hend ⟨hcomment, h⟩
        exact .inr ⟨[], kind, raw, rfl, hkind, hopen,
          .running rfl (h.newline hkind hopen) hkind⟩

/-! ## The tags among the pieces -/

/-- The literal of the token of a tag or a comment. -/
def tagLiteral (lexeme : Lexeme) : Text :=
  if lexeme.kind = .tag then Tag.normalize lexeme.raw else lexeme.raw

end Lexeme

namespace Token

/-- The literals of the tags and comments among tokens. -/
def tagLiterals (tokens : List Token) : List Text :=
  (tokens.filter Token.isTag).map Token.literal

/-- The literal of what was read, if it is a tag or a comment. -/
def tagOf (read : Kind × Text) : Option Text :=
  match read.1 with
  | .tag .. => some read.2
  | _ => none

/-- Tags are read as they are written. -/
theorem tagOf_token (tok : Token) : tagOf (tok.kind, renderInline tok) =
    if tok.isTag then some tok.literal else none := by
  cases hkind : tok.kind <;> simp [tagOf, Token.isTag, renderInline, hkind]

theorem tagLiterals_eq_filterMap (tokens : List Token) :
    tagLiterals tokens =
      (tokens.map fun tok => (tok.kind, renderInline tok)).filterMap tagOf := by
  induction tokens with
  | nil => rfl
  | cons tok rest ih =>
      rw [List.map_cons, List.filterMap_cons, tagOf_token, ← ih]
      cases htag : tok.isTag <;> simp [tagLiterals, htag]

theorem tagLiterals_eq_outline (tokens : List Token) :
    tagLiterals tokens = (outline tokens).filterMap tagOf := by
  induction tokens with
  | nil => rfl
  | cons tok rest ih =>
      rw [outline, List.map_cons, List.filterMap_cons, ← outline, ← ih]
      cases hkind : tok.kind <;> simp [tagLiterals, tagOf, Token.isTag, hkind]

/-- The tags that are read off pieces. -/
theorem filterMap_tagOf (lexemes : List Lexeme) :
    (lexemes.filterMap Lexeme.reading).filterMap tagOf =
    (lexemes.filter Lexeme.isMarkup).map Lexeme.tagLiteral := by
  induction lexemes with
  | nil => rfl
  | cons lexeme rest ih =>
      rw [List.filterMap_filterMap] at ih ⊢
      rw [List.filterMap_cons, ih]
      rcases lexeme with ⟨kind, raw⟩
      cases kind with
      | text =>
          by_cases h : raw.collapse =
            [] <;> simp [Lexeme.reading, tagOf, Lexeme.isMarkup, h]
      | _ =>
          simp [Lexeme.reading, tagOf, Lexeme.isMarkup, Lexeme.tagLiteral,
            Lexeme.tagKind]

end Token

end TemplateFormat.Markup

namespace TemplateFormat.Layout

open Text Markup Token

namespace Printer

/-- Every flattened line keeps the tags and comments it was made from. -/
def KeepsTags (p : Printer) : Prop :=
  ∀ s ∈ p.steps, ∀ merged, p.merged? s = some merged → merged.line = flatten (p.taken s) →
    tagLiterals (scan merged.line) = tagLiterals (p.taken s)

/-- **The tags of one step.**  What a step writes is read with as many tags as the
step takes, and with the very same ones unless it is a flattened line. -/
theorem reread_tags (p : Printer) {s : Step}
    (h : Token.Readable (s.token :: s.after)) :
    ((p.reread s).filterMap tagOf).length = (tagLiterals (p.taken s)).length ∧
    ((∀ merged, p.merged? s = some merged → merged.line ≠ flatten (p.taken s)) →
      (p.reread s).filterMap tagOf = tagLiterals (p.taken s)) := by
  cases hmerge : p.merged? s with
  | none =>
      have hsame : (p.reread s).filterMap tagOf = tagLiterals (p.taken s) := by
        rw [tagLiterals_eq_filterMap]
        simp [reread, taken, hmerge]
      exact ⟨by rw [hsame], fun _ => hsame⟩
  | some merged =>
      obtain ⟨hstart, hmerges⟩ := merges_of_merge? hmerge
      obtain ⟨lexemes, hlaid, -, -, hbare, hflat, -⟩ := laid_line hmerges hstart h
      have htaken : p.taken s = s.token :: s.after.take merged.absorbed := by
        simp [taken, hmerge]
      have hreadable : Token.Readable (s.token :: s.after.take merged.absorbed) := by
        refine Token.Readable.front (b := s.after.drop merged.absorbed) ?_
        rwa [List.cons_append, List.take_append_drop]
      have hread : (p.reread s).filterMap tagOf =
          (lexemes.filter Lexeme.isMarkup).map Lexeme.tagLiteral := by
        rw [reread, hmerge, ← filterMap_tagOf, ← Token.outline_of_laid hlaid]
      have htags : tagLiterals (p.taken s) =
          (((s.token :: s.after.take merged.absorbed).map Token.form).filter Lexeme.isMarkup).map
            Lexeme.tagLiteral := by
        rw [← filterMap_tagOf, hreadable.readings, htaken,
          tagLiterals_eq_filterMap]
      refine ⟨?_, fun hnot => ?_⟩
      · have hlen := congrArg List.length hbare
        rw [hread, htags, List.length_map, List.length_map]
        rwa [List.length_map, List.length_map] at hlen
      · rw [hread, htags, hflat.resolve_left (htaken ▸ hnot merged rfl)]

/-- Lists put together from parts of the same lengths are equal if the parts are. -/
theorem flatMap_eq_iff {α β : Type} {f g : α → List β} {items : List α}
    (h : ∀ a ∈ items, (f a).length = (g a).length) :
    items.flatMap f = items.flatMap g ↔ ∀ a ∈ items, f a = g a := by
  induction items with
  | nil => simp
  | cons a items ih =>
      rw [List.flatMap_cons, List.flatMap_cons, List.forall_mem_cons,
        ← ih fun b hb => h b (List.mem_cons_of_mem a hb)]
      constructor
      · intro heq
        exact List.append_inj heq (h a List.mem_cons_self)
      · rintro ⟨hfront, hback⟩
        rw [hfront, hback]

/-- **The tags of a layout** survive exactly when those of its flattened lines
do. -/
theorem tagLiterals_print_iff (p : Printer) (h : Token.Readable p.tokens) :
    tagLiterals (scan p.print) = tagLiterals p.tokens ↔ p.KeepsTags := by
  have hstep : ∀ s ∈ p.steps, Token.Readable (s.token :: s.after) :=
    fun s hs => readable_of_mem_steps h hs
  have hprint : tagLiterals (scan p.print) =
      p.steps.flatMap fun s => (p.reread s).filterMap tagOf := by
    rw [tagLiterals_eq_outline, p.outline_print h, List.filterMap_flatMap]
  have htokens : tagLiterals p.tokens = p.steps.flatMap fun s => tagLiterals (p.taken s) := by
    rw [tagLiterals_eq_filterMap, ← p.flatMap_taken, List.map_flatMap,
      List.filterMap_flatMap]
    simp only [← tagLiterals_eq_filterMap]
  rw [hprint, htokens, flatMap_eq_iff fun s hs => (p.reread_tags (hstep s hs)).1]
  refine forall_congr' fun s => forall_congr' fun hs => ?_
  constructor
  · intro hsame merged hmerge _
    rw [tagLiterals_eq_outline, ← hsame, reread, hmerge]
  · intro hkeeps
    by_cases hflat : ∃ merged, p.merged? s = some merged ∧
      merged.line = flatten (p.taken s)
    · obtain ⟨merged, hmerge, hline⟩ := hflat
      rw [← hkeeps merged hmerge hline, reread, hmerge, tagLiterals_eq_outline]
    · exact (p.reread_tags (hstep s hs)).2 fun merged hmerge hline => hflat
        ⟨merged, hmerge, hline⟩

/-- A token that is written as a comment is one. -/
theorem isTag_of_comment {tok : Token} {raw : Text}
    (h : tok.form = ⟨.comment, raw⟩) :
    tok.isTag = true ∧ tok.literal = raw := by
  have hkind : tok.formKind = .comment := congrArg Lexeme.kind h
  have hraw : renderInline tok = raw := congrArg Lexeme.raw h
  cases htok : tok.kind with
  | tag =>
      have htag : tok.isTag = true := by simp [Token.isTag, htok]
      exact ⟨htag, by rw [← hraw, renderInline_of_tag htag]⟩
  | control =>
      simp only [Token.formKind, htok] at hkind; split at hkind <;> cases hkind
  | _ => simp [Token.formKind, htok] at hkind

/-- The same for a layout with a newline at its end: a comment that lacks its end
would take the newline. -/
theorem tagLiterals_newline_iff (p : Printer) (h : Token.Readable p.tokens) :
    tagLiterals (scan (p.print ++ [.char '\n'])) = tagLiterals p.tokens ↔
      p.KeepsTags ∧ ∀ tok ∈ p.tokens.getLast?, tok.form.hasEnd = true := by
  obtain ⟨lexemes, hpieces⟩ := p.laid_print h
  have hprint : tagLiterals (scan p.print) =
      (lexemes.filter Lexeme.isMarkup).map Lexeme.tagLiteral := by
    rw [tagLiterals_eq_outline, Token.outline_of_laid hpieces.laid,
      filterMap_tagOf]
  rw [← p.tagLiterals_print_iff h, hprint]
  rcases hpieces.laid.newline with ⟨hend, hlaid⟩ | ⟨front, kind, raw, rfl, hkind,
    hopen, hlaid⟩
  · rw [tagLiterals_eq_outline, Token.outline_of_laid hlaid, filterMap_tagOf]
    refine (and_iff_left fun tok htok => ?_).symm
    obtain ⟨lexeme, hmem, rfl | ⟨-, htag⟩⟩ := hpieces.last tok htok
    · exact hend _ hmem
    · simp [Lexeme.hasEnd, htag]
  · obtain ⟨init, tok, htokens⟩ : ∃ init tok, p.tokens = init ++ [tok] := by
      rcases List.eq_nil_or_concat p.tokens with hnil | ⟨init, tok, htokens⟩
      · simpa using hpieces.stop hnil
      · exact ⟨init, tok, by rw [htokens, List.concat_eq_append]⟩
    have hlast : p.tokens.getLast? = some tok := by
      rw [htokens, List.getLast?_concat]
    have hform : tok.form = ⟨kind, raw⟩ := by
      obtain ⟨lexeme, hmem, hsame⟩ := hpieces.last tok hlast
      obtain rfl : ⟨kind, raw⟩ = lexeme := by simpa using hmem
      exact (hsame.resolve_right fun htag => hkind htag.1).symm
    rw [tagLiterals_eq_outline (scan (p.print ++ _)), Token.outline_of_laid hlaid,
      filterMap_tagOf]
    by_cases hcomment : kind = .comment
    · -- the newline is part of the last literal, which the last token lacks
      subst hcomment
      have hlost : tok.form.hasEnd = false := by rw [hform]; exact hopen rfl
      obtain ⟨htag, hliteral⟩ := isTag_of_comment hform
      refine iff_of_false (fun heq => ?_) fun hkeeps => ?_
      · rw [htokens] at heq
        have := congrArg List.getLast? heq
        simp [tagLiterals, htag, Lexeme.isMarkup, Lexeme.tagLiteral,
          hliteral] at this
      · rw [hkeeps.2 tok hlast] at hlost
        cases hlost
    · have hplain : ∀ raw : Text, Lexeme.isMarkup ⟨kind, raw⟩ = false := by
        intro raw
        simp [Lexeme.isMarkup, hkind, hcomment]
      have hend : tok.form.hasEnd = true := by
        rw [hform]; simp [Lexeme.hasEnd, hcomment]
      simp [List.filter_append, hplain, hlast, hend]

end Printer

/-! ## Documents -/

/-- Nothing is read off a blank text. -/
theorem tagLiterals_blank {source : Text} (h : ∀ r ∈ source, r.isBlank = true) :
    tagLiterals (scan source) = [] := by
  have hlaid : Lexeme.Laid false none [] (source ++ []) := .blanks h .nil
  rw [List.append_nil] at hlaid
  rw [tagLiterals_eq_outline, Token.outline_of_laid hlaid]
  rfl

/-- **When the tags of a document survive.**  With valid options every source whose
tags all end has an output.  Its tags and comments are those of the source exactly
when every line that the printer flattens keeps its own, and no comment that lacks
its end stands before a final newline. -/
theorem tagLiterals_format_iff {o : Options} (hindent : 0 < o.indentSize)
    (hthreshold : 0 < o.threshold) {source : Text}
    (hends : ∀ lexeme ∈ Lexeme.split (unifyLineEnds source).trim,
      lexeme.isTerminated = true) :
    ∃ out, format o source = .ok out ∧
      (tagLiterals (scan out) = tagLiterals (scan (unifyLineEnds source).trim) ↔
        (Printer.ofSource o (unifyLineEnds source).trim).KeepsTags ∧
        ((unifyLineEnds source).endsWith [.char '\n'] = true →
          ∀ tok ∈ (scan (unifyLineEnds source).trim).getLast?,
            tok.form.hasEnd = true)) := by
  cases hsource : source.isBlank with
  | true =>
      have hblank : ∀ r ∈ source, r.isBlank = true := List.all_eq_true.mp hsource
      have hnone : (unifyLineEnds source).trim = [] :=
        trim_eq_nil (by rw [strip_unifyLineEnds]; exact strip_eq_nil_of_blank hblank)
      refine ⟨source, format_eq_self hindent hthreshold hsource, ?_⟩
      rw [hnone, tagLiterals_blank hblank]
      refine iff_of_true rfl ⟨fun s hs => ?_, fun _ tok htok => ?_⟩
      · cases hs
      · cases htok
  | false =>
      have hreadable : Token.Readable
        (Printer.ofSource o (unifyLineEnds source).trim).tokens :=
        Token.readable_scan (trimmed_trim (unifyLineEnds source)) hends
      refine ⟨layout o source, format_eq_layout hindent hthreshold hsource, ?_⟩
      rw [layout]
      split
      · next hnewline =>
          simp only [hnewline, forall_const]
          exact Printer.tagLiterals_newline_iff _ hreadable
      · next hnewline =>
          simp only [hnewline, Bool.false_eq_true, false_implies, and_true]
          exact Printer.tagLiterals_print_iff _ hreadable

/-- A comment that lacks its end takes the newline behind it, so it does not survive. -/
theorem tagLiterals_format_open_comment :
    let source := text "<p title='a  b'>x</p>\n<!-- c \n"
    (∀ lexeme ∈ Lexeme.split (unifyLineEnds source).trim,
      lexeme.isTerminated = true) ∧
    ∃ out, format {} source = .ok out ∧
      tagLiterals (scan out) ≠ tagLiterals (scan (unifyLineEnds source).trim) := by
  intro source
  have hends : ∀ lexeme ∈ Lexeme.split (unifyLineEnds source).trim,
    lexeme.isTerminated = true := by
    decide
  have hlast : ¬∀ tok ∈ (scan (unifyLineEnds source).trim).getLast?, tok.form.hasEnd = true := by
    decide
  obtain ⟨out, hout, hiff⟩ := tagLiterals_format_iff (o := {}) (by decide) (by decide) hends
  exact ⟨hends, out, hout, fun hsurvive => hlast ((hiff.mp hsurvive).2 (by decide))⟩

/-- A flattened line loses a space inside a quoted value. -/
theorem tagLiterals_format_quoted :
    let source := text "<div title=\x22a  b\x22><b>x</b></div>"
    let out := text "<div title=\x22a b\x22><b>x</b></div>"
    (∀ lexeme ∈ Lexeme.split (unifyLineEnds source).trim,
      lexeme.isTerminated = true) ∧
    format {} source = .ok out ∧
      tagLiterals (scan out) ≠ tagLiterals (scan (unifyLineEnds source).trim) := by
  intro source out
  have hlayout : layout {} source = out := by decide +kernel
  refine ⟨by decide, ?_, by decide⟩
  rw [← hlayout]
  exact format_eq_layout (by decide) (by decide) (by decide)

end TemplateFormat.Layout
