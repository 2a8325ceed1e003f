import TemplateFormat.Layout.Document
import TemplateFormat.Proofs.Interpolations
import TemplateFormat.Proofs.Reading
import TemplateFormat.Proofs.Respacing

/-!
# Formatting keeps the content

Whatever the markup and whichever way each token is printed, formatting adds
and removes white space only: the glyphs of the output that are not blank are
those of the source, in the same order.

The proof follows the glyphs through the formatter.  The tokens of a source
hold its glyphs (`Token.ink_scan`).  Rewriting an interpolation
(`Interpolation.strip_normalize`) and merging an element into one line
(`Merges.strip_line`) move blanks only.  One step of the printer writes exactly
the tokens it takes (`ink_step`), and by induction a run writes the tokens it is
given (`ink_run`).
-/

namespace TemplateFormat.Layout

open Text Markup

/-- A token on a line with others keeps its glyphs. -/
@[simp] theorem strip_renderInline (tok : Token) :
    strip (renderInline tok) = strip tok.literal := by
  rw [renderInline]
  split <;> simp

/-! ## Merged elements -/

/-- Renderings side by side have the glyphs of their tokens. -/
theorem strip_renderings (tokens : List Token) :
    strip ((tokens.map renderInline).flatten) = Token.ink tokens := by
  induction tokens with
  | nil => rfl
  | cons tok rest ih => simp [ih]

/-- Joining content as it was written adds blanks only. -/
theorem strip_joinAsWritten (parts : List Token) :
    strip (joinAsWritten parts) = Token.ink parts := by
  cases parts with
  | nil => rfl
  | cons first rest =>
      have hrest : strip (rest.flatMap fun tok =>
          if tok.spaceBefore then .char ' ' :: renderInline tok else renderInline tok) =
          Token.ink rest := by
        induction rest with
        | nil => rfl
        | cons tok rest ih =>
            rw [List.flatMap_cons, strip_append, ih]
            split <;> simp
      rw [joinAsWritten, strip_append, hrest]
      simp

/-- Joined in either way, content keeps its glyphs. -/
theorem strip_joined {parts : List Token} {content : Text}
    (h : content = joinAsWritten parts ∨
      content = join [.char ' '] (parts.map renderInline)) :
    strip content = Token.ink parts := by
  rcases h with rfl | rfl
  · exact strip_joinAsWritten parts
  · rw [strip_join rfl, strip_renderings]

/-- An element is built from its tags and its content, joined in one of two
ways. -/
theorem buildElement_eq (ix : SourceIndex) (opening : Text) (parts : List Token)
    (closing : Text)
    (memo : SourceIndex.Memo) : ∃ content,
      (content = joinAsWritten parts ∨
        content = join [.char ' '] (parts.map renderInline)) ∧
      (buildElement ix opening parts closing memo).1 = opening ++ content.trim ++ closing := by
  rw [buildElement]
  split
  · next h =>
      rw [List.isEmpty_iff.mp h]
      exact ⟨[], .inl rfl, by simp [trim, trimEnd, trimStart]⟩
  · dsimp only
    split
    · exact ⟨_, .inl rfl, rfl⟩
    · exact ⟨_, .inr rfl, rfl⟩

/-- What `gather` finds is the front of the tokens it searched. -/
theorem gather_eq_some {name : Text} {parts tokens found : List Token}
    {closing : Token}
    (h : gather name parts tokens = some (found, closing)) :
    ∃ content rest, found = parts.reverse ++ content ∧
      tokens = content ++ closing :: rest ∧
      (∀ tok ∈ content, tok.isContent = true) ∧
      closing.isClosingTag = true ∧ closing.name = name := by
  induction tokens generalizing parts with
  | nil => simp [gather] at h
  | cons tok tokens ih =>
      rw [gather] at h
      split at h
      · next hclose =>
          cases h
          exact ⟨[], tokens, by simp, rfl, by simp, by simpa using hclose⟩
      · split at h
        · next hcontent =>
            obtain ⟨content, rest, rfl, rfl, hall, hlast⟩ := ih h
            exact ⟨tok :: content, rest, by simp,
              rfl, by simpa [hcontent] using hall, hlast⟩
        · cases h

/-- A token list that starts like a window of another starts like it. -/
theorem eq_append_of_take {α : Type} {n : Nat} {a b front : List α}
    (h : a.take n = front ++ b) :
    ∃ rest, a = front ++ rest :=
  ⟨b ++ a.drop n, by rw [← List.append_assoc, ← h, List.take_append_drop]⟩

/-- The matching closing tag stands where `closerIndex?` says. -/
theorem closerIndex?_eq_some {name : Text} {nest n found : Nat}
    {tokens : List Token}
    (h : closerIndex? name nest n tokens = some found) :
    ∃ inner closing rest, tokens = inner ++ closing :: rest ∧
      found = n + inner.length ∧
      closing.isClosingTag = true ∧ closing.name = name := by
  induction tokens generalizing nest n with
  | nil => simp [closerIndex?] at h
  | cons tok tokens ih =>
      have hlater : ∀ nest', closerIndex? name nest' (n + 1) tokens = some found →
          ∃ inner closing rest, tok :: tokens = inner ++ closing :: rest ∧
            found = n + inner.length ∧ closing.isClosingTag = true ∧ closing.name = name := by
        intro nest' h'
        obtain ⟨inner, closing, rest, rfl, rfl, hlast⟩ := ih h'
        exact ⟨tok :: inner, closing, rest,
          rfl, by simp only [List.length_cons]; omega, hlast⟩
      rw [closerIndex?] at h
      split at h
      · exact hlater _ h
      · next hname =>
          split at h
          · exact hlater _ h
          · next hclosing =>
              split at h
              · cases h
                have htag : tok.isTag = true ∧ tok.name = name := by
                  simpa using hname
                exact ⟨[], tok, tokens, rfl, by simp, by simpa using hclosing, htag.2⟩
              · exact hlater _ h

/-- The front of a list up to and including an item. -/
theorem take_through {α : Type} (front rest : List α) (item : α) :
    (front ++ item :: rest).take (front.length + 1) = front ++ [item] := by
  rw [List.take_append, List.take_of_length_le (by omega)]
  simp

/-- **What a merged element is made of**: the start tag `tok`, the tokens behind
it that it takes, the last of them a closing tag, and how they stand on the
line. -/
inductive Merges (tok : Token) : (after : List Token) → Merged → Prop
  | content {parts rest : List Token} {closing : Token} {content : Text}
      (hparts : ∀ part ∈ parts, part.isContent = true)
      (hclosing : closing.isClosingTag = true)
      (hcontent : content = joinAsWritten parts ∨
        content = join [.char ' '] (parts.map renderInline)) :
      Merges tok (parts ++ closing :: rest)
        ⟨tok.literal ++ content.trim ++ closing.literal, parts.length + 1⟩
  | tight {inner rest : List Token} {closing : Token}
      (hclosing : closing.isClosingTag = true) :
      Merges tok (inner ++ closing :: rest)
        ⟨flatten (tok :: (inner ++ [closing])), inner.length + 1⟩

/-- The last token that a merged element takes is a closing tag. -/
theorem Merges.getLast? {tok : Token} {after : List Token} {merged : Merged}
    (h : Merges tok after merged) :
    ∃ closing, (after.take merged.absorbed).getLast? = some closing ∧
      closing.isClosingTag = true := by
  cases h with
  | @content parts rest closing content hparts hclosing =>
      exact ⟨closing, by rw [take_through, List.getLast?_concat], hclosing⟩
  | @tight inner rest closing hclosing =>
      exact ⟨closing, by rw [take_through, List.getLast?_concat], hclosing⟩

/-- A merged element takes tokens that are there. -/
theorem Merges.absorbed_le {tok : Token} {after : List Token} {merged : Merged}
    (h : Merges tok after merged) : merged.absorbed ≤ after.length := by
  cases h <;> simp

/-- What a content merge finds. -/
theorem merges_of_contentMerge {o : Options} {ix : SourceIndex} {tok : Token}
    {after : List Token}
    {memo memo' : SourceIndex.Memo} {merged : Merged}
    (h : contentMerge o ix tok after memo = (some merged, memo')) :
    Merges tok after merged := by
  rw [contentMerge] at h
  split at h
  · cases h
  · next parts closing hgather =>
      obtain ⟨found, rest, hparts, htake, hcontent, hclosing, -⟩ :=
        gather_eq_some hgather
      obtain rfl : parts = found := by simpa using hparts
      obtain ⟨later, rfl⟩ : ∃ later, after = (parts ++ [closing]) ++ later :=
        eq_append_of_take (by simpa using htake)
      obtain ⟨content, hjoined, hline⟩ :=
        buildElement_eq ix tok.literal parts closing.literal memo
      simp only [Prod.mk.injEq] at h
      obtain ⟨hmerged, -⟩ := h
      split at hmerged
      · cases hmerged
        rw [hline, List.append_assoc]
        exact .content hcontent hclosing hjoined
      · cases hmerged

/-- What a tight merge finds. -/
theorem merges_of_tightMerge {o : Options} {ix : SourceIndex} {tok : Token}
    {after : List Token}
    {memo memo' : SourceIndex.Memo} {merged : Merged}
    (h : tightMerge o ix tok after memo = (some merged, memo')) : Merges tok after merged := by
  rw [tightMerge] at h
  split at h
  · cases h
  · next n hcloser =>
      obtain ⟨inner, closing, rest, htake, hn, hclosing, -⟩ :=
        closerIndex?_eq_some hcloser
      obtain rfl : inner.length = n := by omega
      obtain ⟨later, rfl⟩ : ∃ later, after = (inner ++ [closing]) ++ later :=
        eq_append_of_take (by simpa using htake)
      have hlen : inner.length + 1 = (inner ++ [closing]).length := by simp
      rw [hlen, List.take_left, ← hlen] at h
      simp only [Prod.mk.injEq] at h
      obtain ⟨hmerged, -⟩ := h
      split at hmerged
      · cases hmerged
        rw [List.append_assoc]
        exact .tight hclosing
      · cases hmerged

/-- **A merged element** has the glyphs of the start tag and the tokens it
takes. -/
theorem Merges.strip_line {tok : Token} {after : List Token} {merged : Merged}
    (h : Merges tok after merged) :
    strip merged.line = strip tok.literal ++ Token.ink (after.take merged.absorbed) := by
  cases h with
  | @content parts rest closing content hparts hclosing hcontent =>
      simp [take_through, strip_joined hcontent]
  | tight hclosing => simp [take_through, strip_flatten, strip_renderings]

/-! ## The printer -/

namespace Printer

/-- The glyphs of the lines written so far. -/
def State.ink (st : State) : Text := strip st.lines.reverse.flatten

/-- The unit of indentation is blank. -/
theorem unit_blank (o : Options) : ∀ r ∈ o.unit, r.isBlank = true := by
  intro r hr
  rw [Options.unit] at hr
  split at hr
  · rw [List.eq_of_mem_replicate hr]
    rfl
  · rw [List.mem_singleton.mp hr]
    rfl

/-- Indentation is blank. -/
theorem indentation_blank (p : Printer) (depth : Nat) :
    ∀ r ∈ p.indentation depth, r.isBlank = true := by
  intro r hr
  obtain ⟨unit, hunit, hr⟩ := List.mem_flatten.mp hr
  rw [List.eq_of_mem_replicate hunit] at hr
  exact unit_blank p.options r hr

/-- A new line adds its glyphs. -/
@[simp] theorem ink_writeLine (p : Printer) (st : State) (line : Text) :
    (p.writeLine st line).ink = st.ink ++ strip line := by
  have hindent := strip_eq_nil_of_blank (p.indentation_blank st.depth)
  simp [State.ink, writeLine, hindent]

/-- What is added to the last line adds its glyphs. -/
theorem ink_appendToLine {st : State} (hlines : st.lines ≠ []) (more : Text) :
    (appendToLine st more).ink = st.ink ++ strip more := by
  obtain ⟨last, rest, h⟩ := List.exists_cons_of_ne_nil hlines
  simp [State.ink, appendToLine, h]

/-- A step at a text token writes the token. -/
theorem ink_stepText (p : Printer) (st : State) (before : List Token)
    (tok : Token) :
    (p.stepText st before tok).ink = st.ink ++ strip tok.literal := by
  rw [stepText]
  split
  · next htrailing =>
      -- trailing text is added only where there is a line to add it to
      have hlines : st.lines ≠ [] := by
        simp only [isTrailing, Bool.and_eq_true] at htrailing
        simpa using htrailing.1.2
      dsimp only
      split
      · have hspaced : (appendToLine st [.char ' ']).lines ≠ [] := by
          obtain ⟨last, rest, h⟩ := List.exists_cons_of_ne_nil hlines
          simp [appendToLine, h]
        rw [ink_appendToLine hspaced, ink_appendToLine hlines]
        simp
      · exact ink_appendToLine hlines _
  · exact ink_writeLine p st _

/-- A step at a block token writes the token. -/
theorem ink_stepBlock (p : Printer) (st : State) (tok : Token) :
    (p.stepBlock st tok).ink = st.ink ++ strip tok.literal := by
  have hdepth : ∀ (st : State) (depth : Nat), State.ink { st with depth } = st.ink :=
    fun _ _ => rfl
  rw [stepBlock]
  split <;> split <;> simp [hdepth]

/-- **One step** writes the token it stands at and those it takes. -/
theorem ink_step (p : Printer) (st : State) (before : List Token) (tok : Token)
    (after : List Token) :
    (p.step st before tok after).2.ink =
      st.ink ++ strip tok.literal ++
        Token.ink (after.take (p.step st before tok after).1) := by
  have hmemo : ∀ (st : State) memo, State.ink { st with memo } = st.ink :=
    fun _ _ => rfl
  rw [step]
  split
  · simp
  · simp [ink_stepText]
  · split
    · split
      · next merged memo h => simp [hmemo, (merges_of_contentMerge h).strip_line]
      · next memo h =>
          split
          · next merged memo h =>
              simp [hmemo, (merges_of_tightMerge h).strip_line]
          · simp [ink_stepBlock, hmemo]
    · simp [ink_stepBlock]

/-- **A run** writes the tokens it is given, those already taken aside. -/
theorem ink_run (p : Printer) (skip : Nat) (st : State)
    (before tokens : List Token) :
    (p.run skip st before tokens).ink = st.ink ++ Token.ink (tokens.drop skip) := by
  induction tokens generalizing skip st before with
  | nil => simp [run]
  | cons tok after ih =>
      cases skip with
      | succ skip => simp [run, ih]
      | zero =>
          simp only [run, ih, ink_step, List.drop_zero, Token.ink_cons,
            List.append_assoc]
          rw [← Token.ink_append, List.take_append_drop]

/-- The layout of a source holds the glyphs of its tokens. -/
theorem strip_print (p : Printer) : strip p.print = Token.ink p.tokens := by
  rw [print, strip_join rfl]
  simpa [State.ink, final] using p.ink_run 0 {} [] p.tokens

end Printer

/-! ## Documents -/

/-- Unifying line ends changes nothing but blanks. -/
theorem strip_unifyFrom (afterReturn : Bool) (seen s : Text) :
    strip (unifyFrom afterReturn seen s) = strip seen.reverse ++ strip s := by
  induction s generalizing afterReturn seen with
  | nil => simp [unifyFrom]
  | cons r s ih =>
      have hcons : strip (r :: s) = strip [r] ++ strip s := strip_append [r] s
      rw [unifyFrom]
      split
      · next hr =>
          simp [ih, strip_cons_of_blank s (show r.isBlank = true by rw [hr]; rfl)]
      · split
        · next hr => simp [ih, show r = .char '\n' by simp_all]
        · simp [ih, hcons]

@[simp] theorem strip_unifyLineEnds (s : Text) :
    strip (unifyLineEnds s) = strip s :=
  strip_unifyFrom false [] s

/-- The layout of a source holds the glyphs of the source. -/
theorem strip_layout (o : Options) (source : Text) :
    strip (layout o source) = strip source := by
  have hprint : strip
    (Printer.ofSource o (unifyLineEnds source).trim).print = strip source := by
    rw [Printer.strip_print, Printer.ofSource, Token.ink_scan, strip_trim,
      strip_unifyLineEnds]
  rw [layout]
  split
  · rw [strip_append, hprint]
    simp
  · exact hprint

/-- Valid options are the ones with a positive indent size and threshold. -/
theorem validate_eq_ok {o : Options} (hindent : 0 < o.indentSize)
    (hthreshold : 0 < o.threshold) :
    o.validate = .ok () := by
  rw [Options.validate, if_neg (by omega), if_neg (by omega)]

/-- With valid options a document that is not blank is laid out. -/
theorem format_eq_layout {o : Options} (hindent : 0 < o.indentSize)
    (hthreshold : 0 < o.threshold)
    {source : Text} (hsource : source.isBlank = false) :
    format o source = .ok (layout o source) := by
  simp [format, validate_eq_ok hindent hthreshold, hsource, bind, Except.bind,
    pure, Except.pure]

/-- With valid options a blank document is left alone. -/
theorem format_eq_self {o : Options} (hindent : 0 < o.indentSize)
    (hthreshold : 0 < o.threshold)
    {source : Text} (hsource : source.isBlank = true) : format o source = .ok source := by
  simp [format, validate_eq_ok hindent hthreshold, hsource, bind, Except.bind,
    pure, Except.pure]

/-- **Formatting keeps the content.**  With valid options every source has an
output, and the two agree once white space is removed: no other glyph is lost,
repeated, moved or made up. -/
theorem strip_format {o : Options} (hindent : 0 < o.indentSize)
    (hthreshold : 0 < o.threshold)
    (source : Text) : ∃ out, format o source = .ok out ∧ strip out = strip source := by
  cases hsource : source.isBlank with
  | true => exact ⟨source, format_eq_self hindent hthreshold hsource, rfl⟩
  | false =>
      exact ⟨layout o source, format_eq_layout hindent hthreshold hsource,
        strip_layout o source⟩

/-- An unterminated tag behind a merged element, with the default options. -/
theorem strip_format_unterminated :
    ∃ out, format {}
      (text "<p> a <b>\x7b\x7bx|y\x7d\x7d </b></p>\r\n<i title='c  > ") = .ok out ∧
      strip out = text "<p>a<b>\x7b\x7bx|y\x7d\x7d</b></p><ititle='c>" :=
  strip_format (by decide) (by decide) _

end TemplateFormat.Layout
