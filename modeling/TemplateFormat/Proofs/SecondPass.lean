import TemplateFormat.Proofs.LineEnds
import TemplateFormat.Proofs.SecondReading

/-!
# When a second pass changes nothing

A document that was formatted is meant to stay as it is when it is formatted
again.  Whether it does depends on one thing only: at each step the printer decides
whether to put an element on one line, and the second pass takes this decision
against the text that the first has written.  `format_format_iff` says that, without
interpolations, the second pass leaves the document alone exactly when it decides as
the first did at every step.

If the decisions are the same, so are the lines: the two passes go abreast
(`Abreast`), since a token that was written alone is read as the same token.  If the
decisions differ somewhere, so do the lines: where one pass starts a new line inside
an element that the other puts on one line, the second has no newline
(`Merges.no_stop`, `exists_stop`).

* `written_iff_decisions` — the induction over the two runs;
* `print_print_iff` — the law for layouts;
* `format_format_iff` — the law for documents.
-/

namespace TemplateFormat.Text

/-! ## Texts with the same glyphs -/

/-- What follows a text that has all the glyphs is blank. -/
theorem blank_of_strip_append {a c : Text} (h : strip (a ++ c) = strip a) :
    ∀ r ∈ c, r.isBlank = true := by
  rw [strip_append] at h
  exact strip_eq_nil_iff.mp (List.append_right_eq_self.mp h)

/-- Blanks at the end of a text that does not end in a blank are none. -/
theorem eq_nil_of_blank {a c : Text} (hc : ∀ r ∈ c, r.isBlank = true)
    (hlast : ∀ r ∈ (a ++ c).getLast?, r.isBlank = false) : c = [] := by
  cases hend : c.getLast? with
  | none => exact List.getLast?_eq_none_iff.mp hend
  | some r =>
      have hink := hlast r (by rw [List.getLast?_append, hend]; rfl)
      rw [hc r (List.mem_of_getLast? hend)] at hink
      cases hink

/-- Two starts of a text that have the same glyphs, and end in one, are the
same. -/
theorem eq_of_strip_eq {a b x y : Text} (h : a ++ x = b ++ y)
    (hstrip : strip a = strip b)
    (ha : ∀ r ∈ a.getLast?, r.isBlank = false)
    (hb : ∀ r ∈ b.getLast?, r.isBlank = false) :
    a = b := by
  rcases List.append_eq_append_iff.mp h with ⟨c, rfl, -⟩ | ⟨c, rfl, -⟩
  · rw [eq_nil_of_blank (blank_of_strip_append hstrip.symm) hb, List.append_nil]
  · rw [eq_nil_of_blank (blank_of_strip_append hstrip) ha, List.append_nil]

/-- Between two glyphs that touch no blank stands. -/
theorem not_blank_between {front back u v : Text} {b : Glyph}
    (h : front ++ back = u ++ b :: v)
    (hb : b.isBlank = true) (hfront : ∀ r ∈ front.getLast?, r.isBlank = false)
    (hback : ∀ r ∈ back.head?, r.isBlank = false) (hne : back ≠ []) :
    strip u ≠ strip front := by
  intro hstrip
  rcases List.append_eq_append_iff.mp h with ⟨c, rfl, hc⟩ | ⟨c, rfl, hc⟩
  · -- the blank stands behind the glyphs of the front, at the start of the back
    have hblank := blank_of_strip_append hstrip
    obtain ⟨r, rest, rfl⟩ := List.exists_cons_of_ne_nil hne
    have hr : r.isBlank = true := by
      cases c with
      | nil =>
          obtain ⟨rfl, -⟩ := List.cons.inj hc
          exact hb
      | cons a c =>
          obtain ⟨rfl, -⟩ := List.cons.inj hc
          exact hblank _ List.mem_cons_self
    rw [hback r rfl] at hr
    cases hr
  · obtain rfl := eq_nil_of_blank (blank_of_strip_append hstrip.symm) hfront
    rw [List.nil_append] at hc
    have hr := hback b (by rw [← hc]; rfl)
    rw [hb] at hr
    cases hr

/-- A text that starts with a trimmed one starts with a glyph that is not blank. -/
theorem Trimmed.head_append {s : Text} (h : Trimmed s) (hne : s ≠ []) (t : Text) :
    ∀ r ∈ (s ++ t).head?, r.isBlank = false := by
  obtain ⟨a, s, rfl⟩ := List.exists_cons_of_ne_nil hne
  exact fun r hr => h.head r (by simpa using hr)

/-- Blanks before a glyph can be told from it. -/
theorem blanks_unique {a b x y : Text} (h : a ++ x = b ++ y)
    (ha : ∀ r ∈ a, r.isBlank = true)
    (hb : ∀ r ∈ b, r.isBlank = true) (hx : ∀ r ∈ x.head?, r.isBlank = false)
    (hy : ∀ r ∈ y.head?, r.isBlank = false) : x = y := by
  have hnil : ∀ {c z : Text}, (∀ r ∈ c, r.isBlank = true) →
      (∀ r ∈ (c ++ z).head?, r.isBlank = false) → c = [] := by
    intro c z hc hz
    cases c with
    | nil => rfl
    | cons r c =>
        have hr := hz r rfl
        rw [hc r List.mem_cons_self] at hr
        cases hr
  rcases List.append_eq_append_iff.mp h with ⟨c, rfl, rfl⟩ | ⟨c, rfl, rfl⟩
  · rw [hnil (fun r hr => hb r (List.mem_append_right a hr)) hx, List.nil_append]
  · rw [hnil (fun r hr => ha r (List.mem_append_right b hr)) hy, List.nil_append]

end TemplateFormat.Text

namespace TemplateFormat.Layout

open Text Markup

/-! ## Where a merged element has no newline -/

/-- A token other than an interpolation is written as it is. -/
theorem renderInline_of_plain {tok : Token} (h : tok.kind ≠ .interpolation) :
    renderInline tok = tok.literal := by
  rw [renderInline]
  split
  · next hkind => exact absurd hkind h
  · rfl

/-- Between two tags there is at most one text, if nothing else is there but
texts. -/
theorem texts_of_readable {parts rest : List Token}
    (h : Token.Readable (parts ++ rest))
    (hparts : ∀ part ∈ parts, part.kind = .text) : parts = [] ∨ ∃ part, parts = [part] := by
  match parts with
  | [] => exact .inl rfl
  | [part] => exact .inr ⟨part, rfl⟩
  | first :: second :: parts =>
      have hnext := h.not_text (hparts first (by simp)) second rfl
      exact absurd (hparts second (by simp)) hnext

/-- **A merged element is unbroken**: no newline stands where one of its tokens ends
and another starts. -/
theorem Merges.unbroken {tok : Token} {after : List Token} {merged : Merged}
    (h : Merges tok after merged) (hstart : tok.isStartTag = true)
    (hreadable : Token.Readable (tok :: after))
    (hplain : ∀ t ∈ after, t.kind ≠ .interpolation) {n : Nat}
    (hn : n < merged.absorbed)
    {u v : Text} (hline : merged.line = u ++ .char '\n' :: v) :
    strip u ≠ Token.ink (tok :: after.take n) := by
  have hcrisp := Printer.crisp_of_readable hreadable
  cases h with
  | tight =>
      have hmem : .char '\n' ∈ u ++ .char '\n' :: v := by simp
      rw [← hline] at hmem
      exact absurd hmem (newline_notMem_flatten _)
  | @content parts rest closing content hparts hclosing hcontent =>
      have htok := hcrisp tok List.mem_cons_self
      have hend := hcrisp closing (by simp)
      rw [Printer.renderInline_of_tag
        (Printer.isTag_of_isStartTag hstart)] at htok
      rw [Printer.renderInline_of_tag
        (Printer.isTag_of_isClosingTag hclosing)] at hend
      have htexts : ∀ part ∈ parts, part.kind = .text := by
        intro part hpart
        rcases form_of_isContent (hparts part hpart) with ⟨htext, -⟩ | ⟨hinter, -⟩
        · exact htext
        · exact absurd hinter (hplain part (List.mem_append_left _ hpart))
      rcases texts_of_readable hreadable.tail htexts with rfl | ⟨part, rfl⟩
      · obtain rfl : n = 0 := by simpa using hn
        obtain rfl : content = [] := by rcases hcontent with rfl | rfl <;> rfl
        have hnil : trim [] = [] := trim_eq_nil rfl
        have hcut : tok.literal ++ closing.literal = u ++ .char '\n' :: v := by
          simpa [hnil] using hline
        have hstop := not_blank_between hcut rfl htok.1.last hend.1.head hend.2
        simpa using hstop
      · have hpart := hcrisp part (by simp)
        rw [renderInline_of_plain (hplain part (by simp))] at hpart
        obtain rfl : content = part.literal := by
          have hrender := renderInline_of_plain (hplain part (by simp))
          rcases hcontent with rfl | rfl <;> simp [joinAsWritten, hrender]
        rw [hpart.1.trim_eq] at hline
        have hlast : ∀ r ∈ (tok.literal ++ part.literal).getLast?, r.isBlank = false := by
          obtain ⟨body, last, hbody, hink⟩ := hpart.1.exists_last hpart.2
          intro r hr
          obtain rfl : last = r := by simpa [hbody] using hr
          exact hink
        obtain rfl | rfl : n = 0 ∨ n = 1 := by
          have : n < 2 := by simpa using hn
          omega
        · have hcut : tok.literal ++ (part.literal ++ closing.literal) =
            u ++ .char '\n' :: v := by
            rw [← List.append_assoc]
            exact hline
          have hstop :=
            not_blank_between hcut rfl htok.1.last (hpart.1.head_append hpart.2 _)
            (by simp [hpart.2])
          simpa using hstop
        · have hstop := not_blank_between hline rfl hlast hend.1.head hend.2
          simpa using hstop

/-- A readable token has a glyph that is not blank. -/
theorem ink_ne_nil {tokens : List Token} (h : Token.Readable tokens) :
    ∀ tok ∈ tokens, strip tok.literal ≠ [] := by
  intro tok htok hnil
  obtain ⟨htrim, hne⟩ := Printer.crisp_of_readable h tok htok
  obtain ⟨r, rest, hcons⟩ := List.exists_cons_of_ne_nil hne
  rw [← strip_renderInline, hcons, strip_cons_of_ink rest
    (htrim.head r (by rw [hcons]; rfl))] at hnil
  cases hnil

/-- Each token that a merged element takes adds glyphs to it. -/
theorem Merges.length_ink_lt {tok : Token} {after : List Token} {merged : Merged}
    (h : Merges tok after merged) (hreadable : Token.Readable (tok :: after)) {n : Nat}
    (hn : n < merged.absorbed) :
    (Token.ink (tok :: after.take n)).length < (strip merged.line).length := by
  have hsplit : after.take merged.absorbed =
    after.take n ++ (after.take merged.absorbed).drop n := by
    have := (List.take_append_drop n (after.take merged.absorbed)).symm
    rwa [List.take_take, Nat.min_eq_left (Nat.le_of_lt hn)] at this
  obtain ⟨next, rest, hnext⟩ : ∃ next rest,
    (after.take merged.absorbed).drop n = next :: rest := by
    refine List.exists_cons_of_ne_nil fun hnil => ?_
    have hlen := h.absorbed_le
    have := congrArg List.length hnil
    simp only [List.length_drop, List.length_take, List.length_nil] at this
    omega
  have hmem : next ∈ after := by
    have : next ∈ (after.take merged.absorbed).drop n := by simp [hnext]
    exact List.mem_of_mem_take (List.mem_of_mem_drop this)
  have hink := ink_ne_nil hreadable next (List.mem_cons_of_mem tok hmem)
  have hpos := List.length_pos_iff.mpr hink
  rw [h.strip_line, hsplit, hnext]
  simp only [Token.ink_cons, Token.ink_append, List.length_append]
  omega

/-- **No stop inside a merged element.**  A text that starts with a merged element
has no newline where one of its tokens ends. -/
theorem Merges.no_stop {tok : Token} {after : List Token} {merged : Merged}
    (h : Merges tok after merged) (hstart : tok.isStartTag = true)
    (hreadable : Token.Readable (tok :: after))
    (hplain : ∀ t ∈ after, t.kind ≠ .interpolation) {n : Nat}
    (hn : n < merged.absorbed)
    {more u v : Text}
    (hline : merged.line ++ more = u ++ .char '\n' :: v) :
    strip u ≠ Token.ink (tok :: after.take n) := by
  intro hstrip
  have hlong := h.length_ink_lt hreadable hn
  rw [← hstrip] at hlong
  rcases List.append_eq_append_iff.mp hline with ⟨c, rfl, -⟩ | ⟨c, hu, hc⟩
  · simp only [strip_append, List.length_append] at hlong
    omega
  · cases c with
    | nil =>
        rw [hu, List.append_nil] at hlong
        omega
    | cons r c =>
        obtain ⟨rfl, -⟩ := List.cons.inj hc
        exact h.unbroken hstart hreadable hplain hn hu hstrip

namespace Printer

/-! ## Where a new line starts -/

/-- Whether text behind the tokens `before` would belong to the line of a start
tag. -/
def trails (before : List Token) : Bool :=
  (before.dropWhile Token.isContent).head?.any fun tok =>
    tok.isStartTag && !tok.isChildless && inlineEligible tok.name

theorem isTrailing_eq (p : Printer) (st : State) (before : List Token) :
    p.isTrailing st before =
      (p.options.inlineShort && !st.lines.isEmpty && trails before) := rfl

/-- Nothing trails a closing tag. -/
theorem trails_of_closing {before : List Token} {closing : Token}
    (h : before.head? = some closing) (hclosing : closing.isClosingTag = true) :
    trails before = false := by
  obtain ⟨rest, rfl⟩ : ∃ rest, before = closing :: rest :=
    List.head?_eq_some_iff.mp h
  cases hkind : closing.kind with
  | tag name flag selfClosing =>
      obtain rfl : flag = true := by
        simpa [Token.isClosingTag, hkind] using hclosing
      simp [trails, Token.isContent, Token.isStartTag, hkind]
  | _ => simp [Token.isClosingTag, hkind] at hclosing

/-- What follows a merged element starts on a new line. -/
theorem head_before_merged {tok : Token} {after : List Token} {merged : Merged}
    (h : Merges tok after merged) (before : List Token) :
    ∃ closing, ((after.take merged.absorbed).reverse ++
      tok :: before).head? = some closing ∧
      closing.isClosingTag = true := by
  obtain ⟨closing, hlast, hclosing⟩ := h.getLast?
  exact ⟨closing, by rw [List.head?_append, List.head?_reverse, hlast]; rfl, hclosing⟩

/-- The run at `tok` starts a new line where one of the next `k` tokens ends. -/
def StopsWithin (p : Printer) (st : State) (before : List Token) (tok : Token)
    (after : List Token) (k : Nat) : Prop :=
  ∃ gap u v n, (p.run 0 st before (tok :: after)).written =
      st.written ++ gap ++ (u ++ .char '\n' :: v) ∧
    (∀ r ∈ gap, r.isBlank = true) ∧ (∀ r ∈ (u ++ .char '\n' :: v).head?, r.isBlank = false) ∧
    n < k ∧ strip u = Token.ink (tok :: after.take n)

/-- Behind a merged element a run starts a new line. -/
theorem stopsWithin_of_merged {p : Printer} {st : State} (before : List Token)
    {tok : Token}
    {after : List Token} (hreadable : Token.Readable (tok :: after))
    {merged : Merged}
    (hmerge : p.merge? st.memo tok after = some merged) {k : Nat}
    (hk : merged.absorbed < k)
    (hlen : k ≤ after.length) : p.StopsWithin st before tok after k := by
  obtain ⟨hstart, hmerges⟩ := merges_of_merge? hmerge
  obtain ⟨memo, hstep⟩ := step_of_merge?_some before hmerge
  obtain ⟨closing, hhead, hclosing⟩ := head_before_merged hmerges before
  obtain ⟨htrim, hne⟩ := trimmed_line hmerges hstart (crisp_of_readable hreadable)
  obtain ⟨rest, hrest, -, hnew⟩ :=
    p.run_written (p.writeLine { st with memo } merged.line)
    ((after.take merged.absorbed).reverse ++ tok :: before)
    (after.drop merged.absorbed)
  have hbreak :=
    hnew (by simp [writeLine]) (by simpa using Nat.lt_of_lt_of_le hk hlen) (by
    rintro t - ⟨-, htrails⟩
    rw [isTrailing_eq, trails_of_closing hhead hclosing] at htrails
    simp at htrails)
  obtain ⟨v, rfl⟩ : ∃ v, rest = .char '\n' :: v :=
    List.head?_eq_some_iff.mp hbreak
  refine ⟨p.lineBreak { st with memo }, merged.line, v, merged.absorbed, ?_,
    p.lineBreak_blank _, htrim.head_append hne _, hk, ?_⟩
  · rw [run_of_step hstep, hrest, written_writeLine]
    simp only [List.append_assoc]
    rfl
  · rw [hmerges.strip_line, Token.ink_cons]

/-- A closing tag is no text. -/
theorem not_text_of_closing {tok : Token} (h : tok.isClosingTag = true) :
    tok.kind ≠ .text := by
  intro hkind
  simp [Token.isClosingTag, hkind] at h

/-- Behind trailing text a run starts a new line, and a closing tag that follows is
not the next token. -/
theorem rest_of_trailing {p : Printer} {st : State} {before : List Token}
    {tok next : Token}
    {later : List Token} (hreadable : Token.Readable (tok :: next :: later))
    (hplain : ∀ t ∈ tok :: next :: later, t.kind ≠ .interpolation) {k : Nat}
    {closing : Token}
    (hend : ((next :: later).take k).getLast? = some closing)
    (hclosing : closing.isClosingTag = true)
    (htrailing : next.kind = .text ∧ p.isTrailing st (tok :: before) = true)
    {rest : Text}
    (hrest : (p.run 0 st (tok :: before)
      (next :: later)).written = st.written ++ rest) :
    ∃ v, rest = next.literal ++ .char '\n' :: v ∧ 1 < k := by
  have hmerge : p.merge? st.memo next later = none := by
    simp [merge?, Token.isStartTag, htrailing.1]
  obtain ⟨memo, hstep⟩ := step_of_merge?_none (tok :: before) hmerge
  obtain ⟨gap, hgap, hwritten, hlines⟩ :=
    p.alone_of_trailing { st with memo }
      (tok :: before) next htrailing.1 htrailing.2
  obtain rfl : gap = [] := by
    refine hgap.resolve_right fun h => ?_
    exact hplain tok List.mem_cons_self (by simpa using h.2)
  -- the text is not the closing tag, so more tokens follow
  have hnext : closing ≠ next := by
    rintro rfl
    exact not_text_of_closing hclosing htrailing.1
  have hmore : 1 < k ∧ later ≠ [] := by
    refine ⟨Nat.lt_of_not_le fun hk => ?_, ?_⟩
    · obtain rfl | rfl : k = 0 ∨ k = 1 := by omega
      · simp at hend
      · exact hnext (by simpa using hend.symm)
    · rintro rfl
      cases k with
      | zero => simp at hend
      | succ k => exact hnext (by simpa using hend.symm)
  obtain ⟨more, hmorerest, -, hnew⟩ :=
    p.run_written (p.alone { st with memo } (tok :: before) next)
    (next :: tok :: before) later
  have hbreak := hnew hlines hmore.2 fun t ht htext =>
    hreadable.tail.not_text htrailing.1 t ht htext.1
  obtain ⟨v, rfl⟩ : ∃ v, more = .char '\n' :: v :=
    List.head?_eq_some_iff.mp hbreak
  refine ⟨v, ?_, hmore.1⟩
  rw [run_of_alone hstep, hmorerest, hwritten,
    renderInline_of_plain (hplain next (by simp))] at hrest
  simpa [State.written] using hrest.symm

/-- Behind a token written alone, or the text that trails it, a run starts a new
line. -/
theorem stopsWithin_of_alone {p : Printer} {st : State} (before : List Token)
    {tok : Token}
    {after : List Token} (hreadable : Token.Readable (tok :: after))
    (hplain : ∀ t ∈ tok :: after, t.kind ≠ .interpolation) {k : Nat}
    {closing : Token}
    (hend : (after.take k).getLast? = some closing)
    (hclosing : closing.isClosingTag = true)
    (hmerge : p.merge? st.memo tok after = none) : p.StopsWithin st before tok after k := by
  obtain ⟨memo, hstep⟩ := step_of_merge?_none before hmerge
  obtain ⟨gap, hgap, -, hwritten, hlines⟩ :=
    p.alone_written { st with memo } before tok
  obtain ⟨rest, hrest, -, hnew⟩ :=
    p.run_written (p.alone { st with memo } before tok) (tok :: before) after
  have htok := crisp_of_readable hreadable tok List.mem_cons_self
  have hrender := renderInline_of_plain (hplain tok List.mem_cons_self)
  have hrun : (p.run 0 st before (tok :: after)).written =
      st.written ++ gap ++ (tok.literal ++ rest) := by
    rw [run_of_alone hstep, hrest, hwritten, hrender]
    simp only [List.append_assoc]
    rfl
  rw [hrender] at htok
  cases after with
  | nil => simp at hend
  | cons next later =>
      have hk : 0 < k := by
        rcases Nat.eq_zero_or_pos k with rfl | hk
        · simp at hend
        · exact hk
      by_cases htrailing : next.kind = .text ∧
          p.isTrailing (p.alone { st with memo } before tok)
          (tok :: before) = true
      · obtain ⟨v, rfl, hk⟩ :=
          rest_of_trailing hreadable hplain hend hclosing htrailing hrest
        refine ⟨gap, tok.literal ++ next.literal, v, 1, ?_, hgap, ?_, hk, by simp⟩
        · rw [hrun, List.append_assoc tok.literal]
        · rw [List.append_assoc]
          exact htok.1.head_append htok.2 _
      · have hbreak := hnew hlines (by simp) (by
          intro t ht
          obtain rfl : next = t := by simpa using ht
          exact htrailing)
        obtain ⟨v, rfl⟩ : ∃ v, rest = .char '\n' :: v :=
          List.head?_eq_some_iff.mp hbreak
        exact ⟨gap, tok.literal, v, 0, hrun, hgap, htok.1.head_append htok.2 _,
          hk, by simp⟩

/-- **A pass that does not put an element on one line stops inside it**: it starts a
new line before the closing tag, which is one of the next `k` tokens. -/
theorem exists_stop {p : Printer} {st : State} (before : List Token) {tok : Token}
    {after : List Token} (hreadable : Token.Readable (tok :: after))
    (hplain : ∀ t ∈ tok :: after, t.kind ≠ .interpolation) {k : Nat}
    {closing : Token}
    (hend : (after.take k).getLast? = some closing)
    (hclosing : closing.isClosingTag = true)
    (hk : k ≤ after.length)
    (hdecision : ∀ merged, p.merge? st.memo tok after = some merged →
      merged.absorbed < k) :
    p.StopsWithin st before tok after k := by
  cases hmerge : p.merge? st.memo tok after with
  | none =>
      exact stopsWithin_of_alone before hreadable hplain hend hclosing hmerge
  | some merged =>
      exact stopsWithin_of_merged before hreadable hmerge
        (hdecision merged hmerge) hk

/-! ## Tokens that are bare the same -/

/-- Tokens that are bare the same have the same glyphs. -/
theorem ink_of_bare {a b : List Token}
    (h : (a.map Token.form).map Lexeme.bare =
      (b.map Token.form).map Lexeme.bare) :
    Token.ink a = Token.ink b := by
  have hink : ∀ tokens : List Token, Token.ink tokens =
      ((tokens.map Token.form).map Lexeme.bare).flatMap fun piece => piece.2.1 := by
    intro tokens
    induction tokens with
    | nil => rfl
    | cons tok rest ih => simp [ih, Lexeme.bare, Token.form]
  rw [hink, hink, h]

/-- An interpolation is read only where there was one. -/
theorem plain_of_bare {a b : List Token}
    (h : (a.map Token.form).map Lexeme.bare = (b.map Token.form).map Lexeme.bare)
    (hb : ∀ tok ∈ b, tok.kind ≠ .interpolation) : ∀ tok ∈ a, tok.kind ≠ .interpolation := by
  intro tok htok hkind
  have hmem : tok.form.bare ∈ (b.map Token.form).map Lexeme.bare := by
    rw [← h]
    exact List.mem_map_of_mem (List.mem_map_of_mem htok)
  obtain ⟨lexeme, hlexeme, hbare⟩ := List.mem_map.mp hmem
  obtain ⟨other, hother, rfl⟩ := List.mem_map.mp hlexeme
  have hform : other.form.kind = tok.form.kind := congrArg Prod.fst hbare
  exact hb other hother (Token.form_kind_eq_interpolation.mp
    (hform.trans (Token.form_kind_eq_interpolation.mpr hkind)))

/-- A closing tag can be told from its form. -/
theorem isClosingTag_iff {tokens : List Token} (h : Token.Readable tokens)
    {tok : Token}
    (htok : tok ∈ tokens) : tok.isClosingTag = true ↔
      tok.form.kind = .tag ∧ (text "</").isPrefixOf tok.form.raw = true := by
  have hlegible := h.legible tok htok
  have hread : tok.form.kind = .tag →
      tok.isClosingTag = (text "</").isPrefixOf tok.form.raw := by
    intro hkind
    have hclosed := h.neat.closed_of_tag tok.form (List.mem_map_of_mem htok) hkind
    have hform : tok.form = ⟨.tag, tok.form.raw⟩ := by rw [← hkind]
    rw [hkind] at hclosed
    rw [Token.Legible, hform] at hlegible
    obtain ⟨hsame, hnormal⟩ : Lexeme.tagKind
      (Tag.normalize tok.form.raw) = tok.kind ∧
        Tag.normalize tok.form.raw = tok.form.raw := by
      simpa [Lexeme.reading, Token.form] using hlegible
    rw [hnormal] at hsame
    rw [Token.isClosingTag, ← hsame]
    generalize tok.form.raw = raw at hclosed
    cases hclosed with
    | tag => rfl
  constructor
  · intro hclosing
    have hkind : tok.form.kind = .tag := by
      rw [form_of_element (.inr hclosing) hlegible]
    exact ⟨hkind, hread hkind ▸ hclosing⟩
  · rintro ⟨hkind, hprefix⟩
    rw [hread hkind, hprefix]

/-- A token that is bare the same as a closing tag is one. -/
theorem closing_of_bare {a b : List Token} (ha : Token.Readable a)
    (hb : Token.Readable b)
    (h : (a.map Token.form).map Lexeme.bare = (b.map Token.form).map Lexeme.bare) {k : Nat}
    {closing : Token} (hlast : (b.take k).getLast? = some closing)
    (hclosing : closing.isClosingTag = true) :
    ∃ other, (a.take k).getLast? = some other ∧ other.isClosingTag = true := by
  have hbare : (a.take k).getLast?.map (fun tok => tok.form.bare) =
    some closing.form.bare := by
    have := congrArg (fun pieces => (pieces.take k).getLast?) h
    simpa [← List.map_take, List.getLast?_map, hlast,
      Function.comp_def] using this
  obtain ⟨other, hother, hsame⟩ := Option.map_eq_some_iff.mp hbare
  refine ⟨other, hother, (isClosingTag_iff ha
    (List.mem_of_mem_take (List.mem_of_getLast? hother))).mpr ?_⟩
  obtain ⟨hkind, hprefix⟩ :=
    (isClosingTag_iff hb
      (List.mem_of_mem_take (List.mem_of_getLast? hlast))).mp hclosing
  rw [← hkind, ← hprefix]
  exact ⟨congrArg Prod.fst hsame, congrArg (fun piece => piece.2.2) hsame⟩

/-! ## Two passes -/

/-- The lines of a run that starts with a merged element. -/
theorem written_of_merged {p : Printer} {st : State} (before : List Token)
    {tok : Token}
    {after : List Token} {merged : Merged}
    (h : p.merge? st.memo tok after = some merged) :
    ∃ more, (p.run 0 st before (tok :: after)).written =
      st.written ++ p.lineBreak st ++ (merged.line ++ more) := by
  obtain ⟨memo, hstep⟩ := step_of_merge?_some before h
  obtain ⟨more, hmore, -⟩ :=
    p.run_written (p.writeLine { st with memo } merged.line)
    ((after.take merged.absorbed).reverse ++ tok :: before)
    (after.drop merged.absorbed)
  refine ⟨more, ?_⟩
  rw [run_of_step hstep, hmore, written_writeLine]
  simp only [List.append_assoc]
  rfl

/-- **Passes that decide otherwise write otherwise**: where one pass puts an element
on one line, a pass that takes fewer of its tokens starts a new line inside. -/
theorem written_ne_of_decision {p q : Printer} {st st' : State}
    (before before' : List Token)
    {tok tok' : Token} {after after' : List Token}
    (hreadable : Token.Readable (tok :: after))
    (hreadable' : Token.Readable (tok' :: after'))
    (hplain : ∀ t ∈ tok :: after, t.kind ≠ .interpolation)
    (hbare : ((tok' :: after').map Token.form).map Lexeme.bare =
      ((tok :: after).map Token.form).map Lexeme.bare)
    (hst : st'.written = st.written) {merged : Merged}
    (hmerge : p.merge? st.memo tok after = some merged)
    (hdecision : ∀ m, q.merge? st'.memo tok' after' = some m →
      m.absorbed < merged.absorbed) :
    (q.run 0 st' before' (tok' :: after')).written ≠
    (p.run 0 st before (tok :: after)).written := by
  intro hwritten
  obtain ⟨hstart, hmerges⟩ := merges_of_merge? hmerge
  have hrest : (after'.map Token.form).map Lexeme.bare =
    (after.map Token.form).map Lexeme.bare :=
    (List.cons.inj hbare).2
  have hlen : after'.length = after.length := by
    simpa using congrArg List.length hrest
  obtain ⟨closing, hlast, hclosing⟩ := hmerges.getLast?
  obtain ⟨closing', hlast', hclosing'⟩ :=
    closing_of_bare hreadable'.tail hreadable.tail hrest hlast hclosing
  obtain ⟨gap, u, v, n, hstop, hgap, hhead, hn, hstrip⟩ :=
    exists_stop before' hreadable' (plain_of_bare hbare hplain) hlast' hclosing'
      (hlen ▸ hmerges.absorbed_le) hdecision
  obtain ⟨more, hline⟩ := written_of_merged before hmerge
  obtain ⟨htrim, hne⟩ := trimmed_line hmerges hstart (crisp_of_readable hreadable)
  have hcut : merged.line ++ more = u ++ .char '\n' :: v := by
    rw [hstop, hline, hst, List.append_assoc, List.append_assoc] at hwritten
    exact (blanks_unique (List.append_cancel_left hwritten) hgap
      (p.lineBreak_blank st) hhead
      (htrim.head_append hne more)).symm
  refine hmerges.no_stop hstart hreadable
    (fun t ht => hplain t (List.mem_cons_of_mem tok ht)) hn
    hcut ?_
  rw [hstrip]
  refine ink_of_bare ?_
  have := congrArg (List.take (n + 1)) hbare
  simpa [← List.map_take] using this

/-- Two passes that are in step: they have written the same lines, at the same
level, and stand behind tokens of which the same can trail. -/
structure Abreast (st : State) (before : List Token) (st' : State)
    (before' : List Token) : Prop where
  lines : st'.lines = st.lines
  depth : st'.depth = st.depth
  trails : trails before' = trails before
  plain : ∀ tok ∈ before.head?, tok.kind ≠ .interpolation
  plain' : ∀ tok ∈ before'.head?, tok.kind ≠ .interpolation

theorem Abreast.written {st st' : State} {before before' : List Token}
    (h : Abreast st before st' before') : st'.written = st.written := by
  rw [State.written, State.written, h.lines]

/-- Passes in step that write the same line stay in step. -/
theorem writeLine_congr {p q : Printer} (hoptions : q.options = p.options)
    {st st' : State}
    (hlines : st'.lines = st.lines) (hdepth : st'.depth = st.depth)
    (line : Text) :
    (q.writeLine st' line).lines = (p.writeLine st line).lines ∧
      (q.writeLine st' line).depth = (p.writeLine st line).depth := by
  simp only [writeLine, indentation, hoptions, hlines, hdepth, and_self]

/-- Blocks are written alike in two passes that are in step. -/
theorem stepBlock_congr {p q : Printer} (hoptions : q.options = p.options)
    {st st' : State}
    (hlines : st'.lines = st.lines) (hdepth : st'.depth = st.depth)
    {tok tok' : Token}
    (hkind : tok'.kind = tok.kind) (hliteral : tok'.literal = tok.literal) :
    (q.stepBlock st' tok').lines = (p.stepBlock st tok).lines ∧
      (q.stepBlock st' tok').depth = (p.stepBlock st tok).depth := by
  have hcloses : tok'.closesBlock = tok.closesBlock := by
    simp only [Token.closesBlock, Token.holdsInterpolation, hkind, hliteral]
  have hopens : tok'.opensBlock = tok.opensBlock := by
    simp only [Token.opensBlock, Token.holdsInterpolation, Token.isChildless,
      hkind, hliteral]
  have hchildless : tok'.isChildless = tok.isChildless := by
    simp only [Token.isChildless, hkind, hliteral]
  simp only [stepBlock, hcloses, hopens, hchildless, hliteral]
  split <;> split <;> simp [writeLine, indentation, hoptions, hlines, hdepth]

/-- Without interpolations, so are texts. -/
theorem stepText_congr {p q : Printer} (hoptions : q.options = p.options)
    {st st' : State}
    {before before' : List Token} (h : Abreast st before st' before')
    {tok tok' : Token}
    (hliteral : tok'.literal = tok.literal) :
    (q.stepText st' before' tok').lines = (p.stepText st before tok).lines ∧
      (q.stepText st' before' tok').depth = (p.stepText st before tok).depth := by
  have hbehind : ∀ {tokens : List Token},
    (∀ t ∈ tokens.head?, t.kind ≠ .interpolation) →
      tokens.head?.any (·.kind == .interpolation) = false := by
    intro tokens hplain
    cases tokens with
    | nil => rfl
    | cons t tokens => simpa using hplain t rfl
  have htrailing : q.isTrailing st' before' = p.isTrailing st before := by
    rw [isTrailing_eq, isTrailing_eq, hoptions, h.lines, h.trails]
  simp only [stepText, htrailing, hbehind h.plain, hbehind h.plain',
    Bool.and_false, hliteral,
    Bool.false_eq_true, if_false]
  split
  · simp only [appendToLine, h.lines]
    split <;> simp [h.lines, h.depth]
  · exact writeLine_congr hoptions h.lines h.depth _

/-- **Passes in step that write the same token** stay in step. -/
theorem Abreast.alone {p q : Printer} (hoptions : q.options = p.options)
    {st st' : State}
    {before before' : List Token} (h : Abreast st before st' before')
    {tok tok' : Token}
    (hkind : tok'.kind = tok.kind) (hliteral : tok'.literal = tok.literal)
    (hplain : tok.kind ≠ .interpolation) :
    Abreast (p.alone st before tok) (tok :: before) (q.alone st' before' tok')
      (tok' :: before') := by
  have hstate : (q.alone st' before' tok').lines = (p.alone st before tok).lines ∧
      (q.alone st' before' tok').depth = (p.alone st before tok).depth := by
    rw [Printer.alone, Printer.alone, hkind]
    cases hcase : tok.kind with
    | interpolation => exact absurd hcase hplain
    | text => exact stepText_congr hoptions h hliteral
    | _ => exact stepBlock_congr hoptions h.lines h.depth hkind hliteral
  have htrails : Printer.trails (tok' :: before') = Printer.trails (tok :: before) := by
    have hcontent : tok'.isContent = tok.isContent := by
      simp only [Token.isContent, hkind]
    have hsame : (tok'.isStartTag && !tok'.isChildless && inlineEligible tok'.name) =
        (tok.isStartTag && !tok.isChildless && inlineEligible tok.name) := by
      simp only [Token.isStartTag, Token.isChildless, Token.name, hkind, hliteral]
    simp only [Printer.trails, List.dropWhile_cons, hcontent]
    split
    · exact h.trails
    · simpa using hsame
  exact ⟨hstate.1, hstate.2,
    htrails, by simpa using hplain, by simpa [hkind] using hplain⟩

/-- Passes in step that write the same merged element stay in step. -/
theorem Abreast.merged {p q : Printer} (hoptions : q.options = p.options)
    {st st' : State}
    {before before' : List Token} (h : Abreast st before st' before')
    {tok tok' : Token}
    {after after' : List Token} {merged : Merged}
    (hmerges : Merges tok after merged)
    (hmerges' : Merges tok' after' merged) :
    Abreast (p.writeLine st merged.line)
      ((after.take merged.absorbed).reverse ++ tok :: before)
      (q.writeLine st' merged.line)
      ((after'.take merged.absorbed).reverse ++ tok' :: before') := by
  obtain ⟨closing, hhead, hclosing⟩ := head_before_merged hmerges before
  obtain ⟨closing', hhead', hclosing'⟩ := head_before_merged hmerges' before'
  have hplain : ∀ {tok : Token}, tok.isClosingTag = true → tok.kind ≠ .interpolation := by
    intro tok hclosing hkind
    simp [Token.isClosingTag, hkind] at hclosing
  obtain ⟨hlines, hdepth⟩ := writeLine_congr hoptions h.lines h.depth merged.line
  refine ⟨hlines, hdepth, ?_, ?_, ?_⟩
  · rw [trails_of_closing hhead hclosing, trails_of_closing hhead' hclosing']
  · simpa [hhead] using hplain hclosing
  · simpa [hhead'] using hplain hclosing'

/-- The outcomes of lookups do not matter to what is written. -/
theorem Abreast.memo {st st' : State} {before before' : List Token}
    (h : Abreast st before st' before') (memo memo' : SourceIndex.Memo) :
    Abreast { st with memo } before { st' with memo := memo' } before' :=
  ⟨h.lines, h.depth, h.trails, h.plain, h.plain'⟩

/-- Two passes in step that merge as many tokens, and write the same in the end,
merge them to the same line. -/
theorem line_of_written {p q : Printer} {st st' : State}
    {before before' : List Token} (h : Abreast st before st' before')
    {tok tok' : Token}
    {after after' : List Token} (hreadable : Token.Readable (tok :: after))
    (hreadable' : Token.Readable (tok' :: after'))
    (hbare : ((tok' :: after').map Token.form).map Lexeme.bare =
      ((tok :: after).map Token.form).map Lexeme.bare) {merged merged' : Merged}
    (hmerge : p.merge? st.memo tok after = some merged)
    (hmerge' : q.merge? st'.memo tok' after' = some merged')
    (habsorbed : merged'.absorbed = merged.absorbed)
    (hwritten : (q.run 0 st' before' (tok' :: after')).written =
      (p.run 0 st before (tok :: after)).written) : merged' = merged := by
  obtain ⟨hstart, hmerges⟩ := merges_of_merge? hmerge
  obtain ⟨hstart', hmerges'⟩ := merges_of_merge? hmerge'
  obtain ⟨more, hmore⟩ := written_of_merged before hmerge
  obtain ⟨more', hmore'⟩ := written_of_merged before' hmerge'
  obtain ⟨htrim, hne⟩ := trimmed_line hmerges hstart (crisp_of_readable hreadable)
  obtain ⟨htrim', hne'⟩ :=
    trimmed_line hmerges' hstart' (crisp_of_readable hreadable')
  have hcut : merged'.line ++ more' = merged.line ++ more := by
    rw [hmore, hmore', h.written, List.append_assoc,
      List.append_assoc] at hwritten
    exact blanks_unique (List.append_cancel_left hwritten) (q.lineBreak_blank st')
      (p.lineBreak_blank st) (htrim'.head_append hne' more')
      (htrim.head_append hne more)
  have hstrip : strip merged'.line = strip merged.line := by
    rw [hmerges'.strip_line, hmerges.strip_line, habsorbed, ← Token.ink_cons,
      ← Token.ink_cons]
    refine ink_of_bare ?_
    have := congrArg (List.take (merged.absorbed + 1)) hbare
    simpa [← List.map_take] using this
  have hline : merged'.line = merged.line :=
    eq_of_strip_eq hcut hstrip htrim'.last htrim.last
  cases merged
  cases merged'
  simp_all

/-- **The decision of a step can be told from what is written**: two passes in step
that write the same in the end decide the same. -/
theorem merge?_of_written {p q : Printer} {st st' : State}
    {before before' : List Token}
    (h : Abreast st before st' before') {tok tok' : Token}
    {after after' : List Token}
    (hreadable : Token.Readable (tok :: after))
    (hreadable' : Token.Readable (tok' :: after'))
    (hplain : ∀ t ∈ tok :: after, t.kind ≠ .interpolation)
    (hbare : ((tok' :: after').map Token.form).map Lexeme.bare =
      ((tok :: after).map Token.form).map Lexeme.bare)
    (hwritten : (q.run 0 st' before' (tok' :: after')).written =
      (p.run 0 st before (tok :: after)).written) :
    q.merge? st'.memo tok' after' = p.merge? st.memo tok after := by
  have hplain' := plain_of_bare hbare hplain
  cases hmerge : p.merge? st.memo tok after with
  | none =>
      cases hmerge' : q.merge? st'.memo tok' after' with
      | none => rfl
      | some merged' =>
          exact absurd hwritten.symm
            (written_ne_of_decision before' before hreadable' hreadable
            hplain' hbare.symm h.written.symm hmerge' (by simp [hmerge]))
  | some merged =>
      cases hmerge' : q.merge? st'.memo tok' after' with
      | none =>
          exact absurd hwritten
            (written_ne_of_decision before before' hreadable hreadable' hplain
            hbare h.written hmerge (by simp [hmerge']))
      | some merged' =>
          rcases Nat.lt_trichotomy merged'.absorbed merged.absorbed with hless | heq | hmore
          · exact absurd hwritten
              (written_ne_of_decision before before' hreadable hreadable' hplain
              hbare h.written hmerge (by simpa [hmerge'] using hless))
          · rw [line_of_written h hreadable hreadable' hbare hmerge hmerge' heq hwritten]
          · exact absurd hwritten.symm
              (written_ne_of_decision before' before hreadable' hreadable
              hplain' hbare.symm h.written.symm hmerge'
              (by simpa [hmerge] using hmore))

/-- The first decision of a run. -/
theorem head_decision (p : Printer) (st : State) (before : List Token)
    (tok : Token)
    (after : List Token) (index : Nat) :
    ((p.stepsFrom index 0 st before (tok :: after)).map p.merged?).head? =
      some (p.merge? st.memo tok after) := by
  obtain ⟨later, h⟩ :=
    stepsFrom_of_step (Prod.eta (p.step st before tok after)).symm index
  rw [h]
  rfl

/-- Passes in step that decide differently on the next token do not write the same, and
their decisions are not the same. -/
theorem written_iff_of_decision_ne {p q : Printer} {st st' : State}
    {before before' after after' : List Token} {tok tok' : Token}
    (habreast : Abreast st before st' before') (hreadable : Token.Readable (tok :: after))
    (hreadable' : Token.Readable (tok' :: after'))
    (hplain : ∀ t ∈ tok :: after, t.kind ≠ .interpolation)
    (hbare : ((tok' :: after').map Token.form).map Lexeme.bare =
      ((tok :: after).map Token.form).map Lexeme.bare)
    (index index' : Nat) (hne : q.merge? st'.memo tok' after' ≠ p.merge? st.memo tok after) :
    (q.run 0 st' before' (tok' :: after')).written =
        (p.run 0 st before (tok :: after)).written ↔
      (q.stepsFrom index' 0 st' before' (tok' :: after')).map q.merged? =
        (p.stepsFrom index 0 st before (tok :: after)).map p.merged? := by
  refine iff_of_false (fun hwritten => hne ?_) (fun hdecisions => hne ?_)
  · exact merge?_of_written habreast hreadable hreadable' hplain hbare hwritten
  · have hhead := congrArg List.head? hdecisions
    rw [head_decision, head_decision] at hhead
    exact Option.some.inj hhead

/-- **Two passes, step by step.**  From where two passes are in step, over tokens of
the second that are aligned to the steps of the first, they write the same exactly
when they decide the same at every step. -/
theorem written_iff_decisions {p q : Printer} (hoptions : q.options = p.options)
    (st : State)
    (before tokens : List Token) (hreadable : Token.Readable tokens)
    (hplain : ∀ tok ∈ tokens, tok.kind ≠ .interpolation) {st' : State}
    {before' tokens' : List Token} (hreadable' : Token.Readable tokens')
    (habreast : Abreast st before st' before') (index index' : Nat)
    (haligned : Aligned p (p.stepsFrom index 0 st before tokens) tokens') :
    (q.run 0 st' before' tokens').written = (p.run 0 st before tokens).written ↔
      (q.stepsFrom index' 0 st' before' tokens').map q.merged? =
        (p.stepsFrom index 0 st before tokens).map p.merged? := by
  have hbare := haligned.bare
  rw [p.flatMap_taken_from] at hbare
  induction st, before,
    tokens using p.run_induct generalizing st' before' tokens' index index' with
  | nil st before =>
      cases haligned
      exact iff_of_true habreast.written rfl
  | alone st before tok after memo hmerge hstep ih =>
      obtain ⟨later, hsteps⟩ := stepsFrom_of_step hstep index
      obtain ⟨tok', after', rfl, hkind, hliteral, tail⟩ :=
        haligned.of_alone hsteps hmerge
      by_cases hdecide : q.merge? st'.memo tok' after' = none
      · obtain ⟨memo', hstep'⟩ := step_of_merge?_none before' hdecide
        obtain ⟨later', hsteps'⟩ := stepsFrom_of_step hstep' index'
        have hnext :=
          ih hreadable.tail (fun t ht => hplain t (List.mem_cons_of_mem tok ht))
          hreadable'.tail
          ((habreast.memo memo memo').alone hoptions hkind hliteral
            (hplain tok List.mem_cons_self)) later later' tail
            (List.cons.inj hbare).2
        rw [run_of_step hstep, run_of_step hstep', hsteps, hsteps', List.map_cons,
          List.map_cons,
          List.cons.injEq]
        exact hnext.trans (and_iff_right (hdecide.trans hmerge.symm)).symm
      · exact written_iff_of_decision_ne habreast hreadable hreadable' hplain hbare index index'
          (by rwa [hmerge])
  | merged st before tok after merged memo hmerge hstep ih =>
      obtain ⟨-, hmerges⟩ := merges_of_merge? hmerge
      obtain ⟨later, hsteps⟩ := stepsFrom_of_step hstep index
      obtain ⟨tok', slice, rest, rfl, hlen, tail⟩ :=
        haligned.of_merged hsteps hmerge
      by_cases hdecide : q.merge? st'.memo tok' (slice ++ rest) = some merged
      · obtain ⟨memo', hstep'⟩ := step_of_merge?_some before' hdecide
        obtain ⟨later', hsteps'⟩ := stepsFrom_of_step hstep' index'
        have hdrop : (slice ++ rest).drop merged.absorbed = rest := by
          rw [← hlen, List.drop_left]
        have hplain' : ∀ t ∈ after.drop merged.absorbed,
          t.kind ≠ .interpolation :=
          fun t ht => hplain t
            (List.mem_cons_of_mem tok (List.mem_of_mem_drop ht))
        have hnext := ih (hreadable.tail.drop _) hplain' (hreadable'.tail.drop _)
          ((habreast.memo memo memo').merged hoptions hmerges
            (merges_of_merge? hdecide).2)
          later later' (by rw [hdrop]; exact tail) (by
            have := congrArg (List.drop merged.absorbed) (List.cons.inj hbare).2
            rwa [← List.map_drop, ← List.map_drop, ← List.map_drop,
              ← List.map_drop] at this)
        rw [run_of_step hstep, run_of_step hstep', hsteps, hsteps', List.map_cons,
          List.map_cons,
          List.cons.injEq]
        exact hnext.trans (and_iff_right (hdecide.trans hmerge.symm)).symm
      · exact written_iff_of_decision_ne habreast hreadable hreadable' hplain hbare index index'
          (by rwa [hmerge])

/-- The decisions of a layout: at each step, the element that is put on one line. -/
def decisions (p : Printer) : List (Option Merged) := p.steps.map p.merged?

/-- **A second pass over a layout** without interpolations writes it again exactly
when it decides as the first did. -/
theorem print_print_iff {p q : Printer} (hoptions : q.options = p.options)
    (htokens : q.tokens = Token.scan p.print) (h : Token.Readable p.tokens)
    (hplain : ∀ tok ∈ p.tokens, tok.kind ≠ .interpolation) :
    q.print = p.print ↔ q.decisions = p.decisions := by
  have hstart : Abreast {} [] {} [] := ⟨rfl, rfl, rfl, by simp, by simp⟩
  have haligned : Aligned p (p.stepsFrom 0 0 {} [] p.tokens) q.tokens := by
    rw [htokens]
    exact p.aligned_print h hplain
  exact written_iff_decisions hoptions {} [] p.tokens h hplain
    (htokens ▸ p.readable_print h) hstart
    0 0 haligned

end Printer

/-! ## Documents -/

/-- A source without interpolations has no such tokens. -/
theorem plain_scan {source : Text}
    (h : ∀ lexeme ∈ Lexeme.split source, lexeme.kind ≠ .interpolation) :
    ∀ tok ∈ Token.scan source, tok.kind ≠ .interpolation := by
  intro tok htok hkind
  have hmem : (tok.kind, tok.literal) ∈ Token.outline (Token.scan source) :=
    List.mem_map_of_mem (f := fun tok : Token => (tok.kind, tok.literal)) htok
  rw [Token.outline_scan] at hmem
  obtain ⟨lexeme, hlexeme, hread⟩ := List.mem_filterMap.mp hmem
  refine h lexeme hlexeme ?_
  rcases lexeme with ⟨kind, raw⟩
  cases kind with
  | interpolation => rfl
  | text =>
      simp only [Lexeme.reading, hkind] at hread
      split at hread <;> cases hread
  | _ => simp [Lexeme.reading, Lexeme.tagKind, hkind] at hread

/-- A text that ends in a glyph that is not blank does not end in a newline. -/
theorem endsWith_newline {s : Text} (h : Trimmed s) : s.endsWith [.char '\n'] = false := by
  rw [← Bool.not_eq_true]
  intro hend
  obtain ⟨body, rfl⟩ := List.isSuffixOf_iff_suffix.mp hend
  exact absurd (h.last (.char '\n') (by simp)) (by decide)

/-- A second pass over a document is one over its layout. -/
theorem layout_layout_iff {o : Options} {source : Text}
    (htrim : Trimmed (Printer.ofSource o (unifyLineEnds source).trim).print)
    (hunified : unifyLineEnds (layout o source) = layout o source) :
    layout o (layout o source) = layout o source ↔
      (Printer.ofSource o (unifyLineEnds (layout o source)).trim).print =
        (Printer.ofSource o (unifyLineEnds source).trim).print := by
  have hsame := trim_layout htrim
  generalize hout : layout o source = out at hunified hsame ⊢
  rw [layout] at hout
  rw [layout, hunified, hsame]
  generalize (Printer.ofSource o
    (unifyLineEnds source).trim).print = first at hout htrim ⊢
  -- the newline at the end is there after the second pass if it was after the first
  split at hout
  · have hend : out.endsWith [.char '\n'] = true :=
      List.isSuffixOf_iff_suffix.mpr ⟨first, hout⟩
    simp only [hend, if_true]
    rw [← hout, List.append_left_inj]
  · subst hout
    simp only [endsWith_newline htrim, Bool.false_eq_true, if_false]

/-- **When a second pass changes nothing.**  With valid options every source without
interpolations whose tags all end has an output, and formatting the output leaves it
alone exactly when the second pass puts the same elements on one line, in the same
form and at the same steps. -/
theorem format_format_iff {o : Options} (hindent : 0 < o.indentSize)
    (hthreshold : 0 < o.threshold) {source : Text}
    (hends : ∀ lexeme ∈ Lexeme.split (unifyLineEnds source).trim,
      lexeme.isTerminated = true)
    (hplain : ∀ lexeme ∈ Lexeme.split (unifyLineEnds source).trim,
      lexeme.kind ≠ .interpolation) :
    ∃ out, format o source = .ok out ∧
      (format o out = .ok out ↔
        (Printer.ofSource o (unifyLineEnds out).trim).decisions =
          (Printer.ofSource o (unifyLineEnds source).trim).decisions) := by
  cases hsource : source.isBlank with
  | true =>
      have hself := format_eq_self hindent hthreshold hsource
      exact ⟨source, hself, iff_of_true hself rfl⟩
  | false =>
      have hreadable : Token.Readable
        (Printer.ofSource o (unifyLineEnds source).trim).tokens :=
        Token.readable_scan (trimmed_trim (unifyLineEnds source)) hends
      have htokens : ∀ tok ∈ (Printer.ofSource o
        (unifyLineEnds source).trim).tokens,
          tok.kind ≠ .interpolation := plain_scan hplain
      have htrim := Printer.trimmed_print _ (Printer.crisp_of_readable hreadable)
      have hunified := unifyLineEnds_layout o source
      have hblank : (layout o source).isBlank = false := by
        rw [← Bool.not_eq_true] at hsource ⊢
        intro hblank
        refine hsource (List.all_eq_true.mpr ?_)
        rw [← strip_eq_nil_iff, ← strip_layout o source, strip_eq_nil_iff]
        exact List.all_eq_true.mp hblank
      refine ⟨layout o source, format_eq_layout hindent hthreshold hsource, ?_⟩
      rw [format_eq_layout hindent hthreshold hblank, Except.ok.injEq,
        layout_layout_iff htrim hunified]
      refine Printer.print_print_iff rfl ?_ hreadable htokens
      rw [hunified, trim_layout htrim]
      rfl

/-- A control block with an element that is put on one line, by both passes. -/
theorem format_format_block :
    let source := text "@if (a) \x7b\n<p>b <b>c</b></p>\r\n\x7d\n"
    (∀ lexeme ∈ Lexeme.split (unifyLineEnds source).trim,
      lexeme.isTerminated = true) ∧
    (∀ lexeme ∈ Lexeme.split (unifyLineEnds source).trim,
      lexeme.kind ≠ .interpolation) ∧
    ∃ out, format {} source = .ok out ∧ format {} out = .ok out := by
  intro source
  have hends : ∀ lexeme ∈ Lexeme.split (unifyLineEnds source).trim,
    lexeme.isTerminated = true := by
    decide
  have hplain : ∀ lexeme ∈ Lexeme.split (unifyLineEnds source).trim,
      lexeme.kind ≠ .interpolation := by
    decide
  obtain ⟨out, hout, hiff⟩ :=
    format_format_iff (o := {}) (by decide) (by decide) hends hplain
  have hlayout : layout {} source = out := by
    rw [format_eq_layout (by decide) (by decide) (by decide)] at hout
    exact Except.ok.inj hout
  refine ⟨hends, hplain, out, hout, hiff.mpr ?_⟩
  rw [← hlayout]
  decide +kernel

/-- The first pass puts this element on one line since it was written compactly; the
space that it adds behind the start tag makes the second pass spread it. -/
theorem format_format_spread :
    let source := text "<div>Some text that is longer than forty <b>x</b></div>"
    let out := text "<div> Some text that is longer than forty <b>x</b></div>"
    (∀ lexeme ∈ Lexeme.split (unifyLineEnds source).trim,
      lexeme.isTerminated = true ∧ lexeme.kind ≠ .interpolation) ∧
    format {} source = .ok out ∧ format {} out ≠ .ok out := by
  intro source out
  have hfirst : layout {} source = out := by decide +kernel
  have hsecond : layout {} out ≠ out := by decide +kernel
  refine ⟨by decide, ?_, ?_⟩
  · rw [← hfirst]
    exact format_eq_layout (by decide) (by decide) (by decide)
  · rw [format_eq_layout (by decide) (by decide) (by decide)]
    exact fun h => hsecond (Except.ok.inj h)

end TemplateFormat.Layout
