import TemplateFormat.Proofs.Laid
import TemplateFormat.Proofs.Steps

/-!
# Reading a merged element

An element on one line is laid out from pieces, too.  For a tight merge these
are the forms of its tokens with other white space, also inside quotes and
comments.  For a content merge they are the forms of its tokens themselves, with
one exception: a `{` at the end of a text can come to stand right before an
interpolation, and is then read as part of it.

* `laid_flatten` — a flattened line is laid out from pieces that are bare the
  same as the forms of its tokens;
* `laid_content` — the line of a content merge is laid out from its tags and from
  texts and interpolations, which are the forms of its content if this holds no
  interpolation.
-/

namespace TemplateFormat.Layout

open Text Markup Lexeme

/-! ## Flattened lines -/

/-- The tags of an element are written as tags: neither starts a comment. -/
theorem form_of_element {tok : Token}
    (h : tok.isStartTag = true ∨ tok.isClosingTag = true)
    (hlegible : tok.Legible) : tok.form = ⟨.tag, tok.literal⟩ := by
  have htag : tok.isTag = true :=
    h.elim Printer.isTag_of_isStartTag Printer.isTag_of_isClosingTag
  have hraw : renderInline tok = tok.literal := Printer.renderInline_of_tag htag
  cases hkind : tok.kind with
  | tag name closing selfClosing =>
      rw [Token.Legible] at hlegible
      simp only [Token.form, Token.formKind, hkind, hraw] at hlegible ⊢
      split
      · next hopen =>
          -- a comment has no element name
          simp only [hopen, if_true, reading] at hlegible
          obtain ⟨rfl, rfl, rfl⟩ : text "!--" = name ∧ false = closing ∧
            false = selfClosing := by
            simpa using hlegible
          rcases h with h | h
          · simp [Token.isStartTag, hkind] at h
            exact absurd h (by decide)
          · simp [Token.isClosingTag, hkind] at h
      · rfl
  | _ => simp [Token.isTag, hkind] at htag

/-- **A flattened line** is laid out from pieces that are bare the same as the
forms of its tokens. -/
theorem laid_flatten {tokens : List Token} (hneat : Neat (tokens.map Token.form))
    (hlast : ∀ tok ∈ tokens.getLast?, tok.isClosingTag = true ∧ tok.Legible) :
    ∃ lexemes, Laid false none lexemes (flatten tokens) ∧
      lexemes.map bare = (tokens.map Token.form).map bare := by
  by_cases hne : tokens = []
  · subst hne
    exact ⟨[], .nil, rfl⟩
  · have hend : ∀ lexeme ∈ (tokens.map Token.form).getLast?,
      Closed lexeme.kind lexeme.raw := by
      intro lexeme hmem
      rw [List.getLast?_map] at hmem
      obtain ⟨tok, htok, rfl⟩ := Option.map_eq_some_iff.mp hmem
      obtain ⟨hclosing, hlegible⟩ := hlast tok htok
      exact hneat.closed_of_tag _
        (List.mem_map_of_mem (List.mem_of_getLast? htok))
        (by rw [form_of_element (.inr hclosing) hlegible])
    have hraws : (tokens.map Token.form).map raw = tokens.map renderInline := by
      rw [List.map_map]
      rfl
    have hjoin : Laid false none (tokens.map Token.form)
        (join [.char ' '] (tokens.map renderInline)) := by
      rw [← hraws]
      exact laid_join hneat hend (by simp)
    have htrim : Trimmed (join [.char ' '] (tokens.map renderInline)) := by
      refine (trimmed_join _ (by simpa using hne) ?_).1
      intro part hpart
      rw [← hraws] at hpart
      obtain ⟨lexeme, hmem, rfl⟩ := List.mem_map.mp hpart
      exact hneat.trimmed lexeme hmem
    refine flatten_induction (P := fun s => ∃ lexemes, Laid false none lexemes s ∧
      lexemes.map bare = (tokens.map Token.form).map bare) ?_ htrim
      ⟨_, hjoin, rfl⟩
    rintro s t ⟨lexemes, hlaid, hbare⟩ hst
    obtain ⟨lexemes', hlaid', hbare'⟩ := hlaid.respaced hst none (by simp)
    exact ⟨lexemes', hlaid', hbare'.trans hbare⟩

/-! ## Content between two tags -/

/-- Renderings side by side, each behind a space if so marked. -/
def spaced (parts : List (Bool × Token)) : Text :=
  parts.flatMap fun part => if part.1 then .char ' ' :: renderInline part.2 else renderInline part.2

/-- Both ways to join content put its renderings side by side, with spaces
between some of them. -/
theorem exists_spaced {parts : List Token} {content : Text}
    (h : content = joinAsWritten parts ∨
      content = join [.char ' '] (parts.map renderInline)) :
    ∃ marked : List (Bool × Token), content = spaced marked ∧
      marked.map Prod.snd = parts ∧
      ∀ part ∈ marked.head?, part.1 = false := by
  cases parts with
  | nil => exact ⟨[], by rcases h with rfl | rfl <;> rfl, rfl, by simp⟩
  | cons first rest =>
      rcases h with rfl | rfl
      · refine ⟨(false, first) :: rest.map fun tok => (tok.spaceBefore, tok), ?_,
          by simp [Function.comp_def], by simp⟩
        simp [joinAsWritten, spaced, List.flatMap_map]
      · refine ⟨(false, first) :: rest.map fun tok => (true, tok), ?_,
          by simp [Function.comp_def], by simp⟩
        simp only [List.map_cons]
        induction rest generalizing first with
        | nil => simp [spaced]
        | cons next rest ih =>
            rw [List.map_cons, join_cons_cons, ih next]
            simp [spaced]

/-- Renderings side by side are trimmed if each is, and no space stands before
the first. -/
theorem trimmed_spaced {marked : List (Bool × Token)}
    (hfirst : ∀ part ∈ marked.head?, part.1 = false)
    (h : ∀ part ∈ marked, Trimmed part.2.form.raw ∧ part.2.form.raw ≠ []) :
    Trimmed (spaced marked) := by
  cases marked with
  | nil => exact ⟨by simp [spaced], by simp [spaced]⟩
  | cons part rest =>
      obtain ⟨mark, first⟩ := part
      obtain rfl : mark = false := hfirst (mark, first) rfl
      have hhead := h (false, first) List.mem_cons_self
      rcases List.eq_nil_or_concat rest with rfl | ⟨middle, last, rfl⟩
      · simpa [spaced, Token.form] using hhead.1
      · have hlast := h last (by simp)
        have hsplit : spaced
          ((false, first) :: middle.concat last) = first.form.raw ++
            (spaced middle ++ if last.1 then [.char ' '] else []) ++ last.2.form.raw := by
          cases hmark : last.1 <;> simp [spaced, Token.form, hmark]
        rw [hsplit]
        exact hhead.1.surround hhead.2 hlast.1 hlast.2 _

/-- A brace at the end of a text goes to the interpolation that it comes to stand
before; what is left of the text is laid out before the two. -/
theorem laid_before_brace {s t raw : Text} (prev : Option Glyph)
    {lexemes : List Lexeme}
    (hs : Plain (s ++ [.char '\x7b']))
    (hraw : Closed .interpolation (.char '\x7b' :: raw))
    (h : Laid false raw.getLast? lexemes t) :
    ∃ front, Laid false prev
      (front ++ ⟨.interpolation, .char '\x7b' :: raw⟩ :: lexemes)
        (s ++ .char '\x7b' :: (raw ++ t)) ∧
      ∀ lexeme ∈ front, lexeme.kind = .text := by
  have hlaid : ∀ prev', Laid false prev'
    (⟨.interpolation, .char '\x7b' :: raw⟩ :: lexemes)
      (.char '\x7b' :: (raw ++ t)) := by
    intro prev'
    refine .closed hraw (by simp) ?_
    obtain ⟨body, last, hbody, -⟩ := hraw.last
    have hne : raw ≠ [] := by
      rintro rfl
      cases hraw
    obtain ⟨r, raw, rfl⟩ := List.exists_cons_of_ne_nil hne
    rwa [List.getLast?_cons_cons]
  have htrim := trimmed_trim s
  obtain ⟨a, w, hsplit, ha, hw⟩ := trim_spec s
  generalize trim s = core at hsplit htrim
  subst hsplit
  by_cases hcore : core = []
  · refine ⟨[], ?_, by simp⟩
    rw [hcore, List.append_nil, List.append_assoc]
    exact .blanks ha (.blanks hw (hlaid _))
  · refine ⟨[⟨.text, core⟩], ?_, by simp⟩
    have hinfix : core <:+: a ++ core ++ w ++ [.char '\x7b'] :=
      ⟨a, w ++ [.char '\x7b'], by simp⟩
    rw [List.append_assoc, List.append_assoc, List.singleton_append]
    refine .blanks ha
      (.text (hs.of_infix hinfix) htrim hcore ?_ (by simp) (.blanks hw (hlaid _)))
    -- a brace before the brace would be a marker
    intro r hr
    cases w with
    | cons b w =>
        obtain rfl : b = r := by simpa using hr
        exact .inl (hw b List.mem_cons_self)
    | nil =>
        obtain rfl : .char '\x7b' = r := by simpa using hr
        refine .inr (.inr (.inr ⟨rfl, fun hlast => ?_⟩))
        obtain ⟨body, last, rfl, -⟩ := htrim.exists_last hcore
        obtain rfl : last = .char '\x7b' := by simpa using hlast
        exact hs interpolationOpen (by decide) ⟨a ++
          body, [], by simp [interpolationOpen, text]⟩

/-- Content is text or an interpolation, and is written as such. -/
theorem form_of_isContent {tok : Token} (h : tok.isContent = true) :
    (tok.kind = .text ∧ tok.form.kind = .text) ∨
      (tok.kind = .interpolation ∧ tok.form.kind = .interpolation ∧
        tok.form.raw = Interpolation.normalize tok.literal) := by
  cases hkind : tok.kind with
  | text => exact .inl ⟨rfl, Token.form_kind_eq_text.mpr hkind⟩
  | interpolation =>
      exact .inr ⟨rfl, Token.form_kind_eq_interpolation.mpr hkind,
        by simp [Token.form, renderInline, hkind]⟩
  | _ => simp [Token.isContent, hkind] at h

/-- The pieces that content is read as, before the closing tag `closing`. -/
structure Told (closing : Lexeme) (prev : Option Glyph)
    (parts : List (Bool × Token))
    (lexemes : List Lexeme) : Prop where
  laid : Laid false prev (lexemes ++ [closing]) (spaced parts ++ closing.raw)
  kinds : ∀ lexeme ∈ lexemes, lexeme.kind = .text ∨ lexeme.kind = .interpolation
  same : (∀ part ∈ parts, part.2.kind ≠ .interpolation) →
  lexemes = parts.map fun part => part.2.form
  /-- An interpolation at the front is the first piece. -/
  front : ∀ mark tok rest, parts = (mark, tok) :: rest →
  tok.kind = .interpolation →
    ∃ later, lexemes = tok.form :: later ∧
      Laid false tok.form.raw.getLast? (later ++ [closing]) (spaced rest ++
        closing.raw)

/-- The space before a part of the content. -/
theorem spaced_cons (mark : Bool) (tok : Token) (rest : List (Bool × Token))
    (t : Text) :
    ∃ gap, (∀ r ∈ gap, r.isBlank = true) ∧ (mark = true → gap = [.char ' ']) ∧
      (mark = false → gap = []) ∧
      spaced ((mark, tok) :: rest) ++ t = gap ++ (tok.form.raw ++ (spaced rest ++ t)) := by
  refine ⟨if mark then [.char ' '] else [], ?_, ?_, ?_, ?_⟩ <;>
    cases mark <;> simp [spaced, Token.form]

/-- Content that starts with an interpolation. -/
theorem told_interpolation {closing : Lexeme} {prev : Option Glyph} {tok : Token}
    {rest : List (Bool × Token)} {lexemes : List Lexeme} (mark : Bool)
    (hkind : tok.kind = .interpolation)
    (hclosed : Closed .interpolation tok.form.raw)
    (h : Told closing tok.form.raw.getLast? rest lexemes) :
    Told closing prev ((mark, tok) :: rest) (tok.form :: lexemes) := by
  have hform : tok.form = ⟨.interpolation, tok.form.raw⟩ := by
    rw [← Token.form_kind_eq_interpolation.mpr hkind]
  refine ⟨?_, ?_, ?_, ?_⟩
  · obtain ⟨gap, hgap, -, -, hspaced⟩ := spaced_cons mark tok rest closing.raw
    rw [hspaced, hform]
    exact .blanks hgap (.closed hclosed (by simp) h.laid)
  · rw [hform]
    simpa using h.kinds
  · intro hnone
    exact absurd hkind (hnone (mark, tok) List.mem_cons_self)
  · rintro mark' tok' rest' heq -
    obtain ⟨⟨-, rfl⟩, rfl⟩ := by simpa using heq
    exact ⟨lexemes, rfl, h.laid⟩

/-- A text meets no marker in the content behind it: a space, the closing tag or an
interpolation stands there, and a `{` at its end does not stand right before an
interpolation. -/
theorem meets_spaced {s : Text} {closing : Lexeme}
    (hclosing : closing.raw.head? = some (.char '<')) {rest : List (Bool × Token)}
    (hrest : ∀ part ∈ rest.head?, Closed .interpolation part.2.form.raw)
    (hbrace : s.getLast? = some (.char '\x7b') →
      ∀ part ∈ rest.head?, part.1 = true) :
    Meets s (spaced rest ++ closing.raw) := by
  intro r hr
  cases rest with
  | nil =>
      have hr : closing.raw.head? = some r := hr
      exact .inr (.inl (by simpa [hclosing] using hr.symm))
  | cons part rest =>
      obtain ⟨mark, tok⟩ := part
      have hclosed := hrest (mark, tok) rfl
      obtain ⟨gap, -, htrue, hfalse, hspaced⟩ := spaced_cons mark tok rest closing.raw
      rw [hspaced] at hr
      cases mark with
      | true =>
          rw [htrue rfl] at hr
          cases hr
          exact .inl rfl
      | false =>
          rw [hfalse rfl, List.nil_append] at hr
          generalize tok.form.raw = raw at hr hclosed
          cases hclosed with
          | interpolation =>
              cases hr
              exact .inr (.inr
                (.inr ⟨rfl, fun hlast => by simpa using hbrace hlast (false, tok) rfl⟩))

/-- Content that starts with a text which stays a piece of its own. -/
theorem told_text_alone {closing : Lexeme} {prev : Option Glyph} {tok : Token}
    {rest : List (Bool × Token)} {lexemes : List Lexeme} (mark : Bool)
    (htext : tok.kind = .text)
    (hs : Plain tok.form.raw) (htrim : Trimmed tok.form.raw)
    (hne : tok.form.raw ≠ [])
    (hmeet : Meets tok.form.raw (spaced rest ++ closing.raw))
    (hnext : ∀ lexeme ∈ (lexemes ++ [closing]).head?, lexeme.kind ≠ .text)
    (h : Told closing tok.form.raw.getLast? rest lexemes) :
    Told closing prev ((mark, tok) :: rest) (tok.form :: lexemes) := by
  have hform : tok.form = ⟨.text, tok.form.raw⟩ := by
    rw [← Token.form_kind_eq_text.mpr htext]
  refine ⟨?_, ?_, ?_, ?_⟩
  · obtain ⟨gap, hgap, -, -, hspaced⟩ := spaced_cons mark tok rest closing.raw
    rw [hspaced, hform]
    exact .blanks hgap (.text hs htrim hne hmeet hnext h.laid)
  · rw [hform]
    simpa using h.kinds
  · intro hnone
    rw [h.same fun part hpart => hnone part (List.mem_cons_of_mem _ hpart),
      List.map_cons]
  · rintro mark' tok' rest' heq hinter
    obtain ⟨⟨-, rfl⟩, -⟩ := by simpa using heq
    simp [htext] at hinter

/-- Content that starts with a text whose `{` comes to stand right before an
interpolation, and is read as part of it. -/
theorem told_text_joined {closing : Lexeme} {prev : Option Glyph} {tok next : Token}
    {rest : List (Bool × Token)} {lexemes : List Lexeme} (mark : Bool)
    (htext : tok.kind = .text)
    (hs : Plain tok.form.raw)
    (hlast : tok.form.raw.getLast? = some (.char '\x7b'))
    (hinter : next.kind = .interpolation)
    (hclosed : Closed .interpolation next.form.raw)
    (h : Told closing tok.form.raw.getLast? ((false, next) :: rest) lexemes) :
    ∃ lexemes', Told closing prev ((mark, tok) :: (false, next) :: rest) lexemes' := by
  obtain ⟨later, rfl, hlater⟩ := h.front false next rest rfl hinter
  obtain ⟨body, hbody⟩ := List.getLast?_eq_some_iff.mp hlast
  have hraw : next.form.raw = Interpolation.normalize next.literal := by
    simp [Token.form, renderInline, hinter]
  have hopen : Closed .interpolation (.char '\x7b' :: next.form.raw) := by
    rw [hraw] at hclosed ⊢
    exact Interpolation.closed_brace_normalize hclosed
  obtain ⟨gap, hgap, -, -, hspaced⟩ :=
    spaced_cons mark tok ((false, next) :: rest) closing.raw
  obtain ⟨front, hlaid, hfronts⟩ :=
    laid_before_brace (gap.getLast?.or prev) (hbody ▸ hs) hopen hlater
  refine ⟨front ++ ⟨.interpolation, .char '\x7b' :: next.form.raw⟩ :: later, ?_, ?_, ?_, ?_⟩
  · obtain ⟨none, -, -, hnone, hspaced'⟩ := spaced_cons false next rest closing.raw
    rw [hspaced, hspaced', hnone rfl, hbody, List.nil_append, List.append_assoc,
      List.append_assoc, List.singleton_append]
    exact .blanks hgap hlaid
  · intro lexeme hmem
    rcases List.mem_append.mp hmem with hmem | hmem
    · exact .inl (hfronts lexeme hmem)
    · rcases List.mem_cons.mp hmem with rfl | hmem
      · exact .inr rfl
      · exact h.kinds lexeme (List.mem_cons_of_mem _ hmem)
  · intro hnone
    exact absurd hinter (hnone (false, next) (by simp))
  · rintro mark' tok' rest' heq hinter'
    obtain ⟨⟨-, rfl⟩, -⟩ := by simpa using heq
    simp [htext] at hinter'

/-- Content that starts with a text. -/
theorem told_text {closing : Lexeme}
    (hclosing : closing.raw.head? = some (.char '<'))
    (hkind : closing.kind ≠ .text) {prev : Option Glyph} {tok : Token}
    {rest : List (Bool × Token)} {lexemes : List Lexeme} (mark : Bool)
    (htext : tok.kind = .text)
    (hs : Plain tok.form.raw) (htrim : Trimmed tok.form.raw)
    (hne : tok.form.raw ≠ [])
    (hrest : ∀ part ∈ rest.head?, part.2.kind = .interpolation ∧
      Closed .interpolation part.2.form.raw)
    (h : Told closing tok.form.raw.getLast? rest lexemes) :
    ∃ lexemes', Told closing prev ((mark, tok) :: rest) lexemes' := by
  -- a brace at the end of the text meets an interpolation only without a space
  by_cases hbrace : tok.form.raw.getLast? = some (.char '\x7b') ∧
      ∃ next rest', rest = (false, next) :: rest'
  · obtain ⟨hlast, next, rest', rfl⟩ := hbrace
    obtain ⟨hinter, hclosed⟩ := hrest (false, next) rfl
    exact told_text_joined mark htext hs hlast hinter hclosed h
  · have hmeet : Meets tok.form.raw (spaced rest ++ closing.raw) := by
      refine meets_spaced hclosing (fun part hpart => (hrest part hpart).2) ?_
      rintro hlast ⟨mark', next⟩ hpart
      obtain ⟨rest', rfl⟩ := List.head?_eq_some_iff.mp hpart
      cases mark' with
      | true => rfl
      | false => exact absurd ⟨hlast, next, rest', rfl⟩ hbrace
    refine ⟨_, told_text_alone mark htext hs htrim hne hmeet ?_ h⟩
    cases rest with
    | nil =>
        obtain rfl : lexemes = [] := h.same (by simp)
        simpa using hkind
    | cons part rest =>
        obtain ⟨hinter, -⟩ := hrest part rfl
        obtain ⟨later, rfl, -⟩ := h.front part.1 part.2 rest rfl hinter
        simp [Token.form_kind_eq_interpolation.mpr hinter]

/-- Content and the closing tag behind it are laid out from pieces. -/
theorem exists_told {closing : Lexeme} (hclosed : Closed .tag closing.raw)
    (hkind : closing.kind = .tag) {parts : List (Bool × Token)}
    (hneat : Neat (parts.map (fun part => part.2.form) ++ [closing]))
    (hparts : ∀ part ∈ parts, part.2.isContent = true) (prev : Option Glyph) :
    ∃ lexemes, Told closing prev parts lexemes := by
  have hclosing : closing.raw.head? = some (.char '<') := by
    generalize closing.raw = raw at hclosed
    cases hclosed
    rfl
  induction parts generalizing prev with
  | nil =>
      refine ⟨[], ?_, by simp, fun _ => rfl, by simp⟩
      have hlaid : Laid false prev [⟨.tag, closing.raw⟩] (closing.raw ++ []) :=
        .closed hclosed (by simp) .nil
      rw [List.append_nil, ← hkind] at hlaid
      exact hlaid
  | cons part rest ih =>
      obtain ⟨mark, tok⟩ := part
      have hlater :=
        fun part hpart => hparts part (List.mem_cons_of_mem (mark, tok) hpart)
      have hinter : ∀ {tok : Token} {rest : List (Bool × Token)},
          Neat (tok.form :: (rest.map (fun part => part.2.form) ++ [closing])) →
          tok.kind = .interpolation → Closed .interpolation tok.form.raw := by
        intro tok rest hneat hkind
        have hform := Token.form_kind_eq_interpolation.mpr hkind
        rw [← hform]
        exact hneat.closed_of_head (by simp) (by simp [hform])
      obtain ⟨lexemes, h⟩ := ih hneat.tail hlater tok.form.raw.getLast?
      have hcontent : tok.isContent = true :=
        hparts (mark, tok) List.mem_cons_self
      rcases form_of_isContent hcontent with ⟨htext, hform⟩ | ⟨hkind', -⟩
      · obtain ⟨hs, htrim, hne, hnext⟩ := hneat.text_of_head hform
        refine told_text hclosing (by simp [hkind]) mark htext hs htrim hne ?_ h
        intro part hpart
        obtain ⟨rest, rfl⟩ : ∃ rest', rest = part :: rest' :=
          List.head?_eq_some_iff.mp hpart
        rcases form_of_isContent (hlater part List.mem_cons_self) with ⟨-,
          htext'⟩ | ⟨hpart', -⟩
        · exact absurd htext' (hnext part.2.form (by simp))
        · exact ⟨hpart', hinter hneat.tail hpart'⟩
      · exact ⟨_, told_interpolation mark hkind' (hinter hneat hkind') h⟩

/-- **The line of a content merge** is laid out from its tags and from texts and
interpolations between them: the forms of its content, if this holds no
interpolation. -/
theorem laid_content {tok closing : Token} {parts : List Token} {content : Text}
    (hneat : Neat ((tok :: (parts ++ [closing])).map Token.form))
    (htok : tok.form = ⟨.tag, tok.literal⟩)
    (hclosing : closing.form = ⟨.tag, closing.literal⟩)
    (hparts : ∀ part ∈ parts, part.isContent = true)
    (hcontent : content = joinAsWritten parts ∨
      content = join [.char ' '] (parts.map renderInline)) :
    ∃ inner, Laid false none (tok.form :: (inner ++ [closing.form]))
        (tok.literal ++ content.trim ++ closing.literal) ∧
      (∀ lexeme ∈ inner, lexeme.kind = .text ∨ lexeme.kind = .interpolation) ∧
      ((∀ part ∈ parts, part.kind ≠ .interpolation) → inner = parts.map Token.form) := by
  obtain ⟨marked, rfl, rfl, hfirst⟩ := exists_spaced hcontent
  have hopen : Closed .tag tok.literal := by
    have hclosed := hneat.closed_of_tag tok.form (by simp) (by rw [htok])
    rwa [htok] at hclosed
  have hend : Closed .tag closing.literal := by
    have hclosed := hneat.closed_of_tag closing.form (by simp) (by rw [hclosing])
    rwa [hclosing] at hclosed
  have htrim : Trimmed (spaced marked) := by
    refine trimmed_spaced hfirst fun part hpart => hneat.trimmed part.2.form ?_
    simp only [List.map_cons, List.map_append, List.map_map]
    exact List.mem_cons_of_mem _
      (List.mem_append_left _ (List.mem_map_of_mem hpart))
  have hneat' : Neat (marked.map (fun part => part.2.form) ++ [⟨.tag, closing.literal⟩]) := by
    simpa [hclosing, Function.comp_def] using hneat.tail
  obtain ⟨inner, htold⟩ := exists_told hend rfl hneat'
    (fun part hpart => hparts part.2 (List.mem_map_of_mem hpart))
    tok.literal.getLast?
  refine ⟨inner, ?_, htold.kinds, fun hnone => ?_⟩
  · rw [htrim.trim_eq, List.append_assoc, htok, hclosing]
    exact .closed hopen (by simp) htold.laid
  · rw [htold.same fun part hpart => hnone part.2 (List.mem_map_of_mem hpart)]
    simp [Function.comp_def]

/-! ## Merged elements -/

/-- Content is neither tag nor comment. -/
theorem isMarkup_of_isContent {tok : Token} (h : tok.isContent = true) :
    tok.form.isMarkup = false := by
  rcases form_of_isContent h with ⟨-, hform⟩ | ⟨-, hform, -⟩ <;> simp [isMarkup, hform]

/-- The last item of a list that is known to have two. -/
theorem getLast?_between {α : Type} (first : α) (middle : List α) (last : α) :
    (first :: (middle ++ [last])).getLast? = some last := by
  rw [← List.cons_append, List.getLast?_concat]

/-- **A merged element** is laid out from pieces that start and end with a tag.
Its tags and comments are bare the same as those it was merged from, and so are
all its pieces if it holds no interpolation.  Unless its line is a flattened one,
they are the very same. -/
theorem laid_line {tok : Token} {after : List Token} {merged : Merged}
    (h : Merges tok after merged) (hstart : tok.isStartTag = true)
    (hreadable : Token.Readable (tok :: after)) :
    ∃ lexemes, Laid false none lexemes merged.line ∧
      lexemes.head?.map Lexeme.kind = some .tag ∧
        lexemes.getLast?.map Lexeme.kind = some .tag ∧
      (lexemes.filter isMarkup).map bare =
        (((tok :: after.take merged.absorbed).map Token.form).filter isMarkup).map bare ∧
      (merged.line = flatten (tok :: after.take merged.absorbed) ∨
        lexemes.filter isMarkup =
        ((tok :: after.take merged.absorbed).map Token.form).filter isMarkup) ∧
      ((∀ t ∈ after.take merged.absorbed, t.kind ≠ .interpolation) →
        lexemes.map bare =
          ((tok :: after.take merged.absorbed).map Token.form).map bare) := by
  have htok :=
    form_of_element (.inl hstart) (hreadable.legible tok List.mem_cons_self)
  have hfront : ∀ {inner rest : List Token} {closing : Token},
    after = inner ++ closing :: rest →
      Neat ((tok :: (inner ++ [closing])).map Token.form) := by
    rintro inner rest closing rfl
    refine (Token.Readable.front (b := rest) ?_).neat
    simpa using hreadable
  cases h with
  | @content parts rest closing content hparts hclosing hcontent =>
      have hend :=
        form_of_element (.inr hclosing) (hreadable.legible closing (by simp))
      obtain ⟨inner, hlaid, hkinds, hsame⟩ :=
        laid_content (hfront rfl) htok hend hparts hcontent
      have hinner : inner.filter isMarkup = [] := by
        rw [List.filter_eq_nil_iff]
        intro lexeme hmem
        rcases hkinds lexeme hmem with hkind | hkind <;> simp [isMarkup, hkind]
      have hforms : (parts.map Token.form).filter isMarkup = [] := by
        rw [List.filter_eq_nil_iff]
        intro lexeme hmem
        obtain ⟨part, hpart, rfl⟩ := List.mem_map.mp hmem
        simp [isMarkup_of_isContent (hparts part hpart)]
      have htags : (tok.form :: (inner ++ [closing.form])).filter isMarkup =
          ((tok :: (parts ++ [closing])).map Token.form).filter isMarkup := by
        simp [List.filter_cons, hinner, hforms]
      rw [take_through]
      refine ⟨_, hlaid, by simp [htok], by simp [getLast?_between,
        hend], by rw [htags],
        .inr htags, fun hnone => ?_⟩
      · rw [hsame fun part hpart => hnone part (List.mem_append_left _ hpart)]
        simp
  | @tight inner rest closing hclosing =>
      obtain ⟨lexemes, hlaid, hbare⟩ := laid_flatten (hfront rfl) (by
        intro t ht
        obtain rfl : closing = t := by simpa [getLast?_between] using ht
        exact ⟨hclosing, hreadable.legible closing (by simp)⟩)
      have hend :=
        form_of_element (.inr hclosing) (hreadable.legible closing (by simp))
      have hkinds : lexemes.map Lexeme.kind =
        ((tok :: (inner ++ [closing])).map Token.form).map Lexeme.kind := by
        have := congrArg (List.map Prod.fst) hbare
        simpa [bare, Function.comp_def] using this
      rw [take_through]
      refine ⟨lexemes, hlaid, ?_, ?_, bare_filter hbare, .inl rfl, fun _ => hbare⟩
      · rw [← List.head?_map, hkinds]
        simp [htok]
      · rw [← List.getLast?_map, hkinds]
        simp [getLast?_between, hend]

end TemplateFormat.Layout
