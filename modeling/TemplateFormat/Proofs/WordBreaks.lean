import TemplateFormat.Proofs.MergedLines
import TemplateFormat.Proofs.StartTags

/-!
# Word breaks in compact content

Content that its author wrote compactly keeps its word breaks: between two parts a space is
written if `spaceBefore` says so of the second.  That flag looks at one glyph, the one right
before the span of the token, and knows the ASCII spaces only; the texts themselves are
trimmed of all white space.  So a break is never made up, and it is lost exactly if the
white space between the spans does not end in an ASCII space.

* `Token.Place`, `Lexeme.exists_place` — what stands before a token and at the ends of its span;
* `Token.spaceBefore_eq` — the flag, for a token behind content;
* `gapBetween` — the white space between two tokens, and `gapBetween_eq` where it is ASCII;
* `contentMerge_gap` — what a content merge writes between two parts.
-/

namespace TemplateFormat

namespace Markup

open Text

/-! ## What stands before a token -/

/-- A token in its place: the source before it, its span and the source behind it. -/
structure Token.Place (source : Text) (tok : Token) (before span after : Text) : Prop where
  source_eq : source = before ++ span ++ after
  pos_eq : tok.pos = before.width
  stop_eq : tok.stop = before.width + span.width
  /-- The flag is read off the glyph right before the span. -/
  space_eq : tok.spaceBefore = before.getLast?.any Glyph.isSpace
  /-- The span of a text leaves out the ASCII spaces at its ends. -/
  edges : tok.kind = .text → (∀ r ∈ span.head?, r.isSpace = false) ∧
    ∀ r ∈ span.getLast?, r.isSpace = false
  raw_eq : tok.kind = .interpolation → tok.literal = span

namespace Lexeme

/-- No piece is empty. -/
theorem raw_ne_nil (skip : Nat) (prev : Option Glyph) (pending s : Text) :
    ∀ lexeme ∈ splitFrom skip prev pending s, lexeme.raw ≠ [] := by
  have hpending : ∀ pending : Text, ∀ lexeme ∈ ofPending pending, lexeme.raw ≠ [] := by
    intro pending lexeme hmem
    rw [ofPending] at hmem
    split at hmem
    · cases hmem
    · next hne =>
        rw [List.mem_singleton.mp hmem]
        simpa using hne
  induction s generalizing skip prev pending with
  | nil =>
      cases skip <;> exact hpending pending
  | cons r s ih =>
      cases skip with
      | succ skip => exact ih skip (some r) pending
      | zero =>
          intro lexeme hmem
          rw [splitFrom] at hmem
          split at hmem
          · next kind n hmark =>
              obtain ⟨hpos, -⟩ := marked?_length hmark
              rcases List.mem_append.mp hmem with hmem | hmem
              · exact hpending pending lexeme hmem
              · rcases List.mem_cons.mp hmem with rfl | hmem
                · simp only [ne_eq, List.take_eq_nil_iff, List.cons_ne_nil, or_false]
                  omega
                · exact ih (n - 1) (some r) [] lexeme hmem
          · exact ih 0 (some r) (r :: pending) lexeme hmem

/-- What is left between the spaces at the ends of a text starts and ends in other glyphs. -/
theorem core_edges {front core back : Text}
    (hhead : (front ++ core ++ back).takeWhile Glyph.isSpace = front)
    (hend : (front ++ core ++ back).reverse.takeWhile Glyph.isSpace = back.reverse) :
    (∀ r ∈ core.head?, r.isSpace = false) ∧ ∀ r ∈ core.getLast?, r.isSpace = false := by
  have hstop : ∀ {u : Text} {r : Glyph} {v : Text},
      (u ++ r :: v).takeWhile Glyph.isSpace = u → r.isSpace = false := by
    intro u r v htake
    have hall : ∀ a ∈ u, a.isSpace = true := by
      rw [← htake]
      exact fun a ha => List.all_eq_true.mp List.all_takeWhile a ha
    rw [List.takeWhile_append_of_pos hall, List.append_right_eq_self] at htake
    cases hr : r.isSpace with
    | false => rfl
    | true => simp [hr] at htake
  constructor
  · intro r hr
    obtain ⟨core, rfl⟩ : ∃ rest, core = r :: rest := by
      cases core with
      | nil => cases hr
      | cons a rest => exact ⟨rest, by simpa using hr⟩
    rw [List.append_assoc, List.cons_append] at hhead
    exact hstop hhead
  · intro r hr
    obtain ⟨body, rfl⟩ := List.getLast?_eq_some_iff.mp hr
    have hshape : (front ++ (body ++ [r]) ++ back).reverse =
        back.reverse ++ r :: (front ++ body).reverse := by simp
    rw [hshape] at hend
    exact hstop hend

/-- **The token of a piece** stands in the piece, behind what stands before it. -/
theorem place_of_token? {front : Text} {lexeme : Lexeme} {tok : Token}
    (h : lexeme.token? front.width front.getLast? = some tok) :
    ∃ before span after, tok.Place (front ++ lexeme.raw) before span after := by
  rcases lexeme with ⟨kind, raw⟩
  have hmarked : ∀ (kind : Token.Kind) (literal : Text), kind ≠ .text →
      (kind = .interpolation → literal = raw) →
      (place kind literal front.getLast? front.width (front.width + raw.width)).Place
        (front ++ raw) front raw [] := by
    intro kind literal htext hraw
    exact ⟨by simp, rfl, rfl, rfl, fun h => absurd h htext, hraw⟩
  cases kind with
  | text =>
      simp only [token?] at h
      split at h
      · cases h
      · next hne =>
          obtain ⟨lead, core, back, rfl, -, -, hhead, hend⟩ := exists_core (exists_not_space hne)
          rw [hhead, hend] at h
          cases h
          refine ⟨front ++ lead, core, back, by simp, ?_, ?_, ?_, ?_, ?_⟩
          · simp [place]
          · simp only [place, width_append, width_reverse]
            omega
          · simp [place, List.getLast?_append]
          · exact fun _ => core_edges hhead hend
          · simp [place]
  | interpolation =>
      cases h
      exact ⟨front, raw, [], hmarked _ _ (by simp) fun _ => rfl⟩
  | _ =>
      cases h
      exact ⟨front, raw, [], hmarked _ _ (by simp [tagKind]) (by simp [tagKind])⟩

/-- **A token of pieces** stands in their text. -/
theorem exists_place {lexemes : List Lexeme} (hne : ∀ lexeme ∈ lexemes, lexeme.raw ≠ [])
    (front : Text) {tok : Token}
    (htok : tok ∈ Token.ofLexemes front.width front.getLast? lexemes) :
    ∃ before span after, tok.Place (front ++ lexemes.flatMap raw) before span after := by
  induction lexemes generalizing front with
  | nil => cases htok
  | cons lexeme rest ih =>
      have hlast : lexeme.raw.getLast? = (front ++ lexeme.raw).getLast? := by
        rw [List.getLast?_append]
        obtain ⟨body, last, hraw⟩ := List.eq_nil_or_concat lexeme.raw |>.resolve_left
          (hne lexeme List.mem_cons_self)
        simp [hraw]
      have hlater : tok ∈ Token.ofLexemes (front.width + lexeme.raw.width)
            lexeme.raw.getLast? rest →
          ∃ before span after,
            tok.Place (front ++ (lexeme :: rest).flatMap raw) before span after := by
        intro hmem
        rw [← width_append, hlast] at hmem
        have hplace := ih (fun l hl => hne l (List.mem_cons_of_mem lexeme hl)) _ hmem
        rwa [List.append_assoc] at hplace
      rw [Token.ofLexemes] at htok
      split at htok
      · next first hfirst =>
          rcases List.mem_cons.mp htok with rfl | htok
          · obtain ⟨before, span, after, hplace⟩ := place_of_token? hfirst
            refine ⟨before, span, after ++ rest.flatMap raw, ?_, hplace.pos_eq, hplace.stop_eq,
              hplace.space_eq, hplace.edges, hplace.raw_eq⟩
            rw [List.flatMap_cons, ← List.append_assoc, hplace.source_eq, List.append_assoc]
          · exact hlater htok
      · exact hlater htok

end Lexeme

namespace Token

/-- The tokens of a source stand in it. -/
theorem place_of_mem {source : Text} {tok : Token} (htok : tok ∈ scan source) :
    ∃ before span after, tok.Place source before span after := by
  have hplace := Lexeme.exists_place (Lexeme.raw_ne_nil 0 none [] source) [] htok
  have hraws : [] ++ (Lexeme.splitFrom 0 none [] source).flatMap Lexeme.raw = source :=
    Lexeme.split_raws source
  rwa [hraws] at hplace

namespace Place

variable {source before span after before' span' after' : Text} {x y : Token}

/-- The span of a token is cut out by its offsets. -/
theorem slice_eq (h : x.Place source before span after) :
    source.slice x.pos x.stop = span := by
  rw [h.source_eq, h.pos_eq, h.stop_eq, slice_append]

/-- What stands between two spans. -/
theorem between (hx : x.Place source before span after)
    (hy : y.Place source before' span' after') (hle : x.stop ≤ y.pos) :
    before' = before ++ span ++ source.slice x.stop y.pos := by
  have hsame : (before ++ span) ++ after = before' ++ (span' ++ after') := by
    rw [← hx.source_eq, hy.source_eq, List.append_assoc]
  obtain ⟨mid, hbefore, -⟩ : ∃ mid, before' = before ++ span ++ mid ∧
      after = mid ++ (span' ++ after') := by
    rcases List.append_eq_append_iff.mp hsame with hmid | ⟨mid, hfront, hback⟩
    · exact hmid
    · obtain rfl : mid = [] := by
        by_contra hne
        have hwidth := width_pos_of_ne_nil hne
        have htotal := congrArg width hfront
        rw [width_append, width_append] at htotal
        rw [hx.stop_eq, hy.pos_eq] at hle
        omega
      exact ⟨[], by simpa using hfront.symm, by simpa using hback.symm⟩
  have hslice : source.slice x.stop y.pos = mid := by
    have hstart : x.stop = (before ++ span).width := by rw [hx.stop_eq, width_append]
    have hend : y.pos = (before ++ span).width + mid.width := by
      rw [hy.pos_eq, hbefore, width_append]
    rw [hy.source_eq, hbefore, hstart, hend, List.append_assoc _ span', slice_append]
  rw [hslice, hbefore]

end Place

/-- Content before other tokens has a span that neither starts nor ends in an ASCII space. -/
theorem edges_of_content {source b span c : Text} {before after : List Token} {tok : Token}
    (htokens : scan source = before ++ tok :: after) (hafter : after ≠ [])
    (hcontent : tok.isContent = true) (hplace : tok.Place source b span c) :
    span ≠ [] ∧ (∀ r ∈ span.head?, r.isSpace = false) ∧ ∀ r ∈ span.getLast?, r.isSpace = false := by
  have hne : span ≠ [] := by
    have hmem : tok ∈ scan source := by rw [htokens]; simp
    have hspan := pos_lt_stop hmem
    rintro rfl
    have hzero := hplace.stop_eq
    rw [← hplace.pos_eq, width_nil] at hzero
    omega
  refine ⟨hne, ?_⟩
  cases hkind : tok.kind with
  | text => exact hplace.edges hkind
  | interpolation =>
      obtain ⟨kind, raw, hclosed, hread⟩ :=
        Lexeme.exists_closed (Lexeme.sound_split source) htokens hafter (by simp [hkind])
      obtain ⟨rfl, rfl⟩ : kind = .interpolation ∧ raw = span := by
        rw [hkind, hplace.raw_eq hkind] at hread
        cases hclosed <;> simp_all [Lexeme.reading, Lexeme.tagKind]
      have hspace : ∀ {r : Glyph}, r.isBlank = false → r.isSpace = false := by
        intro r hr
        cases hs : r.isSpace with
        | false => rfl
        | true => simp [Glyph.isBlank_of_isSpace hs] at hr
      exact ⟨fun r hr => hspace (hclosed.trimmed.head r hr),
        fun r hr => hspace (hclosed.trimmed.last r hr)⟩
  | _ => simp [isContent, hkind] at hcontent

/-- **The flag of a token behind content** tells whether the source between the two spans
ends in an ASCII space. -/
theorem spaceBefore_eq {source : Text} {before after : List Token} {x y : Token}
    (htokens : scan source = before ++ x :: y :: after) (hx : x.isContent = true) :
    y.spaceBefore = (source.slice x.stop y.pos).getLast?.any Glyph.isSpace := by
  have hmem : x ∈ scan source ∧ y ∈ scan source := by simp [htokens]
  obtain ⟨b, span, c, hplace⟩ := place_of_mem hmem.1
  obtain ⟨b', span', c', hplace'⟩ := place_of_mem hmem.2
  obtain ⟨hne, -, hlast⟩ := edges_of_content htokens (by simp) hx hplace
  have hseparated := (spans_scan source).separated
  rw [htokens, List.pairwise_append] at hseparated
  have hle : x.stop ≤ y.pos := List.rel_of_pairwise_cons hseparated.2.1 List.mem_cons_self
  rw [hplace'.space_eq, hplace.between hplace' hle, List.getLast?_append]
  cases hmid : (source.slice x.stop y.pos).getLast? with
  | some r => simp
  | none =>
      obtain ⟨body, last, rfl⟩ := (List.eq_nil_or_concat span).resolve_left hne
      simpa using hlast last (by simp)

end Token

end Markup

namespace Layout

open Text Markup

/-! ## The white space between two tokens -/

/-- The source between the last glyph of a token that is not blank and the first one of the
next token: the blanks at the end of its span, what stands between the spans, and the blanks
at the start of the other span. -/
def gapBetween (source : Text) (x y : Token) : Text :=
  ((source.slice x.pos x.stop).reverse.takeWhile Glyph.isBlank).reverse ++
    source.slice x.stop y.pos ++ (source.slice y.pos y.stop).takeWhile Glyph.isBlank

/-- There is nothing but white space between two tokens. -/
theorem blank_gapBetween {source : Text} {before after : List Token} {x y : Token}
    (htokens : Token.scan source = before ++ x :: y :: after) :
    ∀ r ∈ gapBetween source x y, r.isBlank = true := by
  have hmiddle : ∀ r ∈ source.slice x.stop y.pos, r.isBlank = true := by
    obtain ⟨s, gap, hslice, hspans, hgap⟩ := @Token.spans_between source before [] after x y htokens
    cases hspans with
    | stop hs =>
        intro r hr
        rw [hslice] at hr
        exact (List.mem_append.mp hr).elim (hs r) (hgap r)
  have hend : ∀ {s : Text} {r : Glyph}, r ∈ s.takeWhile Glyph.isBlank → r.isBlank = true :=
    fun hr => List.all_eq_true.mp List.all_takeWhile _ hr
  intro r hr
  rw [gapBetween, List.mem_append, List.mem_append, List.mem_reverse] at hr
  rcases hr with (hr | hr) | hr
  · exact hend hr
  · exact hmiddle r hr
  · exact hend hr

/-- Where all of it is ASCII, it stands between the spans. -/
theorem gapBetween_eq {source : Text} {before after : List Token} {x y : Token}
    (htokens : Token.scan source = before ++ x :: y :: after) (hafter : after ≠ [])
    (hx : x.isContent = true) (hy : y.isContent = true)
    (hspaces : ∀ r ∈ gapBetween source x y, r.isSpace = true) :
    gapBetween source x y = source.slice x.stop y.pos := by
  have hmem : x ∈ Token.scan source ∧ y ∈ Token.scan source := by simp [htokens]
  obtain ⟨b, span, c, hplace⟩ := Token.place_of_mem hmem.1
  obtain ⟨b', span', c', hplace'⟩ := Token.place_of_mem hmem.2
  obtain ⟨-, -, hlast⟩ := Token.edges_of_content htokens (by simp) hx hplace
  have htokens' : Token.scan source = (before ++ [x]) ++ y :: after := by simp [htokens]
  obtain ⟨-, hhead, -⟩ := Token.edges_of_content htokens' hafter hy hplace'
  -- a blank at the inner end of a span would be an ASCII space there
  have hnone : ∀ s : Text, (∀ r ∈ s.takeWhile Glyph.isBlank, r.isSpace = true) →
      (∀ r ∈ s.head?, r.isSpace = false) → s.takeWhile Glyph.isBlank = [] := by
    intro s hall hfirst
    cases s with
    | nil => rfl
    | cons r s =>
        cases hr : r.isBlank with
        | false => simp [hr]
        | true =>
            have hspace := hall r (by simp [hr])
            simp [hfirst r rfl] at hspace
  rw [gapBetween, hplace.slice_eq, hplace'.slice_eq] at hspaces ⊢
  have hback : span.reverse.takeWhile Glyph.isBlank = [] := by
    refine hnone _ (fun r hr => hspaces r ?_) (fun r hr => hlast r ?_)
    · exact List.mem_append_left _ (List.mem_append_left _ (List.mem_reverse.mpr hr))
    · rwa [List.head?_reverse] at hr
  have hfront : span'.takeWhile Glyph.isBlank = [] :=
    hnone _ (fun r hr => hspaces r (List.mem_append_right _ hr)) hhead
  rw [hback, hfront]
  simp

/-- A space between the spans is white space between the tokens. -/
theorem gapBetween_ne_nil {source : Text} {x y : Token}
    (h : (source.slice x.stop y.pos).getLast?.any Glyph.isSpace = true) :
    gapBetween source x y ≠ [] := by
  intro hnil
  rw [gapBetween, List.append_eq_nil_iff, List.append_eq_nil_iff] at hnil
  simp [hnil.1.2] at h

/-- White space between the tokens that is all ASCII ends in a space between the spans. -/
theorem space_of_gapBetween {source : Text} {before after : List Token} {x y : Token}
    (htokens : Token.scan source = before ++ x :: y :: after) (hafter : after ≠ [])
    (hx : x.isContent = true) (hy : y.isContent = true)
    (hspaces : ∀ r ∈ gapBetween source x y, r.isSpace = true) (hne : gapBetween source x y ≠ []) :
    (source.slice x.stop y.pos).getLast?.any Glyph.isSpace = true := by
  have hslice := gapBetween_eq htokens hafter hx hy hspaces
  rw [hslice] at hspaces hne
  obtain ⟨body, last, hlast⟩ := (List.eq_nil_or_concat _).resolve_left hne
  rw [hlast] at hspaces ⊢
  simpa using hspaces last (by simp)

/-! ## Content joined as it was written -/

/-- Content joined as it was written has a space before each part that had one; the first has
none. -/
theorem joinAsWritten_eq (first : Token) (rest : List Token) :
    joinAsWritten (first :: rest) =
      spaced ((false, first) :: rest.map fun tok => (tok.spaceBefore, tok)) := by
  simp [joinAsWritten, spaced, List.flatMap_map]

/-- Marked parts have the glyphs of their tokens. -/
theorem strip_spaced (marked : List (Bool × Token)) :
    strip (spaced marked) = Token.ink (marked.map Prod.snd) := by
  induction marked with
  | nil => rfl
  | cons part marked ih =>
      obtain ⟨mark, tok⟩ := part
      have hcons : spaced ((mark, tok) :: marked) =
          (if mark then .char ' ' :: renderInline tok else renderInline tok) ++ spaced marked := rfl
      rw [hcons, strip_append, ih]
      cases mark <;> simp

/-- Between two marked parts stands a space if the second is marked. -/
theorem exists_spaced_gap (m n : List (Bool × Token)) (mark mark' : Bool) (x y : Token) :
    ∃ front back : Text, spaced (m ++ (mark, x) :: (mark', y) :: n) =
        front ++ renderInline x ++ (if mark' then [.char ' '] else []) ++ renderInline y ++ back ∧
      strip front = Token.ink (m.map Prod.snd) ∧ strip back = Token.ink (n.map Prod.snd) := by
  refine ⟨spaced m ++ if mark then [.char ' '] else [], spaced n, ?_, ?_, strip_spaced n⟩
  · cases mark <;> cases mark' <;> simp [spaced]
  · rw [strip_append, strip_spaced]
    cases mark <;> simp

/-- **Two neighbours** in content joined as it was written have a space between them if one
stood before the second. -/
theorem exists_joinAsWritten (a b : List Token) (x y : Token) :
    ∃ front back : Text, joinAsWritten (a ++ x :: y :: b) =
        front ++ renderInline x ++ (if y.spaceBefore then [.char ' '] else []) ++
          renderInline y ++ back ∧
      strip front = Token.ink a ∧ strip back = Token.ink b := by
  cases a with
  | nil =>
      rw [List.nil_append, joinAsWritten_eq, List.map_cons]
      simpa [Function.comp_def] using
        exists_spaced_gap [] (b.map fun tok => (tok.spaceBefore, tok)) false y.spaceBefore x y
  | cons first a =>
      rw [List.cons_append, joinAsWritten_eq, List.map_append, List.map_cons, List.map_cons,
        ← List.cons_append]
      simpa [Function.comp_def] using
        exists_spaced_gap ((false, first) :: a.map fun tok => (tok.spaceBefore, tok))
          (b.map fun tok => (tok.spaceBefore, tok)) x.spaceBefore y.spaceBefore x y

/-- Content before other tokens is written trimmed. -/
theorem trimmed_content {source : Text} {before after : List Token} {tok : Token}
    (htokens : Token.scan source = before ++ tok :: after) (hafter : after ≠ [])
    (hcontent : tok.isContent = true) : Trimmed (renderInline tok) ∧ renderInline tok ≠ [] := by
  cases hkind : tok.kind with
  | text =>
      have hmem : tok ∈ Token.scan source := by simp [htokens]
      have hink := (Token.spans_scan source).strip_literal hmem
      obtain ⟨-, span, -, -, -, -, -, hliteral⟩ := (Token.spans_scan source).exists_span hmem
      rw [hkind] at hliteral
      have hrender : renderInline tok = tok.literal := by simp [renderInline, hkind]
      rw [hrender]
      refine ⟨?_, fun hnil => hink (by rw [hnil]; rfl)⟩
      rw [hliteral]
      exact trimmed_collapse span
  | interpolation =>
      obtain ⟨kind, raw, hclosed, hread⟩ :=
        Lexeme.exists_closed (Lexeme.sound_split source) htokens hafter (by simp [hkind])
      obtain ⟨-, hform, -⟩ := Lexeme.form_of_closed hclosed hread
      exact ⟨hform.trimmed, hform.ne_nil⟩
  | _ => simp [Token.isContent, hkind] at hcontent

/-- The parts of an element are written trimmed: none of them is the last token. -/
theorem crisp_of_gather {source : Text} {before after parts : List Token} {tok closing : Token}
    (htokens : Token.scan source = before ++ tok :: after)
    (hgather : gather tok.name [] (after.take (contentWindow - 1)) = some (parts, closing)) :
    Printer.Crisp parts := by
  obtain ⟨⟨later, rfl⟩, -⟩ := Rebuilt.reaches_of_gather hgather
  intro part hpart
  have hcontent := isContent_of_gather hgather part hpart
  obtain ⟨front, back, rfl⟩ := List.append_of_mem hpart
  have hplace : Token.scan source =
      (before ++ tok :: front) ++ part :: (back ++ closing :: later) := by
    rw [htokens]
    simp
  exact trimmed_content hplace (by simp) hcontent

/-- Content joined as it was written is trimmed if its parts are. -/
theorem trimmed_joinAsWritten {parts : List Token} (h : Printer.Crisp parts) :
    Trimmed (joinAsWritten parts) := by
  obtain ⟨marked, hmarked, htokens, hfirst⟩ := @exists_spaced parts _ (.inl rfl)
  rw [hmarked]
  refine trimmed_spaced hfirst fun part hpart => h part.2 ?_
  rw [← htokens]
  exact List.mem_map_of_mem hpart

/-- What a content merge writes if its parts were written compactly. -/
theorem line_of_compact {o : Options} {ix : SourceIndex} {after parts : List Token}
    {tok closing : Token} {memo : SourceIndex.Memo} {merged : Merged} (hne : parts ≠ [])
    (hgather : gather tok.name [] (after.take (contentWindow - 1)) = some (parts, closing))
    (hcompact : (ix.written (tok.literal ++ (parts.map renderInline).flatten ++ closing.literal)
      memo).1 = .compact)
    (hmerged : (contentMerge o ix tok after memo).1 = some merged) :
    merged.line = tok.literal ++ (joinAsWritten parts).trim ++ closing.literal := by
  have hbuild : (buildElement ix tok.literal parts closing.literal memo).1 =
      tok.literal ++ (joinAsWritten parts).trim ++ closing.literal := by
    rw [buildElement, if_neg (by simpa using hne)]
    dsimp only
    rw [if_pos hcompact]
  rw [contentMerge, hgather] at hmerged
  dsimp only at hmerged
  split at hmerged
  · rw [← hbuild, ← Option.some.inj hmerged]
  · cases hmerged

/-- **The word breaks of compact content.**  Let a content merge put an element on one line
whose parts were written compactly, and let `x` and `y` be neighbours among the parts.  Their
renderings, which start and end in glyphs that are not blank, stand on the line in their
places.  The white space that is written between them is there only if there is white space
between them in the source; and it is there if and only if there is white space in the
source exactly if that is nothing, or ends in an ASCII space right before the span of `y`.  In
particular the two agree where the source has ASCII spaces only. -/
theorem contentMerge_gap {o : Options} {ix : SourceIndex} {source : Text}
    {before after parts : List Token} {tok closing : Token} {memo : SourceIndex.Memo}
    {merged : Merged} (htokens : Token.scan source = before ++ tok :: after)
    (hgather : gather tok.name [] (after.take (contentWindow - 1)) = some (parts, closing))
    (hcompact : (ix.written (tok.literal ++ (parts.map renderInline).flatten ++ closing.literal)
      memo).1 = .compact)
    (hmerged : (contentMerge o ix tok after memo).1 = some merged) :
    ∀ a x y b, parts = a ++ x :: y :: b → ∃ front gap back : Text,
      merged.line = front ++ renderInline x ++ gap ++ renderInline y ++ back ∧
      strip front = Token.ink (tok :: a) ∧ strip back = Token.ink (b ++ [closing]) ∧
      Printer.Crisp [x, y] ∧
      (∀ r ∈ gap ++ gapBetween source x y, r.isBlank = true) ∧
      (gap ≠ [] → gapBetween source x y ≠ []) ∧
      ((gap ≠ [] ↔ gapBetween source x y ≠ []) ↔ gapBetween source x y = [] ∨
        (source.slice x.stop y.pos).getLast?.any Glyph.isSpace = true) ∧
      ((∀ r ∈ gapBetween source x y, r.isSpace = true) →
        (gap ≠ [] ↔ gapBetween source x y ≠ [])) := by
  rintro a x y b rfl
  obtain ⟨⟨later, rfl⟩, -⟩ := Rebuilt.reaches_of_gather hgather
  have hall := isContent_of_gather hgather
  have hx : x.isContent = true := hall x (by simp)
  have hy : y.isContent = true := hall y (by simp)
  have hplace : Token.scan source =
      (before ++ tok :: a) ++ x :: y :: (b ++ closing :: later) := by
    rw [htokens]
    simp
  have hcrisp := crisp_of_gather htokens hgather
  have hline := line_of_compact (by simp) hgather hcompact hmerged
  obtain ⟨front, back, hjoin, hfront, hback⟩ := exists_joinAsWritten a b x y
  rw [(trimmed_joinAsWritten hcrisp).trim_eq, hjoin] at hline
  have hflag := Token.spaceBefore_eq hplace hx
  have hgap : ((if y.spaceBefore then [Glyph.char ' '] else []) ≠ []) ↔
      (source.slice x.stop y.pos).getLast?.any Glyph.isSpace = true := by
    rw [← hflag]
    cases y.spaceBefore <;> simp
  refine ⟨tok.literal ++ front, if y.spaceBefore then [.char ' '] else [],
    back ++ closing.literal, ?_, ?_, ?_, ?_, ?_, ?_, ?_, ?_⟩
  · rw [hline]
    simp only [List.append_assoc]
  · rw [strip_append, hfront, Token.ink_cons]
  · rw [strip_append, hback, Token.ink_append]
    simp
  · intro part hpart
    have hone : part = x ∨ part = y := by simpa using hpart
    rcases hone with rfl | rfl <;> exact hcrisp _ (by simp)
  · intro r hr
    rcases List.mem_append.mp hr with hr | hr
    · split at hr
      · rw [List.mem_singleton.mp hr]
        rfl
      · cases hr
    · exact blank_gapBetween hplace r hr
  · exact fun hne => gapBetween_ne_nil (hgap.mp hne)
  · have hsome := @gapBetween_ne_nil source x y
    rw [hgap]
    grind
  · intro hspaces
    rw [hgap]
    exact ⟨gapBetween_ne_nil, space_of_gapBetween hplace (by simp) hx hy hspaces⟩

/-- Words before and behind interpolations, with a space, a tab and no break at all. -/
theorem contentMerge_gap_mixed :
    let source := text "<p>a \x7b\x7bb\x7d\x7dc\t\x7b\x7bd\x7d\x7d</p>"
    let p := Printer.ofSource {} source
    let tok : Token := ⟨.tag (text "p") false false, text "<p>", false, 0, 3⟩
    let front : List Token :=
      [⟨.text, text "a", false, 3, 4⟩, ⟨.interpolation, text "\x7b\x7bb\x7d\x7d", true, 5, 10⟩]
    let x : Token := ⟨.text, text "c", false, 10, 11⟩
    let y : Token := ⟨.interpolation, text "\x7b\x7bd\x7d\x7d", true, 12, 17⟩
    let closing : Token := ⟨.tag (text "p") true false, text "</p>", false, 17, 21⟩
    let merged : Merged := ⟨text "<p>a \x7b\x7b b \x7d\x7dc \x7b\x7b d \x7d\x7d</p>", 5⟩
    p.tokens = [] ++ tok :: (front ++ [x, y, closing]) ∧
    (contentMerge {} p.index tok (front ++ [x, y, closing]) {}).1 = some merged ∧
    gapBetween source x y = [.char '\t'] ∧
    ∃ before gap after : Text,
      merged.line = before ++ renderInline x ++ gap ++ renderInline y ++ after ∧
      (gap ≠ [] ↔ gapBetween source x y ≠ []) := by
  intro source p tok front x y closing merged
  have htokens : Token.scan source = [] ++ tok :: (front ++ [x, y, closing]) := by decide +kernel
  have hgather : gather tok.name [] ((front ++ [x, y, closing]).take (contentWindow - 1)) =
      some (front ++ [x, y], closing) := by decide +kernel
  have hcompact : (p.index.written (tok.literal ++ ((front ++ [x, y]).map renderInline).flatten ++
      closing.literal) {}).1 = .compact := by decide +kernel
  have hmerged : (contentMerge {} p.index tok (front ++ [x, y, closing]) {}).1 = some merged := by
    decide +kernel
  have hspaces : ∀ r ∈ gapBetween source x y, r.isSpace = true := by decide +kernel
  obtain ⟨before, gap, after, hline, -, -, -, -, -, -, hascii⟩ :=
    contentMerge_gap htokens hgather hcompact hmerged front x y [] rfl
  exact ⟨htokens, hmerged, by decide +kernel, before, gap, after, hline, hascii hspaces⟩

/-- A no-break space between a word and an interpolation is no ASCII space: the two are
written side by side. -/
theorem contentMerge_gap_nbsp :
    let source := text "<p>a\u00a0\x7b\x7bb\x7d\x7d</p>"
    let p := Printer.ofSource {} source
    let tok : Token := ⟨.tag (text "p") false false, text "<p>", false, 0, 3⟩
    let x : Token := ⟨.text, text "a", false, 3, 6⟩
    let y : Token := ⟨.interpolation, text "\x7b\x7bb\x7d\x7d", false, 6, 11⟩
    let closing : Token := ⟨.tag (text "p") true false, text "</p>", false, 11, 15⟩
    p.tokens = [tok, x, y, closing] ∧
    (p.index.written (tok.literal ++ ([x, y].map renderInline).flatten ++ closing.literal) {}).1 =
      .compact ∧
    gapBetween source x y = [.char '\u00a0'] ∧
    (contentMerge {} p.index tok [x, y, closing] {}).1 =
      some ⟨text "<p>a\x7b\x7b b \x7d\x7d</p>", 3⟩ ∧
    format {} source = .ok (text "<p>a\x7b\x7b b \x7d\x7d</p>") := by
  intro source p tok x y closing
  have hlayout : layout {} source = text "<p>a\x7b\x7b b \x7d\x7d</p>" := by decide +kernel
  refine ⟨by decide +kernel, by decide +kernel, by decide +kernel, by decide +kernel, ?_⟩
  rw [← hlayout]
  exact format_eq_layout (by decide) (by decide) (by decide)

end Layout

end TemplateFormat
