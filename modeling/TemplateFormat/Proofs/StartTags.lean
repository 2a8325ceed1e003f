import TemplateFormat.Proofs.Lookups
import Mathlib.Data.List.Nodup

/-!
# Elements by their start tags

A start tag belongs to one element at most, so an element is known by the place where it
starts; and a start tag that has a closing tag behind it is a tag that ends.

* `Element.exists_tokens` — the tags of an element stand in the token list, the start tag
  first, with the tokens of its content between them;
* `Element.eq_of_start` — two elements that start at one place are the same;
* `Element.squash_openingTag`, `SourceIndex.holds_byOpening` — elements are entered under
  their squashed start tags, the first one of each;
* `Lexeme.exists_closed`, `closed_of_isStartTag` — a start tag before other tokens is a tag that
  ends.
-/

namespace TemplateFormat

/-- A blank has no letter for its lower case. -/
theorem Glyph.isLetter_lower_of_isBlank {r : Glyph} (h : r.isBlank = true) :
    r.lower.isLetter = false := by
  have hcodes : ∀ n ∈ List.range' 9 5 ++ List.range' 0x2000 11 ++
      [0x20, 0x85, 0xA0, 0x1680, 0x2028, 0x2029, 0x202F, 0x205F, 0x3000],
      (Glyph.lower (.char (Char.ofNat n))).isLetter = false := by decide +kernel
  cases r with
  | stray b => rfl
  | char c =>
      rw [← Char.ofNat_toNat c]
      apply hcodes
      simp only [Glyph.isBlank, Bool.or_eq_true, Bool.and_eq_true, decide_eq_true_eq,
        beq_iff_eq] at h
      simp only [List.mem_append, List.mem_range'_1, List.mem_cons, List.not_mem_nil, or_false]
      omega

namespace Markup

open Text

namespace Token

/-- No two tokens of a source start at one place. -/
theorem nodup_pos (source : Text) :
    ((scan source).map pos).Nodup := by
  rw [List.Nodup, List.pairwise_map]
  refine (spans_scan source).separated.imp_of_mem fun {a b} ha _ hab hpos => ?_
  have hspan := pos_lt_stop ha
  omega

/-- **The source between two tokens** is partitioned by the tokens between them. -/
theorem spans_between {source : Text} {before inner rest : List Token} {first last : Token}
    (h : scan source = before ++ first :: (inner ++ last :: rest)) :
    ∃ s gap, source.slice first.stop last.pos = s ++ gap ∧ Spans first.stop s inner ∧
      ∀ r ∈ gap, r.isBlank = true := by
  have hspans := spans_scan source
  have hshape : before ++ first :: (inner ++ last :: rest) =
      (before ++ [first]) ++ (inner ++ last :: rest) := by simp
  rw [h, hshape] at hspans
  obtain ⟨x, y, rfl, -, hy, hfirst⟩ := hspans.split
  rw [List.getLast?_concat, Option.map_some, Option.getD_some] at hfirst
  obtain ⟨s, w, rfl, hs, hw, -⟩ := hy.split
  cases hw with
  | @token _ gap span rest _ _ hgap hspan hpos _ _ _ _ =>
      rw [hfirst] at hs hpos
      refine ⟨s, gap, ?_, hs, hgap⟩
      have hsource : x ++ (s ++ (gap ++ span ++ rest)) = x ++ (s ++ gap) ++ (span ++ rest) := by
        simp only [List.append_assoc]
      have hlast : last.pos = x.width + (s ++ gap).width := by
        rw [width_append]
        omega
      rw [hsource, ← hfirst, hlast, Nat.zero_add, slice_append]

end Token

/-! ## Pieces that end -/

/-- **A marked token before other tokens is read off a closed piece**: only the last piece of
a source can lack its end. -/
theorem Lexeme.exists_closed {lexemes : List Lexeme} (hsound : Lexeme.Sound lexemes)
    {pos : Nat} {prev : Option Glyph} {before after : List Token} {tok : Token}
    (htokens : Token.ofLexemes pos prev lexemes = before ++ tok :: after) (hafter : after ≠ [])
    (hkind : tok.kind ≠ .text) :
    ∃ kind raw, Lexeme.Closed kind raw ∧
      Lexeme.reading ⟨kind, raw⟩ = some (tok.kind, tok.literal) := by
  induction hsound generalizing pos prev before with
  | nil => simp [Token.ofLexemes] at htokens
  | @text s rest hs hnext tail ih =>
      cases hread : Lexeme.reading ⟨.text, s⟩ with
      | none =>
          rw [Lexeme.ofLexemes_of_none hread] at htokens
          exact ih htokens
      | some read =>
          obtain ⟨first, hfirst, hall⟩ := Lexeme.ofLexemes_of_reading hread pos prev rest
          rw [hall] at htokens
          cases before with
          | nil =>
              obtain ⟨rfl, -⟩ := List.cons.inj htokens
              obtain ⟨hform, -⟩ := Lexeme.form_of_text hfirst
              exact absurd (Token.form_kind_eq_text.mp (by rw [hform])) hkind
          | cons _ before => exact ih (List.cons.inj htokens).2
  | @closed kind raw rest hclosed tail ih =>
      obtain ⟨_, _, hread⟩ := @Lexeme.reading_isSome ⟨kind, raw⟩ hclosed.kind_ne_text
      obtain ⟨first, hfirst, hall⟩ := Lexeme.ofLexemes_of_reading hread pos prev rest
      rw [hall] at htokens
      cases before with
      | nil =>
          obtain ⟨rfl, -⟩ := List.cons.inj htokens
          exact ⟨kind, raw, hclosed, hfirst⟩
      | cons _ before => exact ih (List.cons.inj htokens).2
  | @running kind raw hrunning =>
      obtain ⟨_, _, hread⟩ := @Lexeme.reading_isSome ⟨kind, raw⟩ hrunning.kind_ne_text
      obtain ⟨first, -, hall⟩ := Lexeme.ofLexemes_of_reading hread pos prev []
      have hlength := congrArg List.length (hall.symm.trans htokens)
      have hsome := List.length_pos_of_ne_nil hafter
      simp only [Token.ofLexemes, List.length_append, List.length_cons, List.length_nil] at hlength
      omega

end Markup

namespace Layout

open Text Markup

/-! ## The tags of an element -/

namespace Element

/-- The start tag that is paired with a closing tag stands before it, and has children. -/
theorem exists_between {done unclosed rest : List Placed}
    (hopen : ∀ p ∈ unclosed, p ∈ done ∧ p.token.isStartTag = true ∧ p.token.isChildless = false)
    {e : Element} (he : e ∈ pairFrom unclosed rest) :
    (∃ front inner back, done ++ rest = front ++ e.opening :: (inner ++ e.closing :: back)) ∧
      e.opening.token.isStartTag = true ∧ e.opening.token.isChildless = false := by
  induction rest generalizing done unclosed with
  | nil => cases he
  | cons p rest ih =>
      -- whatever `p` does to the stack, the tags found behind it stand in the same list
      have hlater : ∀ unclosed' : List Placed, (∀ q ∈ unclosed', q ∈ done ++ [p] ∧
          q.token.isStartTag = true ∧ q.token.isChildless = false) →
          e ∈ pairFrom unclosed' rest →
          (∃ front inner back,
            done ++ p :: rest = front ++ e.opening :: (inner ++ e.closing :: back)) ∧
            e.opening.token.isStartTag = true ∧ e.opening.token.isChildless = false := by
        intro unclosed' hopen' he'
        have hall := ih hopen' he'
        rwa [List.append_assoc] at hall
      have hsame : ∀ q ∈ unclosed, q ∈ done ++ [p] ∧
          q.token.isStartTag = true ∧ q.token.isChildless = false := by
        intro q hq
        exact ⟨List.mem_append_left _ (hopen q hq).1, (hopen q hq).2⟩
      rw [pairFrom] at he
      split at he
      · next hstart =>
          simp only [Bool.and_eq_true, Bool.not_eq_true'] at hstart
          refine hlater (p :: unclosed) (fun q hq => ?_) he
          rcases List.mem_cons.mp hq with rfl | hq
          · exact ⟨by simp, hstart⟩
          · exact hsame q hq
      · split at he
        · split at he
          · next opening hfind =>
              rcases List.mem_cons.mp he with rfl | he
              · obtain ⟨hmem, hstart⟩ := hopen opening (List.mem_of_find?_eq_some hfind)
                obtain ⟨front, inner, rfl⟩ := List.append_of_mem hmem
                exact ⟨⟨front, inner, rest, by simp⟩, hstart⟩
              · exact hlater _ (fun q hq => hsame q (List.mem_of_mem_eraseP hq)) he
          · exact hlater unclosed hsame he
        · exact hlater unclosed hsame he

/-- **The tags of an element** stand in the token list, with the tokens of its content
between them. -/
theorem exists_tokens {source : Text} {e : Element} (he : e ∈ all source (Token.scan source)) :
    ∃ before inner rest : List Token,
      Token.scan source = before ++ e.opening.token :: (inner ++ e.closing.token :: rest) ∧
      e.opening.index = before.length ∧ e.closing.index = before.length + 1 + inner.length := by
  obtain ⟨⟨front, inner, back, hplaced⟩, -⟩ := @exists_between [] [] _ (by simp) e he
  rw [List.nil_append, Placed.all] at hplaced
  have hclosing : Placed.allFrom 0 0 source (Token.scan source) =
      (front ++ e.opening :: inner) ++ e.closing :: back := by
    rw [hplaced]
    simp
  refine ⟨front.map Placed.token, inner.map Placed.token, back.map Placed.token, ?_, ?_, ?_⟩
  · have htokens := Placed.map_token 0 0 source (Token.scan source)
    rw [hplaced] at htokens
    rw [← htokens]
    simp
  · rw [Placed.index_eq hplaced]
    simp
  · rw [Placed.index_eq hclosing]
    simp only [List.length_append, List.length_cons, List.length_map]
    omega

/-- The start tag of an element is one with children. -/
theorem opening_of_mem {source : Text} {e : Element} (he : e ∈ all source (Token.scan source)) :
    e.opening.token.isStartTag = true ∧ e.opening.token.isChildless = false :=
  (@exists_between [] [] _ (by simp) e he).2

/-! ## Elements start at different places -/

/-- The start tag that is found on the stack stands there, with none of its name above it, and
is taken off. -/
theorem stack_of_find? {name : Text} {unclosed : List Placed} {opening : Placed}
    (h : unclosed.find? (·.token.name == name) = some opening) :
    ∃ front back, unclosed = front ++ opening :: back ∧ opening.token.name = name ∧
      (∀ q ∈ front, q.token.name ≠ name) ∧
      unclosed.eraseP (·.token.name == name) = front ++ back := by
  obtain ⟨hname, front, back, rfl, hother⟩ := List.find?_eq_some_iff_append.mp h
  refine ⟨front, back, rfl, beq_iff_eq.mp hname, fun q hq => ?_, ?_⟩
  · simpa using hother q hq
  · rw [List.eraseP_append_right _ (by simpa using hother)]
    simp [hname]

/-- A start tag is paired once: taken off the stack, it is found no more. -/
theorem nodup_pairFrom {unclosed rest : List Placed}
    (h : ((unclosed ++ rest).map (·.token.pos)).Nodup) :
    ((pairFrom unclosed rest).map start).Nodup := by
  induction rest generalizing unclosed with
  | nil => exact .nil
  | cons p rest ih =>
      have hmiddle : ((p :: (unclosed ++ rest)).map (·.token.pos)).Nodup :=
        (List.perm_middle.map _).nodup_iff.mp h
      have hrest : ((unclosed ++ rest).map (·.token.pos)).Nodup := (List.nodup_cons.mp hmiddle).2
      rw [pairFrom]
      split
      · exact ih hmiddle
      · split
        · split
          · next opening hfind =>
              obtain ⟨front, back, rfl, -, -, herase⟩ := stack_of_find? hfind
              have hmoved : ((opening :: (front ++ back ++ rest)).map (·.token.pos)).Nodup := by
                rw [List.append_assoc, List.cons_append] at hrest
                have hmoved := (List.perm_middle.map _).nodup_iff.mp hrest
                rwa [← List.append_assoc] at hmoved
              obtain ⟨hnew, hleft⟩ := List.nodup_cons.mp hmoved
              rw [herase, List.map_cons, List.nodup_cons]
              refine ⟨fun hmem => hnew ?_, ih hleft⟩
              obtain ⟨e, he, hstart⟩ := List.mem_map.mp hmem
              exact List.mem_map.mpr
                ⟨e.opening, List.mem_append.mpr (placed_of_mem he).1, hstart⟩
          · exact ih hrest
        · exact ih hrest

/-- No two elements of a source start at one place. -/
theorem nodup_start (source : Text) :
    ((all source (Token.scan source)).map start).Nodup := by
  have hplaced : (([] ++ Placed.all source (Token.scan source)).map
      fun p : Placed => p.token.pos).Nodup := by
    have hpos := Token.nodup_pos source
    rwa [← Placed.map_token 0 0 source (Token.scan source), List.map_map] at hpos
  exact nodup_pairFrom hplaced

/-- **An element is known by its start**. -/
theorem eq_of_start {source : Text} {e e' : Element} (he : e ∈ all source (Token.scan source))
    (he' : e' ∈ all source (Token.scan source)) (h : e.start = e'.start) : e = e' :=
  List.inj_on_of_nodup_map (nodup_start source) he he' h

/-- The key of a start tag can be read off its source or its normal form. -/
theorem squash_openingTag {source : Text} {e : Element}
    (he : e ∈ all source (Token.scan source)) :
    e.openingTag.squash = e.opening.token.literal.squash := by
  have hplaced : e.opening ∈ Placed.allFrom 0 0 source (Token.scan source) := by
    rcases (placed_of_mem he).1 with hnil | hmem
    · cases hnil
    · exact hmem
  have htoken : e.opening.token ∈ Token.scan source := by
    rw [← Placed.map_token 0 0 source (Token.scan source)]
    exact List.mem_map_of_mem hplaced
  obtain ⟨front, span, back, hsource, -, hpos, hstop, hliteral⟩ :=
    (Token.spans_scan source).exists_span htoken
  have hslice : e.openingTag = span := by
    rw [openingTag, (Placed.head_eq (Token.spans_scan source) [] rfl hplaced).1, List.nil_append]
    rw [Nat.zero_add] at hpos
    show source.slice e.opening.token.pos e.opening.token.stop = span
    rw [hstop, hpos, hsource, slice_append]
  rw [squash_eq, squash_eq, hslice, hliteral, Token.Kind.strip_literalOf]

end Element

/-- Entering elements one after the other enters them all under their start tags. -/
theorem SourceIndex.holds_byOpening_foldl (es : List Element) {ix : SourceIndex}
    {entered : Text → Element → Prop} (h : ix.byOpening.Holds entered) :
    (es.foldl add ix).byOpening.Holds fun key e =>
      entered key e ∨ (e ∈ es ∧ e.openingTag.squash = key) := by
  induction es generalizing ix entered with
  | nil => simpa using h
  | cons first es ih =>
      rw [List.foldl_cons]
      have hfirst := FirstTable.holds_setFirst h first.openingTag.squash first
      refine FirstTable.Holds.congr (ih hfirst) fun key e => ?_
      rw [List.mem_cons, or_and_right, or_assoc]
      have hone : (key = first.openingTag.squash ∧ e = first) ↔
          (e = first ∧ e.openingTag.squash = key) := by
        constructor
        · rintro ⟨rfl, rfl⟩
          exact ⟨rfl, rfl⟩
        · rintro ⟨rfl, rfl⟩
          exact ⟨rfl, rfl⟩
      rw [hone]

/-- **The table of start tags** gives the first element of the source under each squashed
start tag. -/
theorem SourceIndex.holds_byOpening (source : Text) (tokens : List Token) :
    (build source tokens).byOpening.Holds fun key e =>
      e ∈ Element.all source tokens ∧ e.openingTag.squash = key := by
  have hempty : (SourceIndex.byOpening {}).Holds fun _ _ => False := fun key e h => h
  refine (holds_byOpening_foldl (Element.all source tokens) hempty).congr fun key e => ?_
  rw [false_or]

/-! ## Start tags that end -/

/-- **A start tag before other tokens** is a tag that ends. -/
theorem closed_of_isStartTag {source : Text} {before after : List Token} {tok : Token}
    (htokens : Token.scan source = before ++ tok :: after) (hafter : after ≠ [])
    (hstart : tok.isStartTag = true) :
    Lexeme.Closed .tag tok.literal ∧ tok.kind = Lexeme.tagKind tok.literal := by
  obtain ⟨name, closing, selfClosing, hkind⟩ := Printer.kind_of_isStartTag hstart
  obtain ⟨kind, raw, hclosed, hread⟩ :=
    Lexeme.exists_closed (Lexeme.sound_split source) htokens hafter (by simp [hkind])
  cases hclosed with
  | tag hopen hends =>
      simp only [Lexeme.reading, Option.some.injEq, Prod.mk.injEq] at hread
      rw [← hread.1, ← hread.2]
      exact ⟨Tag.closed_normalize (.tag hopen hends), rfl⟩
  | comment hends =>
      -- a comment has no element name
      simp only [Lexeme.reading, Option.some.injEq, Prod.mk.injEq] at hread
      simp only [Token.isStartTag, ← hread.1] at hstart
      exact absurd hstart (by decide)
  | _ => simp [Lexeme.reading, hkind] at hread

/-- **A start tag that ends** has its name behind the `<`, and a first `>` behind that. -/
theorem exists_body {tok : Token} (hclosed : Lexeme.Closed .tag tok.literal)
    (hkind : tok.kind = Lexeme.tagKind tok.literal) (hstart : tok.isStartTag = true) :
    ∃ (r : Glyph) (body more : Text),
      tok.literal = .char '<' :: r :: (body ++ .char '>' :: more) ∧ r.isBlank = false ∧
      r ≠ .char '>' ∧ .char '>' ∉ body := by
  rw [Token.isStartTag, hkind, Lexeme.tagKind] at hstart
  generalize tok.literal = literal at hclosed hstart
  cases hclosed with
  | @tag s hopen hends =>
      simp only [Bool.and_eq_true, Bool.not_eq_true'] at hstart
      obtain ⟨hclosing, hname⟩ := hstart
      simp only [Tag.nameOf, Tag.body, hclosing, Bool.false_eq_true, if_false] at hname
      cases s with
      | nil => simp [isElementName, lower] at hname
      | cons r s =>
          have hends' : Tag.endsName r = false := by
            cases hr : Tag.endsName r with
            | false => rfl
            | true => simp [isElementName, lower, hr] at hname
          have hletter : r.lower.isLetter = true := by
            simpa [isElementName, lower, List.takeWhile_cons, hends'] using hname
          have hblank : r.isBlank = false := by
            cases hr : r.isBlank with
            | false => rfl
            | true => simp [Glyph.isLetter_lower_of_isBlank hr] at hletter
          have hplain : r ≠ .char '>' := by
            rintro rfl
            simp [Tag.endsName] at hends'
          obtain ⟨front, hlast⟩ := Lexeme.last_of_endsTag hends
          have hmem : .char '>' ∈ s := by
            have hmem : .char '>' ∈ r :: s := by rw [hlast]; simp
            simpa [hplain.symm] using hmem
          obtain ⟨body, more, rfl, hbody⟩ := List.eq_append_cons_of_mem hmem
          exact ⟨r, body, more, rfl, hblank, hplain, hbody⟩

/-! ## The tokens of an element -/

/-- What is gathered up to a closing tag is content. -/
theorem isContent_of_gather {name : Text} {tokens parts : List Token} {closing : Token}
    (h : gather name [] tokens = some (parts, closing)) :
    ∀ part ∈ parts, part.isContent = true := by
  obtain ⟨content, -, hparts, -, hall, -⟩ := gather_eq_some h
  rw [hparts, List.reverse_nil, List.nil_append]
  exact hall

namespace Element

/-- The tokens behind the start tag of an element. -/
def behind (tokens : List Token) (e : Element) : List Token := tokens.drop (e.opening.index + 1)

/-- The tokens between the tags of an element. -/
def inner (tokens : List Token) (e : Element) : List Token :=
  (e.behind tokens).take (e.closing.index - e.opening.index - 1)

/-- An element in the token list: what stands before it, between its tags and behind it. -/
theorem exists_split {source : Text} {e : Element} (he : e ∈ all source (Token.scan source)) :
    ∃ before rest : List Token,
      Token.scan source = before ++ e.opening.token :: e.behind (Token.scan source) ∧
      e.behind (Token.scan source) = e.inner (Token.scan source) ++ e.closing.token :: rest ∧
      e.opening.index = before.length ∧
      e.closing.index = before.length + 1 + (e.inner (Token.scan source)).length := by
  obtain ⟨before, between, rest, htokens, hopening, hclosing⟩ := exists_tokens he
  have hbehind : e.behind (Token.scan source) = between ++ e.closing.token :: rest := by
    rw [behind, htokens, hopening]
    simp
  have hinner : e.inner (Token.scan source) = between := by
    have hlength : e.closing.index - e.opening.index - 1 = between.length := by omega
    rw [inner, hbehind, hlength]
    simp
  rw [hinner, hbehind]
  exact ⟨before, rest, htokens, rfl, hopening, hclosing⟩

end Element

end Layout

end TemplateFormat
