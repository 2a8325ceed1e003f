import TemplateFormat.Proofs.Balance
import TemplateFormat.Proofs.StartTags

/-!
# Elements that their author spread over lines

An element that its author spread over lines around nested elements stays spread.  The rule
is decided on the line that a merge rebuilt: its first tag, up to the first `>`, is looked
up among the start tags of the source.  That tag is the start tag of the element, unless an
attribute value holds a `>`.

* `firstTag?_flatten` — the first tag of a flattened line is the one of its start tag;
* `Faithful`, `faithful_step`, `faithful_of_mem_stepsFrom` — what a layout remembers of spread
  elements is true;
* `isSpread_iff`, `keepInline_eq_false_iff` — what the rule asks and what it decides;
* `merges_spread` — what becomes of an element that was spread.
-/

namespace TemplateFormat.Layout

open Text Markup

/-! ## The first tag of a line -/

/-- The first tag of a text that starts with `<` runs up to its first `>`. -/
theorem firstTag?_eq {body : Text} (hbody : .char '>' ∉ body) (hne : body ≠ []) (rest : Text) :
    firstTag? (.char '<' :: (body ++ .char '>' :: rest)) =
      some (.char '<' :: (body ++ [.char '>'])) := by
  have htake : (body ++ .char '>' :: rest).takeWhile (· != .char '>') = body := by
    rw [List.takeWhile_append_of_pos (by
      intro r hr
      simpa using fun heq : r = .char '>' => hbody (heq ▸ hr))]
    simp
  have hlength : body.length < (body ++ .char '>' :: rest).length := by simp
  simp [firstTag?, htake, hne]

/-- Trimming stops at a glyph that is not blank. -/
theorem trim_append_cons (a b : Text) {r : Glyph} (hr : r.isBlank = false) :
    trim (a ++ r :: b) =
      trimStart Glyph.isBlank a ++ r :: trimEnd Glyph.isBlank b := by
  have hdrop : ∀ u v : Text, (u ++ r :: v).dropWhile Glyph.isBlank =
      u.dropWhile Glyph.isBlank ++ r :: v := by
    intro u v
    rw [List.dropWhile_append]
    split
    · next hempty => simp [List.isEmpty_iff.mp hempty, hr]
    · rfl
  have hend : ∀ u : Text, trimEnd Glyph.isBlank (u ++ r :: b) =
      u ++ r :: trimEnd Glyph.isBlank b := by
    intro u
    have hsplit : (u ++ r :: b).reverse = b.reverse ++ r :: u.reverse := by simp
    rw [trimEnd, hsplit, hdrop, trimEnd]
    simp
  rw [trim, trimStart, hdrop, hend]
  rfl

/-- **Flattening keeps the start of a line**: a `<` and all up to the first `>`, white space
aside. -/
theorem exists_flatten_front {tok : Token} {body more : Text} (hbody : .char '>' ∉ body)
    (htok : renderInline tok = .char '<' :: (body ++ .char '>' :: more)) (rest : List Token) :
    ∃ body' more', flatten (tok :: rest) = .char '<' :: (body' ++ .char '>' :: more') ∧
      .char '>' ∉ body' ∧ strip body' = strip body := by
  refine flatten_induction_trim (P := fun s => ∃ body' more',
    s = .char '<' :: (body' ++ .char '>' :: more') ∧ .char '>' ∉ body' ∧
      strip body' = strip body) ?_ ?_
  · rintro s t ⟨body', more', rfl, hbody', hstrip⟩ hspace
    obtain ⟨t', rfl, hrest⟩ := hspace.cons_of_ink rfl
    obtain ⟨body'', more'', rfl, hfront, -⟩ := hrest.split rfl
    have hsame : strip body'' = strip body' := by
      simpa [strip_cons_of_ink] using hfront.strip_eq
    refine ⟨body'', more'', rfl, fun hmem => hbody' ?_, hsame.trans hstrip⟩
    have hink : .char '>' ∈ strip body'' := List.mem_filter.mpr ⟨hmem, rfl⟩
    rw [hsame] at hink
    exact List.mem_of_mem_filter hink
  · obtain ⟨more', hjoin⟩ : ∃ more', join [.char ' '] ((tok :: rest).map renderInline) =
        (.char '<' :: body) ++ .char '>' :: more' := by
      cases rest with
      | nil => exact ⟨more, by simp [htok]⟩
      | cons next rest => exact ⟨more ++ [.char ' '] ++ join [.char ' ']
          ((next :: rest).map renderInline), by simp [join_cons_cons, htok]⟩
    have hstart : trimStart Glyph.isBlank (.char '<' :: body) = .char '<' :: body :=
      List.dropWhile_cons_of_neg (by decide)
    rw [hjoin, trim_append_cons _ _ rfl, hstart]
    exact ⟨body, trimEnd Glyph.isBlank more', rfl, hbody, rfl⟩

/-- **The first tag of a flattened line** is that of its start tag, white space aside. -/
theorem firstTag?_flatten {tok : Token} (hclosed : Lexeme.Closed .tag tok.literal)
    (hkind : tok.kind = Lexeme.tagKind tok.literal) (hstart : tok.isStartTag = true)
    (rest : List Token) :
    ∃ tag tag', firstTag? tok.literal = some tag ∧ firstTag? (flatten (tok :: rest)) = some tag' ∧
      tag'.squash = tag.squash := by
  obtain ⟨r, body, more, hliteral, hink, hplain, hbody⟩ := exists_body hclosed hkind hstart
  have hmem : .char '>' ∉ r :: body := by simp [hplain.symm, hbody]
  have hrender : renderInline tok = .char '<' :: (r :: body ++ .char '>' :: more) := by
    rw [Printer.renderInline_of_tag (Printer.isTag_of_isStartTag hstart), hliteral]
    rfl
  obtain ⟨body', more', hline, hbody', hstrip⟩ := exists_flatten_front hmem hrender rest
  have hne : body' ≠ [] := by
    rintro rfl
    rw [strip_cons_of_ink body hink] at hstrip
    cases hstrip
  have htag : firstTag? tok.literal = some (.char '<' :: (r :: body ++ [.char '>'])) := by
    rw [hliteral]
    exact firstTag?_eq hmem (by simp) more
  have htag' : firstTag? (flatten (tok :: rest)) = some (.char '<' :: (body' ++ [.char '>'])) := by
    rw [hline]
    exact firstTag?_eq hbody' hne more'
  refine ⟨_, _, htag, htag', ?_⟩
  have hopen : ∀ s : Text, strip (.char '<' :: s) = .char '<' :: strip s :=
    fun s => strip_cons_of_ink s rfl
  rw [squash_eq, squash_eq, hopen, hopen, strip_append, strip_append, hstrip]

/-- A start tag without a `>` inside is its own first tag. -/
theorem firstTag?_literal {tok : Token} (hclosed : Lexeme.Closed .tag tok.literal)
    (hkind : tok.kind = Lexeme.tagKind tok.literal) (hstart : tok.isStartTag = true)
    (hplain : .char '>' ∉ tok.literal.dropLast) : firstTag? tok.literal = some tok.literal := by
  obtain ⟨r, body, more, hliteral, -, hr, hbody⟩ := exists_body hclosed hkind hstart
  obtain rfl : more = [] := by
    by_contra hne
    refine hplain ?_
    have hshape : tok.literal = (.char '<' :: r :: (body ++ [.char '>'])) ++ more := by
      rw [hliteral]
      simp
    rw [hshape, List.dropLast_append_of_ne_nil hne]
    simp
  have hmem : .char '>' ∉ r :: body := by simp [hr.symm, hbody]
  rw [hliteral]
  exact firstTag?_eq hmem (by simp) []

/-- Flattening keeps two glyphs side by side that start a tag. -/
theorem exists_flatten_infix {tokens : List Token} {r : Glyph} (hr : r.isBlank = false)
    (h : [.char '<', r] <:+: join [.char ' '] (tokens.map renderInline)) :
    [.char '<', r] <:+: flatten tokens := by
  refine flatten_induction_trim (P := fun s => [.char '<', r] <:+: s) ?_ ?_
  · rintro s t ⟨a, b, rfl⟩ hspace
    have hshape : a ++ [.char '<', r] ++ b = a ++ .char '<' :: (r :: b) := by simp
    rw [hshape] at hspace
    obtain ⟨a', t', rfl, -, hrest⟩ := hspace.split rfl
    obtain ⟨b', rfl, -⟩ := hrest.cons_of_ink hr
    exact ⟨a', b', by simp⟩
  · obtain ⟨a, b, hjoin⟩ := h
    have hshape : a ++ [.char '<', r] ++ b = (a ++ [.char '<']) ++ r :: b := by simp
    have hstart : trimStart Glyph.isBlank (a ++ [.char '<']) =
        trimStart Glyph.isBlank a ++ [.char '<'] := by
      rw [trimStart, List.dropWhile_append]
      split
      · next hempty =>
          rw [trimStart, List.isEmpty_iff.mp hempty]
          rfl
      · rfl
    rw [← hjoin, hshape, trim_append_cons _ _ hr, hstart]
    exact ⟨trimStart Glyph.isBlank a, trimEnd Glyph.isBlank b, by simp⟩

/-- A text with a `<` and a letter side by side has a first start tag. -/
theorem firstName_ne_nil {s : Text} {r : Glyph} (hr : r.isLetter = true)
    (h : [.char '<', r] <:+: s) : Tag.firstName s ≠ [] := by
  obtain ⟨a, b, rfl⟩ := h
  induction a with
  | nil => simp [Tag.firstName, hr, lower]
  | cons first a ih =>
      rw [List.cons_append, List.cons_append]
      cases hrest : a ++ [.char '<', r] ++ b with
      | nil => simp at hrest
      | cons next rest =>
          rw [hrest] at ih
          rw [Tag.firstName]
          split
          · simp [lower]
          · exact ih

/-- It holds a tag, too. -/
theorem holdsTag_of_infix {s : Text} {r : Glyph} (hr : r.isLetter = true)
    (h : [.char '<', r] <:+: s) : holdsTag s = true := by
  have hword : r.isWord = true := by
    cases r with
    | stray b => cases hr
    | char c => simp [Glyph.isWord, Char.isAlphanum, show c.isAlpha = true from hr]
  obtain ⟨a, b, rfl⟩ := h
  induction a with
  | nil => simp [holdsTag, hword]
  | cons first a ih =>
      rw [List.cons_append, List.cons_append, holdsTag, ih, Bool.or_true]

/-- A `<` and a letter at the start of a tag literal stand at the start of its span. -/
theorem prefix_of_literalOf {literal span : Text} {r : Glyph} (hr : r.isLetter = true)
    (h : [.char '<', r] <+: (Lexeme.tagKind literal).literalOf span) :
    [.char '<', r] <+: span := by
  have hne : ∀ c : Glyph, c.isLetter = false → r ≠ c := by
    rintro c hc rfl
    simp [hr] at hc
  simp only [Token.Kind.literalOf, Lexeme.tagKind] at h
  split at h
  · exact h
  · refine Tag.prefix_of_prefix_squeeze (by simpa using hne (.char ' ') rfl)
      (Tag.prefix_of_prefix_closeUp ?_ h)
    simpa using (hne (.char '>') rfl).symm

/-- A part of a joined text stands in it. -/
theorem infix_join (sep : Text) {part : Text} {parts : List Text} (h : part ∈ parts) :
    part <:+: join sep parts := by
  induction parts with
  | nil => cases h
  | cons first parts ih =>
      cases parts with
      | nil =>
          simp only [List.mem_singleton.mp h, join_singleton, List.infix_refl]
      | cons next parts =>
          rw [join_cons_cons]
          rcases List.mem_cons.mp h with rfl | h
          · exact ⟨[], sep ++ join sep (next :: parts), by simp⟩
          · exact (ih h).trans (List.suffix_append _ _).isInfix

/-! ## What a layout remembers -/

/-- What is remembered of spread elements is true of the elements of the source. -/
def SourceIndex.Memo.Faithful (source : Text) (memo : SourceIndex.Memo) : Prop :=
  ∀ e ∈ Element.all source (Token.scan source), ∀ b,
    memo.spread.lookup e.start = some b → b = e.isSpread

/-- Whether the first element of a source with this start tag is spread. -/
def SpreadUnder (source tag : Text) : Prop :=
  ∃ first ∈ Element.all source (Token.scan source), first.openingTag.squash = tag.squash ∧
    (∀ e ∈ Element.all source (Token.scan source), e.openingTag.squash = tag.squash →
      first.start ≤ e.start) ∧
    first.isSpread = true

namespace SourceIndex

variable {source : Text} {memo : Memo}

/-- How an element was written is not remembered among the spread ones. -/
theorem spread_written (ix : SourceIndex) (line : Text) (memo : Memo) :
    (ix.written line memo).2.spread = memo.spread := by
  rw [written]
  dsimp only
  split
  · rfl
  · split
    · rfl
    · split
      · rfl
      · split
        · rfl
        · split <;> rfl

/-- What a table of start tags finds is an element of the source. -/
theorem mem_of_lookup_opening {tag : Text} {first : Element}
    (h : (build source (Token.scan source)).byOpening.lookup tag.squash = some first) :
    first ∈ Element.all source (Token.scan source) := by
  have hholds := holds_byOpening source (Token.scan source) tag.squash
  rw [h] at hholds
  exact hholds.1.1

/-- **A lookup among the start tags** remembers what is true. -/
theorem faithful_isSpread (h : memo.Faithful source) (tag : Text) :
    ((build source (Token.scan source)).isSpread tag memo).2.Faithful source := by
  rw [isSpread]
  split
  · exact h
  · next first hfirst =>
      split
      · exact h
      · intro e he b hb
        rw [List.lookup_cons] at hb
        split at hb
        · next hsame =>
            have hstart : e.start = first.start := beq_iff_eq.mp hsame
            rw [Element.eq_of_start he (mem_of_lookup_opening hfirst) hstart]
            exact (Option.some.inj hb).symm
        · exact h e he b hb

/-- **What a lookup among the start tags answers**, whatever true is remembered. -/
theorem isSpread_iff (h : memo.Faithful source) (tag : Text) :
    ((build source (Token.scan source)).isSpread tag memo).1 = true ↔ SpreadUnder source tag := by
  have hholds := holds_byOpening source (Token.scan source) tag.squash
  rw [isSpread]
  split
  · next hnone =>
      rw [hnone] at hholds
      constructor
      · exact fun h => absurd h (by simp)
      · rintro ⟨first, hmem, hkey, -⟩
        exact absurd ⟨hmem, hkey⟩ (hholds first)
  · next first hfirst =>
      rw [hfirst] at hholds
      obtain ⟨⟨hmem, hkey⟩, hleast⟩ := hholds
      have hanswer : SpreadUnder source tag ↔ first.isSpread = true := by
        constructor
        · rintro ⟨other, hother, hkey', hleast', hspread⟩
          have hstart : first.start = other.start :=
            Nat.le_antisymm (hleast other ⟨hother, hkey'⟩) (hleast' first hmem hkey)
          rwa [Element.eq_of_start hmem hother hstart]
        · exact fun hspread => ⟨first, hmem, hkey, fun e he hsame => hleast e ⟨he, hsame⟩, hspread⟩
      rw [hanswer]
      split
      · next b hb => rw [h first hmem b hb]
      · rfl

end SourceIndex

section Remembering

variable {source : Text} {memo : SourceIndex.Memo}

theorem faithful_of_spread {memo' : SourceIndex.Memo} (h : memo.Faithful source)
    (hsame : memo'.spread = memo.spread) : memo'.Faithful source := by
  intro e he b hb
  rw [hsame] at hb
  exact h e he b hb

/-- Asking for the first tag of a line remembers what is true. -/
theorem faithful_wasSpread (h : memo.Faithful source) (line : Text) :
    (wasSpread (SourceIndex.build source (Token.scan source)) line memo).2.Faithful source := by
  rw [wasSpread]
  split
  · exact h
  · split
    · exact h
    · exact SourceIndex.faithful_isSpread h _

/-- Weighing a line remembers what is true. -/
theorem faithful_keepInline (o : Options) (h : memo.Faithful source) (line : Text) :
    (keepInline o (SourceIndex.build source (Token.scan source)) line memo).2.Faithful source := by
  generalize hix : SourceIndex.build source (Token.scan source) = ix
  rw [keepInline]
  split
  · exact h
  · have hasked : (if o.keepMultiline then wasSpread ix line memo
        else (false, memo)).2.Faithful source := by
      split
      · rw [← hix]
        exact faithful_wasSpread h line
      · exact h
    generalize (if o.keepMultiline then wasSpread ix line memo else (false, memo)) = asked
      at hasked ⊢
    obtain ⟨spread, memo'⟩ := asked
    dsimp only at hasked ⊢
    split
    · exact hasked
    · split
      · exact hasked
      · have hwritten : (if 2 * (line.trim.length : Int) ≤ 3 * o.threshold then
            ix.written line.trim memo' else (.absent, memo')).2.spread = memo'.spread := by
          split
          · exact ix.spread_written line.trim memo'
          · rfl
        generalize (if 2 * (line.trim.length : Int) ≤ 3 * o.threshold then
            ix.written line.trim memo' else (.absent, memo')) = written at hwritten ⊢
        split
        · exact faithful_of_spread hasked hwritten
        · exact faithful_of_spread hasked hwritten

/-- A content merge remembers what is true. -/
theorem faithful_contentMerge (o : Options) (h : memo.Faithful source) (tok : Token)
    (after : List Token) :
    (contentMerge o (SourceIndex.build source (Token.scan source)) tok after
      memo).2.Faithful source := by
  rw [contentMerge]
  split
  · exact h
  · next parts closing hgather =>
      refine faithful_keepInline o (faithful_of_spread h ?_) _
      rw [buildElement]
      split
      · rfl
      · exact SourceIndex.spread_written _ _ memo

/-- A tight merge remembers what is true. -/
theorem faithful_tightMerge (o : Options) (h : memo.Faithful source) (tok : Token)
    (after : List Token) :
    (tightMerge o (SourceIndex.build source (Token.scan source)) tok after
      memo).2.Faithful source := by
  rw [tightMerge]
  split
  · exact h
  · exact faithful_keepInline o h _

/-- **One step** remembers what is true. -/
theorem faithful_step (o : Options) {st : Printer.State} (h : st.memo.Faithful source)
    (before : List Token) (tok : Token) (after : List Token) :
    ((Printer.ofSource o source).step st before tok after).2.memo.Faithful source := by
  have hcontent := faithful_contentMerge o h tok after
  have htight := faithful_tightMerge o hcontent tok after
  have hmerge : (firstMerge o (SourceIndex.build source (Token.scan source)) tok after
      st.memo).2.Faithful source := by
    rw [firstMerge]
    split
    · exact hcontent
    · exact htight
  have hoptions : (Printer.ofSource o source).options = o := rfl
  have hindex : (Printer.ofSource o source).index =
      SourceIndex.build source (Token.scan source) := rfl
  rw [Printer.step_eq, hoptions, hindex]
  split
  · generalize firstMerge o (SourceIndex.build source (Token.scan source)) tok after st.memo =
      merge at hmerge ⊢
    obtain ⟨_ | merged, memo⟩ := merge
    · rw [Printer.memo_alone]
      exact hmerge
    · exact hmerge
  · rw [Printer.memo_alone]
    exact h

/-- **What a layout remembers is true**, at every step. -/
theorem faithful_of_mem_stepsFrom (o : Options) {index skip : Nat} {st : Printer.State}
    {before tokens : List Token} (h : st.memo.Faithful source) {s : Printer.Step}
    (hs : s ∈ (Printer.ofSource o source).stepsFrom index skip st before tokens) :
    s.start.memo.Faithful source := by
  induction tokens generalizing index skip st before with
  | nil => cases skip <;> cases hs
  | cons tok after ih =>
      cases skip with
      | succ skip => exact ih h hs
      | zero =>
          rw [Printer.stepsFrom] at hs
          rcases List.mem_cons.mp hs with rfl | hs
          · exact h
          · exact ih (faithful_step o h before tok after) hs

end Remembering

/-! ## The rule -/

/-- An element stays on its line unless the rule for spread elements forbids it or it would
not stay without that rule. -/
theorem keepInline_eq_false_iff {o : Options} (hkeep : o.keepMultiline = true) {ix : SourceIndex}
    {line : Text} {w : Written} (hwritten : ∀ memo, ix.written line.trim memo = (w, memo))
    (memo : SourceIndex.Memo) :
    (keepInline o ix line memo).1 = false ↔ (wasSpread ix line memo).1 = true ∨
      (keepInline { o with keepMultiline := false } ix line memo).1 = false := by
  simp only [keepInline, hkeep, hwritten]
  cases hshort : o.inlineShort with
  | false => simp
  | true =>
      rcases hspread : wasSpread ix line memo with ⟨_ | _, memo'⟩
      · simp [apply_ite Prod.fst]
      · simp

/-- **What the rule asks about a flattened line**: the first element of the source with the
first tag of the start tag, if the line has a start tag at all. -/
theorem wasSpread_flatten {source : Text} {memo : SourceIndex.Memo} (hmemo : memo.Faithful source)
    {tok : Token} (hclosed : Lexeme.Closed .tag tok.literal)
    (hkind : tok.kind = Lexeme.tagKind tok.literal) (hstart : tok.isStartTag = true)
    (rest : List Token) :
    (wasSpread (SourceIndex.build source (Token.scan source)) (flatten (tok :: rest)) memo).1 =
        true ↔
      Tag.firstName (flatten (tok :: rest)) ≠ [] ∧
        ∃ tag, firstTag? tok.literal = some tag ∧ SpreadUnder source tag := by
  obtain ⟨tag, tag', htag, htag', hkey⟩ := firstTag?_flatten hclosed hkind hstart rest
  have hunder : SpreadUnder source tag' ↔ SpreadUnder source tag := by
    rw [SpreadUnder, SpreadUnder, hkey]
  rw [wasSpread, htag', htag]
  dsimp only
  split
  · next hempty => simp [List.isEmpty_iff.mp hempty]
  · next hname =>
      rw [SourceIndex.isSpread_iff hmemo, hunder]
      simpa using fun _ => hname

namespace Element

variable {source : Text} {e : Element}

/-- The search for the closing tag of an element ends at its closing tag. -/
theorem closerIndex?_behind (he : e ∈ all source (Token.scan source)) {n : Nat}
    (hfound : closerIndex? e.opening.token.name 0 0 (e.behind (Token.scan source)) = some n) :
    n = (e.inner (Token.scan source)).length := by
  obtain ⟨before, rest, htokens, -, -, hclosing⟩ := exists_split he
  obtain ⟨hstart, hchildren⟩ := opening_of_mem he
  obtain ⟨e', he', htoken, -, hclosing', -⟩ :=
    exists_element htokens hstart hchildren hfound
  obtain rfl : e' = e := eq_of_start he' he (congrArg Token.pos htoken)
  omega

/-- **An element with a nested start tag** is not merged as plain content. -/
theorem contentMerge_eq_none (he : e ∈ all source (Token.scan source))
    (hnested : ∃ tok ∈ e.inner (Token.scan source), tok.isStartTag = true) (o : Options)
    (ix : SourceIndex) (memo : SourceIndex.Memo) :
    (contentMerge o ix e.opening.token (e.behind (Token.scan source)) memo).1 = none := by
  rw [contentMerge]
  split
  · rfl
  · next parts closing hgather =>
      exfalso
      obtain ⟨⟨rest, hparts⟩, hfound, -⟩ := Rebuilt.reaches_of_gather hgather
      obtain ⟨-, rest', -, hbehind, -⟩ := exists_split he
      obtain ⟨hinner, -⟩ :=
        List.append_inj (hparts.symm.trans hbehind) (closerIndex?_behind he hfound)
      obtain ⟨tok, htok, hstart⟩ := hnested
      have hkind : tok.isContent = true := isContent_of_gather hgather tok (hinner ▸ htok)
      obtain ⟨name, closing, selfClosing, htag⟩ := Printer.kind_of_isStartTag hstart
      simp [Token.isContent, htag] at hkind

/-- The start tag of an element is a tag that ends. -/
theorem closed_opening (he : e ∈ all source (Token.scan source)) :
    Lexeme.Closed .tag e.opening.token.literal ∧
      e.opening.token.kind = Lexeme.tagKind e.opening.token.literal := by
  obtain ⟨before, rest, htokens, hbehind, -⟩ := exists_split he
  exact closed_of_isStartTag htokens (by simp [hbehind]) (opening_of_mem he).1

/-- **A tight merge of an element** fails if its first tag is that of a spread element, or if
it would fail without the rule for these. -/
theorem tightMerge_eq_none_iff {o : Options} (hkeep : o.keepMultiline = true)
    (he : e ∈ all source (Token.scan source)) {memo : SourceIndex.Memo}
    (hmemo : memo.Faithful source) {rest : List Token}
    (hbehind : e.behind (Token.scan source) =
      e.inner (Token.scan source) ++ e.closing.token :: rest) :
    (tightMerge o (SourceIndex.build source (Token.scan source)) e.opening.token
        (e.behind (Token.scan source)) memo).1 = none ↔
      (Tag.firstName (flatten (e.opening.token ::
          (e.inner (Token.scan source) ++ [e.closing.token]))) ≠ [] ∧
        ∃ tag, firstTag? e.opening.token.literal = some tag ∧ SpreadUnder source tag) ∨
      (tightMerge { o with keepMultiline := false }
        (SourceIndex.build source (Token.scan source)) e.opening.token
        (e.behind (Token.scan source)) memo).1 = none := by
  obtain ⟨before, -, htokens, -⟩ := exists_split he
  obtain ⟨hstart, hchildren⟩ := opening_of_mem he
  obtain ⟨hclosed, hkind⟩ := closed_opening he
  rw [tightMerge, tightMerge]
  cases hcloser : closerIndex? e.opening.token.name 0 0
      ((e.behind (Token.scan source)).take (tightWindow - 1)) with
  | none => simp
  | some n =>
      obtain rfl := closerIndex?_behind he (closerIndex?_of_window hcloser)
      have hline : (e.behind (Token.scan source)).take ((e.inner (Token.scan source)).length + 1) =
          e.inner (Token.scan source) ++ [e.closing.token] := by
        rw [hbehind, take_through]
      -- the line is found under its key, so how it was written does not depend on the memo
      have hrebuilt : Rebuilt {} e.opening.token (e.behind (Token.scan source)) _ _ _ :=
        .trimmed (.flattened hcloser hbehind)
      obtain ⟨first, -, -, -, hwritten⟩ :=
        (hrebuilt.finds htokens hstart hchildren).exists_first
      have hiff := keepInline_eq_false_iff hkeep hwritten memo
      rw [wasSpread_flatten hmemo hclosed hkind hstart] at hiff
      dsimp only
      rw [hline]
      simpa using hiff

/-- A start tag that no other start tag repeats is looked up as its own element. -/
theorem spreadUnder_literal (he : e ∈ all source (Token.scan source))
    (hunique : ∀ tok ∈ Token.scan source, tok.isStartTag = true →
      tok.literal.squash = e.opening.token.literal.squash → tok = e.opening.token)
    (hspread : e.isSpread = true) : SpreadUnder source e.opening.token.literal := by
  refine ⟨e, he, squash_openingTag he, fun other hother hkey => ?_, hspread⟩
  obtain ⟨before, rest, htokens, -⟩ := exists_split hother
  have hsame : other.opening.token = e.opening.token := by
    refine hunique _ (by rw [htokens]; simp) (opening_of_mem hother).1 ?_
    rw [← squash_openingTag hother, hkey]
  exact Nat.le_of_eq (congrArg Token.pos hsame).symm

/-- A nested start tag with an ASCII name stands in the content of the element. -/
theorem exists_nested (he : e ∈ all source (Token.scan source)) {tok : Token}
    (htok : tok ∈ e.inner (Token.scan source)) (hstart : tok.isStartTag = true)
    (hletter : (tok.literal.drop 1).head?.any Glyph.isLetter = true) :
    ∃ r, r.isLetter = true ∧ [.char '<', r] <+: tok.literal ∧ [.char '<', r] <:+: e.content := by
  obtain ⟨before, rest, htokens, hbehind, -⟩ := exists_split he
  rw [hbehind] at htokens
  -- the tag ends, so its literal starts with `<` and its name
  obtain ⟨front, back, hinner⟩ := List.append_of_mem htok
  have hplace : Token.scan source = (before ++ e.opening.token :: front) ++
      tok :: (back ++ e.closing.token :: rest) := by
    rw [htokens, hinner]
    simp
  obtain ⟨hclosed, hkind⟩ := closed_of_isStartTag hplace (by simp) hstart
  obtain ⟨r, body, more, hliteral, -⟩ := exists_body hclosed hkind hstart
  have hr : r.isLetter = true := by simpa [hliteral] using hletter
  have hlead : [.char '<', r] <+: tok.literal := ⟨body ++ .char '>' :: more, by simp [hliteral]⟩
  refine ⟨r, hr, hlead, ?_⟩
  obtain ⟨s, gap, hcontent, hspans, -⟩ := Token.spans_between htokens
  obtain ⟨x, span, y, rfl, -, -, -, hspan⟩ := hspans.exists_span htok
  rw [hspan, hkind] at hlead
  obtain ⟨z, rfl⟩ := prefix_of_literalOf hr hlead
  rw [(whole_eq he).2]
  exact ⟨x, z ++ y ++ gap, by rw [innerStart, innerStop, hcontent]; simp⟩

/-- **A spread element is not merged** if its start tag is the only one of its kind and has
no `>` inside, and a nested start tag has an ASCII name. -/
theorem tightMerge_eq_none {o : Options} (hkeep : o.keepMultiline = true)
    (he : e ∈ all source (Token.scan source))
    (hunique : ∀ tok ∈ Token.scan source, tok.isStartTag = true →
      tok.literal.squash = e.opening.token.literal.squash → tok = e.opening.token)
    (hlines : .char '\n' ∈ e.whole) (hplain : .char '>' ∉ e.opening.token.literal.dropLast)
    {tok : Token} (htok : tok ∈ e.inner (Token.scan source)) (hstart : tok.isStartTag = true)
    (hletter : (tok.literal.drop 1).head?.any Glyph.isLetter = true)
    {memo : SourceIndex.Memo} (hmemo : memo.Faithful source) :
    (tightMerge o (SourceIndex.build source (Token.scan source)) e.opening.token
      (e.behind (Token.scan source)) memo).1 = none := by
  obtain ⟨-, rest, -, hbehind, -⟩ := exists_split he
  obtain ⟨hclosed, hkind⟩ := closed_opening he
  obtain ⟨r, hr, hlead, hcontent⟩ := exists_nested he htok hstart hletter
  have hspread : e.isSpread = true := by
    have hholds := holdsTag_of_infix hr hcontent
    simp [isSpread, hlines, hholds]
  have hblank : r.isBlank = false := by
    cases hb : r.isBlank with
    | false => rfl
    | true => simp [Glyph.isLetter_of_isBlank hb] at hr
  -- the nested tag stands on the line as it stands in the source
  have hline : [.char '<', r] <:+: flatten (e.opening.token ::
      (e.inner (Token.scan source) ++ [e.closing.token])) := by
    refine exists_flatten_infix hblank (List.IsInfix.trans ?_ (infix_join [.char ' ']
      (List.mem_map_of_mem (List.mem_cons_of_mem _ (List.mem_append_left _ htok)))))
    rw [Printer.renderInline_of_tag (Printer.isTag_of_isStartTag hstart)]
    exact hlead.isInfix
  refine (tightMerge_eq_none_iff hkeep he hmemo hbehind).mpr (.inl ⟨firstName_ne_nil hr hline, ?_⟩)
  exact ⟨_, firstTag?_literal hclosed hkind (opening_of_mem he).1 hplain,
    spreadUnder_literal he hunique hspread⟩

/-- The step of a layout at the start tag of an element. -/
theorem after_of_mem_steps (he : e ∈ all source (Token.scan source)) {o : Options}
    {s : Printer.Step} (hs : s ∈ (Printer.ofSource o source).steps)
    (htoken : s.token = e.opening.token) : s.after = e.behind (Token.scan source) := by
  obtain ⟨before, -, htokens, -⟩ := exists_split he
  obtain ⟨hplace, -⟩ := Printer.mem_stepsFrom hs
  have hsame : s.before.reverse ++ s.token :: s.after =
      before ++ e.opening.token :: e.behind (Token.scan source) := by
    rw [hplace, ← htokens]
    rfl
  have hnodup : (s.before.reverse ++ s.token :: s.after).Nodup := by
    rw [hsame, ← htokens]
    exact List.Nodup.of_map _ (Token.nodup_pos source)
  have hnew := (List.nodup_cons.mp (List.nodup_middle.mp hnodup)).1
  rw [List.mem_append, not_or, htoken] at hnew
  exact ((List.append_cons_inj_of_notMem hnew.1 hnew.2).mp hsame).2.2

end Element

/-- **Elements that their author spread over lines.**  Let an element of the source have a
start tag that no other start tag repeats, white space and case aside, let it take more than
one line and let a start tag stand between its tags; let the layout keep such elements.  Then
it is not merged as plain content.  A tight merge at its start tag fails if the first element
with its first tag, the part up to the first `>`, is spread, and else only for other reasons.
If the start tag has no `>` inside and a nested start tag has an ASCII name, the element
itself is that first element: both merges fail, and the layout does not put it on one line. -/
theorem merges_spread {o : Options} (hkeep : o.keepMultiline = true) {source : Text} {e : Element}
    (he : e ∈ Element.all source (Token.scan source))
    (hunique : ∀ tok ∈ Token.scan source, tok.isStartTag = true →
      tok.literal.squash = e.opening.token.literal.squash → tok = e.opening.token)
    (hlines : .char '\n' ∈ e.whole)
    (hnested : ∃ tok ∈ e.inner (Token.scan source), tok.isStartTag = true)
    {memo : SourceIndex.Memo} (hmemo : memo.Faithful source) :
    let p := Printer.ofSource o source
    let opening := e.opening.token
    let after := e.behind p.tokens
    let line := flatten (opening :: (e.inner p.tokens ++ [e.closing.token]))
    (contentMerge o p.index opening after memo).1 = none ∧
    ((tightMerge o p.index opening after memo).1 = none ↔
      (Tag.firstName line ≠ [] ∧
        ∃ tag, firstTag? opening.literal = some tag ∧ SpreadUnder source tag) ∨
      (tightMerge { o with keepMultiline := false } p.index opening after memo).1 = none) ∧
    (.char '>' ∉ opening.literal.dropLast →
      (∃ tok ∈ e.inner p.tokens, tok.isStartTag = true ∧
        (tok.literal.drop 1).head?.any Glyph.isLetter = true) →
      (tightMerge o p.index opening after memo).1 = none ∧
      ∀ s ∈ p.steps, s.token = opening → p.merge? s.start.memo s.token s.after = none) := by
  intro p opening after line
  obtain ⟨-, rest, -, hbehind, -⟩ := Element.exists_split he
  refine ⟨Element.contentMerge_eq_none he hnested o p.index memo,
    Element.tightMerge_eq_none_iff hkeep he hmemo hbehind, ?_⟩
  rintro hplain ⟨tok, htok, hstart, hletter⟩
  have htight : ∀ memo : SourceIndex.Memo, memo.Faithful source →
      (tightMerge o p.index opening after memo).1 = none :=
    fun memo hmemo =>
      Element.tightMerge_eq_none hkeep he hunique hlines hplain htok hstart hletter hmemo
  refine ⟨htight memo hmemo, fun s hs htoken => ?_⟩
  have hstep : s.start.memo.Faithful source :=
    faithful_of_mem_stepsFrom o (fun _ _ _ h => absurd h (by simp)) hs
  rw [htoken, Element.after_of_mem_steps he hs htoken, Printer.merge?_eq]
  split
  · have hcontent : (contentMerge o p.index opening after s.start.memo).1 = none :=
      Element.contentMerge_eq_none he hnested o p.index s.start.memo
    show (firstMerge o p.index opening after s.start.memo).1 = none
    rw [firstMerge, if_neg (by simp [hcontent])]
    exact htight _ (faithful_contentMerge o hstep opening after)
  · rfl

/-- A spread list in a spread division, with attributes in both kinds of quotes. -/
theorem merges_spread_list :
    let source := text "<div id='a'>\n<ul class=\x22b\x22>\n<li>x</li>\n</ul></div>"
    let p := Printer.ofSource {} source
    ∃ e ∈ Element.all source p.tokens, e.name = text "ul" ∧
      (∀ tok ∈ p.tokens, tok.isStartTag = true →
        tok.literal.squash = e.opening.token.literal.squash → tok = e.opening.token) ∧
      .char '\n' ∈ e.whole ∧ (∃ tok ∈ e.inner p.tokens, tok.isStartTag = true) ∧
      (contentMerge {} p.index e.opening.token (e.behind p.tokens) {}).1 = none ∧
      (tightMerge {} p.index e.opening.token (e.behind p.tokens) {}).1 = none := by
  intro source p
  obtain ⟨e, he, hname, hunique, hlines, hplain, hletter⟩ :
      ∃ e ∈ Element.all source p.tokens, e.name = text "ul" ∧
        (∀ tok ∈ p.tokens, tok.isStartTag = true →
          tok.literal.squash = e.opening.token.literal.squash → tok = e.opening.token) ∧
        .char '\n' ∈ e.whole ∧ .char '>' ∉ e.opening.token.literal.dropLast ∧
        ∃ tok ∈ e.inner p.tokens, tok.isStartTag = true ∧
          (tok.literal.drop 1).head?.any Glyph.isLetter = true := by decide +kernel
  have hnested : ∃ tok ∈ e.inner p.tokens, tok.isStartTag = true :=
    hletter.imp fun tok h => ⟨h.1, h.2.1⟩
  have hmemo : SourceIndex.Memo.Faithful source {} := fun _ _ _ h => absurd h (by simp)
  obtain ⟨hcontent, -, htight⟩ := merges_spread (o := {}) rfl he hunique hlines hnested hmemo
  exact ⟨e, he, hname, hunique, hlines, hnested, hcontent, (htight hplain hletter).1⟩

/-- A `>` in an attribute value ends the first tag of the line too early: no element is found
under it, and the spread element is put on one line. -/
theorem merges_spread_quoted :
    let source := text "<div title=\x22a>b\x22>\n<b>x</b>\n</div>"
    let p := Printer.ofSource {} source
    (∃ e ∈ Element.all source p.tokens,
      (∀ tok ∈ p.tokens, tok.isStartTag = true →
        tok.literal.squash = e.opening.token.literal.squash → tok = e.opening.token) ∧
      .char '\n' ∈ e.whole ∧ (∃ tok ∈ e.inner p.tokens, tok.isStartTag = true) ∧
      (tightMerge {} p.index e.opening.token (e.behind p.tokens) {}).1 =
        some ⟨text "<div title=\x22a>b\x22><b>x</b></div>", 4⟩) ∧
    format {} source = .ok (text "<div title=\x22a>b\x22><b>x</b></div>") := by
  intro source p
  have hlayout : layout {} source = text "<div title=\x22a>b\x22><b>x</b></div>" := by
    decide +kernel
  refine ⟨by decide +kernel, ?_⟩
  rw [← hlayout]
  exact format_eq_layout (by decide) (by decide) (by decide)

end TemplateFormat.Layout
