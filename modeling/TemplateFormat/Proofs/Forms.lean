import TemplateFormat.Layout.Flatten
import TemplateFormat.Proofs.Interpolations
import TemplateFormat.Proofs.TagForm

/-!
# The form in which a token is written

The printer writes tokens, and what it writes is read again as pieces.
`Token.form` is the piece that a token is written as: its rendering, under the
kind of the piece that it came from.  Three kinds of tokens are written in
another form than they were read in (texts and headers are collapsed, tags are
normalized, interpolations are rewritten), but each is still a piece of its kind
and gives the same token when it is read.

* `plain_collapse`, `Closed.collapse`, `Running.collapse_header` — collapsing
  keeps pieces;
* `form_of_text`, `form_of_closed`, `form_of_running` — what a token is written
  as;
* `readable_scan` — the tokens of a source are **readable** if all tags end: their
  forms are sound and trimmed, and each is read as its token again.
-/

namespace TemplateFormat

namespace Markup

open Text Layout

namespace Lexeme

/-- Plain text stays plain in any part of it. -/
theorem Plain.of_infix {s t : Text} (ht : Plain t) (h : s <:+: t) : Plain s :=
  fun m hm hocc => ht m hm (hocc.trans h)

/-- Collapsed plain text is plain. -/
theorem plain_collapse {s : Text} (hs : Plain s) : Plain (collapse s) := by
  obtain ⟨a, b, hsplit, -, -⟩ := trim_spec s
  have hcore : Plain (trim s) := hs.of_infix ⟨a, b, hsplit.symm⟩
  rw [← collapse_trim]
  exact hcore.respaced ((trimmed_trim s).respaced_collapse false)

/-- A closed piece starts and ends in glyphs that are not blank. -/
theorem Closed.trimmed {kind : Kind} {raw : Text} (h : Closed kind raw) :
    Trimmed raw where
  head := by
    cases h <;> intro r hr <;> cases hr <;> rfl
  last := by
    obtain ⟨body, last, rfl, hlast⟩ := h.last
    have hink : ∀ r ∈ closers, r.isBlank = false := by decide
    intro r hr
    obtain rfl : last = r := by simpa using hr
    exact hink last hlast

/-- A closed piece is not empty. -/
theorem Closed.ne_nil {kind : Kind} {raw : Text} (h : Closed kind raw) : raw ≠ [] := by
  obtain ⟨body, last, rfl, -⟩ := h.last
  simp

/-- A collapsed piece is closed if the piece is. -/
theorem Closed.collapse {kind : Kind} {raw : Text} (h : Closed kind raw) :
    Closed kind (Text.collapse raw) :=
  h.respaced (h.trimmed.respaced_collapse false)

/-- A collapsed header that lacks its `{` still does. -/
theorem Running.collapse_header {word raw : Text}
    (h : Running (.header word) raw) :
    Running (.header word) (Text.collapse raw) := by
  cases h with
  | @header word s hword hs =>
      obtain ⟨a, b, hsplit, ha, hb⟩ := trim_spec (.char '@' :: s)
      have hcore := trimmed_trim (.char '@' :: s)
      obtain rfl : a = [] := by
        cases a with
        | nil => rfl
        | cons r a =>
            obtain ⟨rfl, -⟩ := List.cons.inj hsplit
            exact absurd (ha _ List.mem_cons_self) (by decide)
      obtain ⟨core, hcons⟩ : ∃ core, trim (.char '@' :: s) = .char '@' :: core := by
        cases htrim : trim (.char '@' :: s) with
        | nil =>
            rw [htrim] at hsplit
            exact absurd (hb (.char '@') (by rw [← show _ = b from hsplit]; simp)) (by decide)
        | cons r core =>
            rw [htrim] at hsplit
            exact ⟨core, by rw [(List.cons.inj hsplit).1]⟩
      have hbody : s = core ++ b := by
        rw [hcons] at hsplit
        exact (List.cons.inj hsplit).2
      have hspace := hcore.respaced_collapse false
      rw [collapse_trim, hcons] at hspace
      obtain ⟨t, ht, htail⟩ := hspace.append_of_ink (m := [.char '@']) (s := core)
        (by decide) (by decide)
      rw [ht]
      refine .header ?_ ?_
      · have hletter : ∀ r ∈ b.head?, r.isLetter = false := fun r hr =>
          Glyph.isLetter_of_isBlank (hb r (List.mem_of_head? hr))
        rw [← hword, hbody, keyword?_append hletter]
        exact keyword?_respaced htail
      · intro hmem
        exact hs (by rw [hbody]; exact List.mem_append_left _ ((htail.mem_iff rfl).mp hmem))

end Lexeme

/-! ## Forms of tokens -/

namespace Token

/-- The kind of the piece that a token is written as. -/
def formKind (tok : Token) : Lexeme.Kind :=
  match tok.kind with
  | .text => .text
  | .interpolation => .interpolation
  | .closeBrace => .brace
  | .control word => if word = text "\x7d" then .blockEnd else .header word
  | .tag .. => if commentOpen.isPrefixOf tok.literal then .comment else .tag

/-- The piece that a token is written as. -/
def form (tok : Token) : Lexeme := ⟨tok.formKind, renderInline tok⟩

/-- A token that is read off its own form. -/
def Legible (tok : Token) : Prop :=
  tok.form.reading = some (tok.kind, renderInline tok)

/-- Texts, and only they, are written as text. -/
theorem form_kind_eq_text {tok : Token} : tok.form.kind = .text ↔ tok.kind = .text := by
  cases hkind : tok.kind with
  | control => simp only [form, formKind, hkind]; split <;> simp
  | tag => simp only [form, formKind, hkind]; split <;> simp
  | _ => simp [form, formKind, hkind]

/-- Interpolations, and only they, are written as such. -/
theorem form_kind_eq_interpolation {tok : Token} :
    tok.form.kind = .interpolation ↔ tok.kind = .interpolation := by
  cases hkind : tok.kind with
  | control => simp only [form, formKind, hkind]; split <;> simp
  | tag => simp only [form, formKind, hkind]; split <;> simp
  | _ => simp [form, formKind, hkind]

end Token

namespace Lexeme

/-- A text token is written as collapsed text. -/
theorem form_of_text {raw : Text} {tok : Token}
    (h : reading ⟨.text, raw⟩ = some (tok.kind, tok.literal)) :
    tok.form = ⟨.text, raw.collapse⟩ ∧ raw.collapse ≠ [] ∧ tok.Legible := by
  simp only [reading] at h
  split at h
  · cases h
  · next hne =>
      obtain ⟨hkind, hlit⟩ : .text = tok.kind ∧ raw.collapse = tok.literal := by
        simpa using h
      have hne : raw.collapse ≠ [] := by simpa using hne
      have hform : tok.form = ⟨.text, raw.collapse⟩ := by
        simp [Token.form, Token.formKind, renderInline, ← hkind, hlit]
      refine ⟨hform, hne, ?_⟩
      rw [Token.Legible, hform]
      simp [reading, renderInline, ← hkind, ← hlit, hne]

/-- No keyword is a brace. -/
theorem keyword?_ne_brace {s word : Text} (h : keyword? s = some word) :
    word ≠ text "\x7d" := by
  have hclean : ∀ word ∈ controlKeywords, word ≠ text "\x7d" := by decide
  exact hclean word (keyword?_eq_some h).1

/-- A header is written collapsed. -/
theorem form_of_header {word raw s : Text} {tok : Token}
    (hword : keyword? s = some word)
    (h : reading ⟨.header word, raw⟩ = some (tok.kind, tok.literal)) :
    tok.form = ⟨.header word, raw.collapse⟩ ∧ tok.Legible := by
  obtain ⟨hkind, hlit⟩ : .control word = tok.kind ∧ raw.collapse = tok.literal := by
    simpa [reading] using h
  have hform : tok.form = ⟨.header word, raw.collapse⟩ := by
    simp [Token.form, Token.formKind, renderInline, ← hkind, hlit,
      keyword?_ne_brace hword]
  refine ⟨hform, ?_⟩
  rw [Token.Legible, hform]
  simp [reading, renderInline, ← hkind, ← hlit]

/-- An interpolation is written in its normal form. -/
theorem form_of_interpolation {raw : Text} {tok : Token}
    (h : reading ⟨.interpolation, raw⟩ = some (tok.kind, tok.literal)) :
    tok.form = ⟨.interpolation, Interpolation.normalize raw⟩ ∧ tok.Legible := by
  obtain ⟨hkind, hlit⟩ : .interpolation = tok.kind ∧ raw = tok.literal := by
    simpa [reading] using h
  have hform : tok.form = ⟨.interpolation, Interpolation.normalize raw⟩ := by
    simp [Token.form, Token.formKind, renderInline, ← hkind, hlit]
  refine ⟨hform, ?_⟩
  rw [Token.Legible, hform]
  simp [reading, renderInline, ← hkind, ← hlit]

/-- A comment is written as it stands. -/
theorem form_of_comment {s : Text} {tok : Token}
    (h : reading ⟨.comment, commentOpen ++ s⟩ = some (tok.kind, tok.literal)) :
    tok.form = ⟨.comment, commentOpen ++ s⟩ ∧ tok.Legible := by
  obtain ⟨hkind, hlit⟩ : .tag (text "!--") false false = tok.kind ∧
    commentOpen ++ s = tok.literal := by
    simpa [reading] using h
  have hform : tok.form = ⟨.comment, commentOpen ++ s⟩ := by
    simp [Token.form, Token.formKind, renderInline, ← hkind, ← hlit]
  refine ⟨hform, ?_⟩
  rw [Token.Legible, hform]
  simp [reading, renderInline, ← hkind, ← hlit]

/-- A tag is no comment. -/
theorem Closed.not_comment {raw : Text} (h : Closed .tag raw) : ¬commentOpen <+: raw := by
  cases h with
  | tag hopen => exact fun hlead => hopen (List.cons_prefix_cons.mp hlead).2

/-- A tag that ends is written in its normal form. -/
theorem form_of_tag {raw : Text} {tok : Token} (hclosed : Closed .tag raw)
    (h : reading ⟨.tag, raw⟩ = some (tok.kind, tok.literal)) :
    tok.form = ⟨.tag, Tag.normalize raw⟩ ∧ tok.Legible := by
  obtain ⟨hkind, hlit⟩ : tagKind (Tag.normalize raw) = tok.kind ∧
    Tag.normalize raw = tok.literal := by
    simpa [reading] using h
  have hopen : commentOpen.isPrefixOf (Tag.normalize raw) = false := by
    rw [← Bool.not_eq_true, List.isPrefixOf_iff_prefix]
    exact (Tag.closed_normalize hclosed).not_comment
  have hform : tok.form = ⟨.tag, Tag.normalize raw⟩ := by
    rw [tagKind] at hkind
    simp [Token.form, Token.formKind, renderInline, ← hkind, ← hlit, hopen]
  refine ⟨hform, ?_⟩
  rw [Token.Legible, hform]
  simp [reading, renderInline, ← hkind, ← hlit, Tag.normalize_normalize hclosed, tagKind]

/-- **A closed piece** is written as a closed piece of its kind. -/
theorem form_of_closed {kind : Kind} {raw : Text} {tok : Token}
    (h : Closed kind raw)
    (hread : reading ⟨kind, raw⟩ = some (tok.kind, tok.literal)) :
    tok.form.kind = kind ∧ Closed kind tok.form.raw ∧ tok.Legible := by
  cases h with
  | interpolation h =>
      obtain ⟨hform, hlegible⟩ := form_of_interpolation hread
      rw [hform]
      exact ⟨rfl, Interpolation.closed_normalize (.interpolation h), hlegible⟩
  | header hword hs =>
      obtain ⟨hform, hlegible⟩ := form_of_header hword hread
      rw [hform]
      exact ⟨rfl, (Closed.header hword hs).collapse, hlegible⟩
  | blockEnd =>
      obtain ⟨hkind, hlit⟩ : .control (text "\x7d") = tok.kind ∧
          [.char '@', .char '\x7d'] = tok.literal := by
        simpa [reading] using hread
      have hform : tok.form = ⟨.blockEnd, [.char '@', .char '\x7d']⟩ := by
        simp [Token.form, Token.formKind, renderInline, ← hkind, hlit]
      rw [Token.Legible, hform]
      exact ⟨rfl, .blockEnd, by simp [reading, renderInline, ← hkind, ← hlit]⟩
  | brace =>
      obtain ⟨hkind, hlit⟩ : .closeBrace = tok.kind ∧ [.char '\x7d'] = tok.literal := by
        simpa [reading] using hread
      have hform : tok.form = ⟨.brace, [.char '\x7d']⟩ := by
        simp [Token.form, Token.formKind, renderInline, ← hkind, hlit]
      rw [Token.Legible, hform]
      exact ⟨rfl, .brace, by simp [reading, renderInline, ← hkind, ← hlit]⟩
  | comment h =>
      obtain ⟨hform, hlegible⟩ := form_of_comment hread
      rw [hform]
      exact ⟨rfl, .comment h, hlegible⟩
  | tag hopen h =>
      obtain ⟨hform, hlegible⟩ := form_of_tag (.tag hopen h) hread
      rw [hform]
      exact ⟨rfl, Tag.closed_normalize (.tag hopen h), hlegible⟩

/-- A running piece starts with a glyph that is not blank. -/
theorem Running.head {kind : Kind} {raw : Text} (h : Running kind raw) :
    ∀ r ∈ raw.head?, r.isBlank = false := by
  cases h <;> intro r hr <;> cases hr <;> rfl

/-- A running piece other than a tag is written as a running piece of its
kind. -/
theorem form_of_running {kind : Kind} {raw : Text} {tok : Token}
    (h : Running kind raw)
    (hkind : kind ≠ .tag) (hlast : ∀ r ∈ raw.getLast?, r.isBlank = false)
    (hread : reading ⟨kind, raw⟩ = some (tok.kind, tok.literal)) :
    tok.form.kind = kind ∧ Running kind tok.form.raw ∧ Trimmed tok.form.raw ∧ tok.Legible := by
  cases h with
  | interpolation h =>
      obtain ⟨hform, hlegible⟩ := form_of_interpolation hread
      have hrunning := Interpolation.running_normalize (.interpolation h)
      rw [hform]
      exact ⟨rfl, hrunning, ⟨hrunning.head, Interpolation.last_normalize hlast⟩, hlegible⟩
  | header hword hs =>
      obtain ⟨hform, hlegible⟩ := form_of_header hword hread
      rw [hform]
      exact ⟨rfl, (Running.header hword hs).collapse_header, trimmed_collapse _, hlegible⟩
  | comment h =>
      obtain ⟨hform, hlegible⟩ := form_of_comment hread
      rw [hform]
      exact ⟨rfl, .comment h, ⟨(Running.comment h).head, hlast⟩, hlegible⟩
  | tag => exact absurd rfl hkind

/-- Whether the piece ends in a `>` outside quotes, if it is a tag. -/
def isTerminated (lexeme : Lexeme) : Bool :=
  lexeme.kind != .tag || endsTag (.char '<') .outside (lexeme.raw.drop 1)

/-- A tag that runs to the end of the source but has its `>` is closed. -/
theorem Running.closed_of_ends {raw : Text} (h : Running .tag raw)
    (hend : endsTag (.char '<') .outside (raw.drop 1) = true) : Closed .tag raw := by
  cases h with
  | tag hopen => exact .tag hopen hend

/-- A piece that is no text gives a token. -/
theorem reading_isSome {lexeme : Lexeme} (h : lexeme.kind ≠ .text) :
    ∃ kind literal, lexeme.reading = some (kind, literal) := by
  rcases lexeme with ⟨kind, raw⟩
  cases kind with
  | text => exact absurd rfl h
  | _ => exact ⟨_, _, rfl⟩

/-- Pieces as tokens are written: sound, with all tags ended, and trimmed. -/
inductive Neat : List Lexeme → Prop
  | nil : Neat []
  | text {s : Text} {rest : List Lexeme} (hs : Plain s) (htrim : Trimmed s)
      (hne : s ≠ [])
      (hnext : ∀ lexeme ∈ rest.head?, lexeme.kind ≠ .text) (tail : Neat rest) :
      Neat (⟨.text, s⟩ :: rest)
  | closed {kind : Kind} {raw : Text} {rest : List Lexeme} (h : Closed kind raw)
      (tail : Neat rest) : Neat (⟨kind, raw⟩ :: rest)
  | running {kind : Kind} {raw : Text} (h : Running kind raw)
      (hkind : kind ≠ .tag)
      (htrim : Trimmed raw) : Neat [⟨kind, raw⟩]

/-- Neat pieces are trimmed and not empty. -/
theorem Neat.trimmed {lexemes : List Lexeme} (h : Neat lexemes) :
    ∀ lexeme ∈ lexemes, Trimmed lexeme.raw ∧ lexeme.raw ≠ [] := by
  induction h with
  | nil => simp
  | text hs htrim hne hnext tail ih => simpa using ⟨⟨htrim, hne⟩, ih⟩
  | closed h tail ih => simpa using ⟨⟨h.trimmed, h.ne_nil⟩, ih⟩
  | running h hkind htrim =>
      obtain ⟨r, s, rfl, -⟩ := h.marked? none
      simpa using htrim

/-- Neat pieces stay neat without the first. -/
theorem Neat.tail {lexeme : Lexeme} {rest : List Lexeme}
    (h : Neat (lexeme :: rest)) : Neat rest := by
  cases h with
  | text _ _ _ _ tail => exact tail
  | closed _ tail => exact tail
  | running => exact .nil

/-- Neat pieces stay neat without the last ones. -/
theorem Neat.front {a b : List Lexeme} (h : Neat (a ++ b)) : Neat a := by
  induction a with
  | nil => exact .nil
  | cons lexeme a ih =>
      have hfront : Neat a := ih h.tail
      rw [List.cons_append] at h
      generalize hrest : a ++ b = rest at h
      cases h with
      | text hs htrim hne hnext =>
          refine .text hs htrim hne (fun l hl => hnext l ?_) hfront
          rw [← hrest, List.head?_append, hl]
          rfl
      | closed h => exact .closed h hfront
      | running h hkind htrim =>
          rw [(List.append_eq_nil_iff.mp hrest).1]
          exact .running h hkind htrim

/-- Neat pieces stay neat without the first ones. -/
theorem Neat.back {a b : List Lexeme} (h : Neat (a ++ b)) : Neat b := by
  induction a with
  | nil => exact h
  | cons lexeme a ih => exact ih h.tail

/-- A piece before others that is no text is closed. -/
theorem Neat.closed_of_head {lexeme : Lexeme} {rest : List Lexeme}
    (h : Neat (lexeme :: rest))
    (hrest : rest ≠ []) (hkind : lexeme.kind ≠ .text) : Closed lexeme.kind lexeme.raw := by
  cases h with
  | text => exact absurd rfl hkind
  | closed h => exact h
  | running => exact absurd rfl hrest

/-- A text among neat pieces is plain and trimmed, and no text follows it. -/
theorem Neat.text_of_head {lexeme : Lexeme} {rest : List Lexeme}
    (h : Neat (lexeme :: rest))
    (hkind : lexeme.kind = .text) :
    Plain lexeme.raw ∧ Trimmed lexeme.raw ∧ lexeme.raw ≠ [] ∧
      ∀ next ∈ rest.head?, next.kind ≠ .text := by
  cases h with
  | text hs htrim hne hnext => exact ⟨hs, htrim, hne, hnext⟩
  | closed h => exact absurd hkind h.kind_ne_text
  | running h => exact absurd hkind h.kind_ne_text

/-- A tag among neat pieces is closed. -/
theorem Neat.closed_of_tag {lexemes : List Lexeme} (h : Neat lexemes) :
    ∀ lexeme ∈ lexemes, lexeme.kind = .tag → Closed lexeme.kind lexeme.raw := by
  induction h with
  | nil => simp
  | text hs htrim hne hnext tail ih => simpa using ih
  | closed h tail ih => simpa using ⟨fun _ => h, ih⟩
  | running h hkind htrim => simpa using fun heq => absurd heq hkind

/-- The token list of a piece that gives a token. -/
theorem ofLexemes_of_reading {lexeme : Lexeme} {kind : Token.Kind}
    {literal : Text}
    (h : lexeme.reading = some (kind, literal)) (pos : Nat) (prev : Option Glyph)
    (rest : List Lexeme) :
    ∃ tok : Token, lexeme.reading = some (tok.kind, tok.literal) ∧
      Token.ofLexemes pos prev (lexeme :: rest) =
        tok :: Token.ofLexemes (pos + lexeme.raw.width) lexeme.raw.getLast? rest := by
  have hread := token?_reading pos prev lexeme
  rw [h] at hread
  obtain ⟨tok, htok, hpair⟩ := Option.map_eq_some_iff.mp hread
  exact ⟨tok, by rw [h, hpair], by rw [Token.ofLexemes, htok]⟩

/-- The token list of a piece that gives none. -/
theorem ofLexemes_of_none {lexeme : Lexeme} (h : lexeme.reading = none) (pos : Nat)
    (prev : Option Glyph) (rest : List Lexeme) :
    Token.ofLexemes pos prev (lexeme :: rest) =
      Token.ofLexemes (pos + lexeme.raw.width) lexeme.raw.getLast? rest := by
  have hread := token?_reading pos prev lexeme
  rw [h] at hread
  rw [Token.ofLexemes, Option.map_eq_none_iff.mp hread]

/-- A piece that runs on to the end of the source is written as a neat piece on its own. -/
theorem neat_of_running {kind : Kind} {raw : Text} {tok : Token} (h : Running kind raw)
    (hterm : isTerminated ⟨kind, raw⟩ = true)
    (hlast : ∀ r ∈ raw.getLast?, r.isBlank = false)
    (htok : reading ⟨kind, raw⟩ = some (tok.kind, tok.literal)) :
    tok.form.kind = kind ∧ Neat [tok.form] ∧ tok.Legible := by
  by_cases hkind : kind = .tag
  · -- a tag that ends is closed, also where nothing follows it
    subst hkind
    have hraw := h.closed_of_ends (by simpa [isTerminated] using hterm)
    obtain ⟨hform, hclosed, hlegible⟩ := form_of_closed hraw htok
    rw [← hform] at hclosed
    exact ⟨hform, .closed hclosed .nil, hlegible⟩
  · obtain ⟨hform, hrunning, htrim, hlegible⟩ := form_of_running h hkind hlast htok
    rw [← hform] at hrunning hkind
    exact ⟨hform, .running hrunning hkind htrim, hlegible⟩

/-- The tokens of sound pieces are written as neat pieces.  Texts do not come to
stand side by side: what separates them gives a token of another kind. -/
theorem neat_ofLexemes {lexemes : List Lexeme} (hsound : Sound lexemes)
    (hterm : ∀ lexeme ∈ lexemes, lexeme.isTerminated = true)
    (hlast : ∀ r ∈ (lexemes.flatMap raw).getLast?, r.isBlank = false) (pos : Nat)
    (prev : Option Glyph) :
    Neat ((Token.ofLexemes pos prev lexemes).map Token.form) ∧
      (∀ tok ∈ Token.ofLexemes pos prev lexemes, tok.Legible) ∧
      ((∀ lexeme ∈ lexemes.head?, lexeme.kind ≠ .text) →
        ∀ form ∈ ((Token.ofLexemes pos prev lexemes).map Token.form).head?,
          form.kind ≠ .text) := by
  have hlater : ∀ {lexeme : Lexeme} {rest : List Lexeme},
      (∀ r ∈ ((lexeme :: rest).flatMap raw).getLast?, r.isBlank = false) →
        ∀ r ∈ (rest.flatMap raw).getLast?, r.isBlank = false := by
    intro lexeme rest h r hr
    refine h r ?_
    rw [List.flatMap_cons, List.getLast?_append, hr]
    rfl
  induction hsound generalizing pos prev with
  | nil => exact ⟨.nil, by simp [Token.ofLexemes], by simp [Token.ofLexemes]⟩
  | @text s rest hs hnext tail ih =>
      have hrest :=
        ih (fun lexeme hl => hterm lexeme (List.mem_cons_of_mem _ hl))
        (hlater hlast)
      cases hread : reading ⟨.text, s⟩ with
      | none =>
          rw [ofLexemes_of_none hread]
          obtain ⟨hforms, hlegible, -⟩ := hrest (pos + s.width) s.getLast?
          exact ⟨hforms, hlegible, fun h => absurd rfl (h ⟨.text, s⟩ rfl)⟩
      | some read =>
          obtain ⟨tok, htok, htokens⟩ := ofLexemes_of_reading hread pos prev rest
          obtain ⟨hforms, hlegible, hhead⟩ := hrest (pos + s.width) s.getLast?
          obtain ⟨hform, hne, hlegible'⟩ := form_of_text htok
          rw [htokens, List.map_cons, hform]
          refine ⟨.text (plain_collapse hs) (trimmed_collapse s) hne
            (hhead hnext) hforms, ?_,
            fun h => absurd rfl (h ⟨.text, s⟩ rfl)⟩
          simpa using ⟨hlegible', hlegible⟩
  | @closed kind raw rest h tail ih =>
      obtain ⟨_, _, hread⟩ := @reading_isSome ⟨kind, raw⟩ h.kind_ne_text
      obtain ⟨tok, htok, htokens⟩ := ofLexemes_of_reading hread pos prev rest
      obtain ⟨hforms, hlegible, -⟩ :=
        ih (fun lexeme hl => hterm lexeme (List.mem_cons_of_mem _ hl))
          (hlater hlast)
          (pos + raw.width) raw.getLast?
      obtain ⟨hkind, hclosed, hlegible'⟩ := form_of_closed h htok
      rw [← hkind] at hclosed
      rw [htokens, List.map_cons]
      refine ⟨.closed hclosed hforms, by simpa using ⟨hlegible', hlegible⟩, ?_⟩
      simp [hkind, h.kind_ne_text]
  | @running kind raw h =>
      obtain ⟨_, _, hread⟩ := @reading_isSome ⟨kind, raw⟩ h.kind_ne_text
      obtain ⟨tok, htok, htokens⟩ := ofLexemes_of_reading hread pos prev []
      obtain ⟨hkind, hforms, hlegible⟩ :=
        neat_of_running h (hterm _ List.mem_cons_self) (by simpa using hlast) htok
      rw [htokens]
      exact ⟨hforms, by simpa [Token.ofLexemes] using hlegible,
        by simp [Token.ofLexemes, hkind, h.kind_ne_text]⟩

end Lexeme

/-- Tokens that are written as neat pieces, each of which is read as the token
again. -/
structure Token.Readable (tokens : List Token) : Prop where
  neat : Lexeme.Neat (tokens.map Token.form)
  legible : ∀ tok ∈ tokens, tok.Legible

/-- Readable tokens stay readable without the first ones. -/
theorem Token.Readable.back {a b : List Token} (h : Readable (a ++ b)) :
    Readable b where
  neat := by
    have hneat := h.neat
    rw [List.map_append] at hneat
    exact hneat.back
  legible := fun tok htok => h.legible tok (List.mem_append_right a htok)

theorem Token.Readable.tail {tok : Token} {rest : List Token}
    (h : Readable (tok :: rest)) :
    Readable rest :=
  Readable.back (a := [tok]) h

theorem Token.Readable.drop {tokens : List Token} (h : Readable tokens) (n : Nat) :
    Readable (tokens.drop n) :=
  Readable.back (a := tokens.take n) (by rwa [List.take_append_drop])

/-- Readable tokens stay readable without the last ones. -/
theorem Token.Readable.front {a b : List Token} (h : Readable (a ++ b)) :
    Readable a where
  neat := by
    have hneat := h.neat
    rw [List.map_append] at hneat
    exact hneat.front
  legible := fun tok htok => h.legible tok (List.mem_append_left b htok)

/-- No text follows a text among readable tokens. -/
theorem Token.Readable.not_text {tok : Token} {rest : List Token}
    (h : Readable (tok :: rest))
    (htext : tok.kind = .text) : ∀ next ∈ rest.head?, next.kind ≠ .text := by
  intro next hmem hkind
  obtain ⟨-, -, -, hnext⟩ :=
    h.neat.text_of_head (Token.form_kind_eq_text.mpr htext)
  refine hnext next.form ?_ (Token.form_kind_eq_text.mpr hkind)
  rw [List.head?_map, hmem]
  rfl

/-- The forms of readable tokens are read as their kinds and renderings. -/
theorem Token.Readable.readings {tokens : List Token} (h : Readable tokens) :
    (tokens.map Token.form).filterMap Lexeme.reading =
      tokens.map fun tok => (tok.kind, renderInline tok) := by
  induction tokens with
  | nil => rfl
  | cons tok rest ih =>
      rw [List.map_cons, List.filterMap_cons_some
        (h.legible tok List.mem_cons_self), ih h.tail,
        List.map_cons]

/-- **The tokens of a source** are readable if all tags end. -/
theorem Token.readable_scan {source : Text} (htrim : Trimmed source)
    (h : ∀ lexeme ∈ Lexeme.split source, lexeme.isTerminated = true) :
    Readable (Token.scan source) :=
  have hlast : ∀ r ∈ ((Lexeme.split source).flatMap Lexeme.raw).getLast?,
    r.isBlank = false := by
    rw [Lexeme.split_raws]
    exact htrim.last
  let ⟨hforms, hlegible, _⟩ :=
    Lexeme.neat_ofLexemes (Lexeme.sound_split source) h hlast 0 none
  ⟨hforms, hlegible⟩

end Markup

end TemplateFormat
