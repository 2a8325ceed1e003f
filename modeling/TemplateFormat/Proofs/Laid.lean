import TemplateFormat.Proofs.Forms

/-!
# Pieces laid out with white space between them

`Laid` says that a text is made of given pieces, one after the other, with
blanks between them wherever the layout puts some.  Nothing is said about the
blanks but this: where two pieces touch, no marker may arise that was not there
before.

* `readings_of_laid`, `outline_of_laid` — a text that is laid out from pieces is
  read as these pieces;
* `Laid.respaced` — changing its white space as flattening does leaves a text
  that is laid out from pieces of the same kinds;
* `laid_join` — neat pieces joined with spaces are laid out.

A piece that lacks its end takes all that follows; it is allowed at the end of
the text if the layout is `loose`.
-/

namespace TemplateFormat.Markup

open Text

namespace Lexeme

/-- The text is made of the pieces, with blanks before, between and behind them.
`prev` is the glyph before the text. -/
inductive Laid (loose : Bool) : Option Glyph → List Lexeme → Text → Prop
  | nil {prev : Option Glyph} : Laid loose prev [] []
  | blank {prev : Option Glyph} {w : Glyph} {lexemes : List Lexeme} {t : Text}
      (hw : w.isBlank = true) (tail : Laid loose (some w) lexemes t) :
      Laid loose prev lexemes (w :: t)
  | text {prev : Option Glyph} {s t : Text} {lexemes : List Lexeme} (hs : Plain s)
      (htrim : Trimmed s) (hne : s ≠ []) (hmeet : Meets s t)
      (hnext : ∀ lexeme ∈ lexemes.head?, lexeme.kind ≠ .text)
      (tail : Laid loose s.getLast? lexemes t) :
      Laid loose prev (⟨.text, s⟩ :: lexemes) (s ++ t)
  | closed {prev : Option Glyph} {kind : Kind} {raw t : Text}
      {lexemes : List Lexeme}
      (h : Closed kind raw) (hprev : kind = .brace → prev ≠ some (.char '@'))
      (tail : Laid loose raw.getLast? lexemes t) :
      Laid loose prev (⟨kind, raw⟩ :: lexemes) (raw ++ t)
  | running {prev : Option Glyph} {kind : Kind} {raw : Text}
      (hloose : loose = true)
      (h : Running kind raw) (hkind : kind ≠ .tag) :
      Laid loose prev [⟨kind, raw⟩] raw

/-- Blanks may stand before anything. -/
theorem Laid.blanks {loose : Bool} {prev : Option Glyph} {w : Text}
    {lexemes : List Lexeme} {t : Text}
    (hw : ∀ r ∈ w, r.isBlank = true)
    (h : Laid loose (w.getLast?.or prev) lexemes t) :
    Laid loose prev lexemes (w ++ t) := by
  induction w generalizing prev with
  | nil => exact h
  | cons r w ih =>
      refine .blank (hw r List.mem_cons_self)
        (ih (fun a ha => hw a (List.mem_cons_of_mem r ha)) ?_)
      rw [List.getLast?_cons] at h
      cases hlast : w.getLast? <;> simpa [hlast] using h

/-- Pieces take room. -/
theorem Laid.ne_nil {loose : Bool} {prev : Option Glyph} {lexemes : List Lexeme} {t : Text}
    (h : Laid loose prev lexemes t) (hne : lexemes ≠ []) : t ≠ [] := by
  cases h with
  | nil => exact absurd rfl hne
  | blank => simp
  | text _ _ hs => simp [hs]
  | closed h => simp [h.ne_nil]
  | running _ h =>
      obtain ⟨r, s, rfl, -⟩ := h.marked? none
      simp

/-- Only an `@` before the text matters, and only to a brace. -/
theorem Laid.of_prev {loose : Bool} {prev : Option Glyph} {lexemes : List Lexeme} {t : Text}
    (h : Laid loose prev lexemes t) {prev' : Option Glyph}
    (hprev : prev' = some (.char '@') →
      ∀ lexeme ∈ lexemes.head?, lexeme.kind ≠ .brace) :
    Laid loose prev' lexemes t := by
  cases h with
  | nil => exact .nil
  | blank hw tail => exact .blank hw tail
  | text hs htrim hne hmeet hnext tail =>
      exact .text hs htrim hne hmeet hnext tail
  | closed h _ tail =>
      exact .closed h (fun hbrace hat => hprev hat _ rfl hbrace) tail
  | running hloose h hkind => exact .running hloose h hkind

/-- **Layouts side by side** make a layout; a text at the end of the first would
run on into the second. -/
theorem Laid.append {loose : Bool} {prev : Option Glyph} {a b : List Lexeme}
    {s t : Text}
    (ha : Laid false prev a s)
    (hlast : ∀ lexeme ∈ a.getLast?, lexeme.kind ≠ .text)
    (hb : Laid loose (s.getLast?.or prev) b t) : Laid loose prev (a ++ b) (s ++ t) := by
  have hlater : ∀ {lexeme : Lexeme} {rest : List Lexeme},
      (∀ l ∈ (lexeme :: rest).getLast?, l.kind ≠ .text) →
      ∀ l ∈ rest.getLast?, l.kind ≠ .text := by
    intro lexeme rest h l hl
    refine h l ?_
    rw [List.getLast?_cons, hl]
    rfl
  induction ha with
  | nil => exact hb
  | @blank prev w lexemes s hw tail ih =>
      refine .blank hw (ih hlast ?_)
      rw [List.getLast?_cons] at hb
      cases hs : s.getLast? <;> simpa [hs] using hb
  | @text prev u s lexemes hu htrim hne hmeet hnext tail ih =>
      have hlexemes : lexemes ≠ [] := by
        rintro rfl
        exact hlast ⟨.text, u⟩ rfl rfl
      have hs := tail.ne_nil hlexemes
      rw [List.append_assoc, List.cons_append]
      refine .text hu htrim hne ?_ ?_ (ih (hlater hlast) ?_)
      · obtain ⟨r, s, rfl⟩ := List.exists_cons_of_ne_nil hs
        exact hmeet
      · obtain ⟨l, rest, rfl⟩ := List.exists_cons_of_ne_nil hlexemes
        exact hnext
      · obtain ⟨body, last, rfl⟩ : ∃ body last, s = body ++ [last] := by
          rcases List.eq_nil_or_concat s with h | ⟨body, last, h⟩
          · exact absurd h hs
          · exact ⟨body, last, by rw [h, List.concat_eq_append]⟩
        simpa [← List.append_assoc] using hb
  | @closed prev kind raw s lexemes h hprev tail ih =>
      rw [List.append_assoc, List.cons_append]
      refine .closed h hprev (ih (hlater hlast) ?_)
      obtain ⟨body, last, rfl, -⟩ := h.last
      rw [List.getLast?_append, Option.or_assoc] at hb
      simpa using hb
  | running hloose => cases hloose

/-! ## Reading a layout -/

/-- What is read off a text are its words. -/
theorem readings_text (s : Text) : [⟨.text, s⟩].filterMap reading =
    if collapse s = [] then [] else [(.text, collapse s)] := by
  by_cases h : collapse s = [] <;> simp [reading, h]

/-- What is read off the text collected so far depends on its words only. -/
theorem readings_ofPending (pending : Text) :
    (ofPending pending).filterMap reading =
    if collapse pending.reverse = [] then [] else [(.text, collapse pending.reverse)] := by
  cases pending with
  | nil => rfl
  | cons r pending => exact readings_text (r :: pending).reverse

/-- A step over a closed piece, with what is read off it. -/
theorem readings_of_closed {kind : Kind} {raw : Text} (h : Closed kind raw)
    {prev : Option Glyph}
    (hprev : kind = .brace → prev ≠ some (.char '@')) (pending rest : Text) :
    (splitFrom 0 prev pending (raw ++ rest)).filterMap reading =
      (ofPending pending).filterMap reading ++ [⟨kind, raw⟩].filterMap reading ++
        (splitFrom 0 raw.getLast? [] rest).filterMap reading := by
  obtain ⟨r, s, rfl, hmark⟩ := h.marked? hprev rest
  rw [List.cons_append, splitFrom_of_marked pending hmark, List.filterMap_append,
    List.filterMap_cons, List.append_assoc]
  cases hread : reading ⟨kind, r :: s⟩ <;> simp [hread]

/-- **Reading a layout.**  A text laid out from pieces is read as these pieces,
behind the text collected before it. -/
theorem readings_of_laid {loose : Bool} {prev : Option Glyph}
    {lexemes : List Lexeme} {t : Text}
    (h : Laid loose prev lexemes t) {pending : Text}
    (hpending : (∃ lexeme ∈ lexemes.head?, lexeme.kind = .text) →
      ∀ r ∈ pending, r.isBlank = true) :
    (splitFrom 0 prev pending t).filterMap reading =
      (ofPending pending).filterMap reading ++ lexemes.filterMap reading := by
  induction h generalizing pending with
  | nil => simp [splitFrom]
  | @blank prev w lexemes t hw tail ih =>
      rw [splitFrom_of_plain pending (marked?_blank hw prev t), ih]
      · rw [readings_ofPending, readings_ofPending, List.reverse_cons,
          collapse_append_blank _ (by simpa using hw)]
      · intro hhead r hr
        rcases List.mem_cons.mp hr with rfl | hr
        · exact hw
        · exact hpending hhead r hr
  | @text prev s t lexemes hs htrim hne hmeet hnext tail ih =>
      have hblank : ∀ r ∈ pending.reverse, r.isBlank = true := fun r hr =>
        hpending ⟨⟨.text, s⟩, rfl, rfl⟩ r (List.mem_reverse.mp hr)
      have hlast : s.getLast?.or prev = s.getLast? := by
        obtain ⟨body, last, rfl, -⟩ := htrim.exists_last hne
        simp
      have hempty : (ofPending pending).filterMap reading = [] := by
        rw [readings_ofPending, if_pos]
        have hnil := collapse_append_of_blank hblank []
        rwa [List.append_nil] at hnil
      have hcollected : (ofPending (s.reverse ++ pending)).filterMap reading =
          [⟨.text, s⟩].filterMap reading := by
        rw [readings_ofPending, List.reverse_append, List.reverse_reverse,
          collapse_append_of_blank hblank, readings_text]
      rw [splitFrom_plain hs (fun _ => hmeet), hlast, ih, hcollected, hempty,
        List.nil_append,
        ← List.filterMap_append, List.singleton_append]
      rintro ⟨lexeme, hmem, hkind⟩
      exact absurd hkind (hnext lexeme hmem)
  | @closed prev kind raw t lexemes h hprev tail ih =>
      rw [readings_of_closed h hprev, ih (by simp), List.append_assoc]
      simp only [ofPending, List.isEmpty_nil, if_true, List.filterMap_nil,
        List.nil_append]
      rw [← List.filterMap_append, List.singleton_append]
  | @running prev kind raw hloose h hkind =>
      obtain ⟨r, s, rfl, hmark⟩ := h.marked? prev
      have hmark' : marked? prev r (s ++ []) = some (kind, s.length + 1) := by
        rw [List.append_nil]
        exact hmark
      have hstep := splitFrom_of_marked pending hmark'
      rw [List.append_nil] at hstep
      rw [hstep, List.filterMap_append]
      simp [splitFrom, ofPending]

/-! ## Layouts under other white space -/

/-- What a respacing leaves alone of a piece: its kind, its glyphs, and whether
it starts like a closing tag. -/
def bare (lexeme : Lexeme) : Kind × Text × Bool :=
  (lexeme.kind, strip lexeme.raw, (TemplateFormat.text "</").isPrefixOf lexeme.raw)

/-- Whether the piece is a tag or a comment. -/
def isMarkup (lexeme : Lexeme) : Bool :=
  lexeme.kind == .tag || lexeme.kind == .comment

/-- Pieces that are bare the same have tags and comments that are bare the same. -/
theorem bare_filter {a b : List Lexeme} (h : a.map bare = b.map bare) :
    (a.filter isMarkup).map bare = (b.filter isMarkup).map bare := by
  have hfilter : ∀ lexemes : List Lexeme, (lexemes.filter isMarkup).map bare =
      (lexemes.map bare).filter fun piece =>
      piece.1 == .tag || piece.1 == .comment :=
    fun lexemes => by rw [List.filter_map]; rfl
  rw [hfilter, hfilter, h]

/-- A respaced piece is bare the same. -/
theorem bare_respaced {raw raw' : Text} {behind : Bool} (kind : Kind)
    (hne : raw ≠ [])
    (htrim : Trimmed raw) (h : Respaced behind raw raw') :
    bare ⟨kind, raw'⟩ = bare ⟨kind, raw⟩ := by
  obtain ⟨r, s, rfl⟩ := List.exists_cons_of_ne_nil hne
  obtain ⟨t, rfl, htail⟩ := h.cons_of_ink (htrim.head r rfl)
  have hopen : (TemplateFormat.text "</").isPrefixOf (r :: t) =
      (TemplateFormat.text "</").isPrefixOf (r :: s) := by
    have hclosing : TemplateFormat.text "</" = [.char '<', .char '/'] := rfl
    rw [Bool.eq_iff_iff, List.isPrefixOf_iff_prefix, List.isPrefixOf_iff_prefix, hclosing,
      List.cons_prefix_cons, List.cons_prefix_cons]
    refine and_congr_right fun hr => ?_
    rw [← hr] at htail
    exact htail.prefix_iff (by decide)
  simp only [bare, h.strip_eq, hopen]

/-- A respaced text still meets what follows. -/
theorem Meets.respaced {s s' t t' : Text} {last : Glyph} (hmeet : Meets s t)
    (hs : s.getLast? = some last) (hs' : s'.getLast? = some last)
    (h : Respaced (last == .char '>') t t') : Meets s' t' := by
  rw [Meets, hs] at hmeet
  rw [Meets, hs']
  cases hgt : (last == .char '>') with
  | true =>
      intro r hr
      exact .inr (.inr (.inl (by rw [beq_iff_eq.mp hgt])))
  | false =>
      rw [hgt] at h
      generalize hb : false = behind at h
      induction h with
      | nil => simp
      | ink hr tail => exact fun r hr => hmeet r (by simpa using hr)
      | keep hw hw' tail =>
          intro r hr
          obtain rfl : _ = r := by simpa using hr
          exact .inl hw'
      | @drop behind w s t hw hplace tail ih =>
          subst hb
          refine ih (fun r hr => ?_) rfl
          have hr : s.head? = some r := hr
          rcases hplace with hbehind | hblank | hopen
          · cases hbehind
          · exact .inl (by simpa [hr] using hblank)
          · exact .inr (.inl (by simpa [hr] using hopen))

/-- Pieces that are bare the same start with pieces of one kind. -/
theorem head_of_bare {a b : List Lexeme} (hab : a.map bare = b.map bare)
    (hb : ∀ lexeme ∈ b.head?, lexeme.kind ≠ .text) : ∀ lexeme ∈ a.head?, lexeme.kind ≠ .text := by
  intro lexeme ha
  cases b with
  | nil =>
      rw [List.map_eq_nil_iff.mp hab] at ha
      cases ha
  | cons l b =>
      cases a with
      | nil => cases ha
      | cons m a =>
          obtain rfl : m = lexeme := by simpa using ha
          have hkind : m.kind = l.kind := congrArg Prod.fst (List.cons.inj hab).1
          rw [hkind]
          exact hb l rfl

/-- **A layout under other white space** is a layout of pieces that are bare the
same.  `prev` and `prev'` are the glyphs before the two texts: they differ where
a blank was left out, and then no brace follows that an `@` could hide. -/
theorem Laid.respaced {prev : Option Glyph} {lexemes : List Lexeme} {t : Text}
    (h : Laid false prev lexemes t) {behind : Bool} {t' : Text}
    (hspace : Respaced behind t t')
    (prev' : Option Glyph)
    (hprev : prev' = some (.char '@') →
      behind = false ∧ (prev = some (.char '@') ∨
      t.head?.any Glyph.isBlank = true ∨ t.head? = some (.char '<'))) :
    ∃ lexemes', Laid false prev' lexemes' t' ∧ lexemes'.map bare = lexemes.map bare := by
  induction h generalizing behind t' prev' with
  | nil => exact ⟨[], by rw [hspace.eq_nil]; exact .nil, rfl⟩
  | @blank prev w lexemes t hw tail ih =>
      cases hspace with
      | ink hr => simp [hw] at hr
      | @keep _ _ w' _ t' _ hw' htail =>
          obtain ⟨lexemes', hlaid, hbare⟩ := ih htail (some w') (by
            rintro h
            cases h
            exact absurd hw' (by decide))
          exact ⟨lexemes', .blank hw' hlaid, hbare⟩
      | drop _ hplace htail =>
          refine ih htail prev' fun hat => ?_
          obtain ⟨hbehind, -⟩ := hprev hat
          rcases hplace with hplace | hplace
          · rw [hbehind] at hplace
            cases hplace
          · exact ⟨hbehind, .inr hplace⟩
  | @text prev s t lexemes hs htrim hne hmeet hnext tail ih =>
      obtain ⟨last, s', u, hlast, hlast', rfl, hs', hu⟩ :=
        htrim.split_respaced hne hspace
      obtain ⟨lexemes', hlaid, hbare⟩ := ih hu s'.getLast? (by
        intro hat
        rw [hlast'] at hat
        cases hat
        exact ⟨rfl, .inl hlast⟩)
      obtain ⟨htrim', hne'⟩ := htrim.respaced hne hs'
      refine ⟨⟨.text, s'⟩ :: lexemes', .text (hs.respaced hs') htrim' hne'
        (hmeet.respaced hlast hlast' hu) (head_of_bare hbare hnext) hlaid, ?_⟩
      rw [List.map_cons, List.map_cons, bare_respaced .text hne htrim hs', hbare]
  | @closed prev kind raw t lexemes h hbrace tail ih =>
      obtain ⟨last, raw', u, hlast, hlast', rfl, hraw, hu⟩ :=
        h.trimmed.split_respaced h.ne_nil hspace
      obtain ⟨lexemes', hlaid, hbare⟩ := ih hu raw'.getLast? (by
        intro hat
        rw [hlast'] at hat
        cases hat
        exact ⟨rfl, .inl hlast⟩)
      refine ⟨⟨kind, raw'⟩ :: lexemes', .closed (h.respaced hraw) ?_ hlaid, ?_⟩
      · rintro rfl hat
        cases h
        rcases (hprev hat).2 with hp | hp | hp
        · exact hbrace rfl hp
        · exact absurd (show Glyph.isBlank (.char '\x7d') = true from hp) (by decide)
        · cases hp
      · rw [List.map_cons, List.map_cons,
          bare_respaced kind h.ne_nil h.trimmed hraw, hbare]
  | running hloose => cases hloose

/-! ## Laying out neat pieces -/

/-- **Laying out one more piece** before `later`, which the pieces `rest` are laid
out as: blanks must follow a text, and nothing the last piece. -/
theorem Laid.piece {loose : Bool} {prev : Option Glyph} {lexeme : Lexeme}
    {rest later : List Lexeme}
    {t : Text} (hneat : Neat (lexeme :: rest))
    (hend : loose = true ∨ (rest = [] → Closed lexeme.kind lexeme.raw))
    (hprev : lexeme.kind = .brace → prev ≠ some (.char '@'))
    (hgap : lexeme.kind = .text → ∀ r ∈ t.head?, r.isBlank = true)
    (hnext : lexeme.kind = .text → ∀ next ∈ later.head?, next.kind ≠ .text)
    (hstop : rest = [] → later = [] ∧ t = [])
    (tail : Laid loose lexeme.raw.getLast? later t) :
    Laid loose prev (lexeme :: later) (lexeme.raw ++ t) := by
  cases hneat with
  | text hs htrim hne =>
      exact .text hs htrim hne (fun r hr => .inl (hgap rfl r hr)) (hnext rfl) tail
  | closed h => exact .closed h hprev tail
  | @running kind raw h hkind =>
      obtain ⟨rfl, rfl⟩ := hstop rfl
      rcases hend with hloose | hclosed
      · rw [List.append_nil]
        exact .running hloose h hkind
      · exact .closed (hclosed rfl) hprev tail

/-- Neat pieces of which the last is closed, joined with spaces, are laid out. -/
theorem laid_join {lexemes : List Lexeme} (hneat : Neat lexemes)
    (hlast : ∀ lexeme ∈ lexemes.getLast?, Closed lexeme.kind lexeme.raw)
    {prev : Option Glyph}
    (hprev : prev ≠ some (.char '@')) :
    Laid false prev lexemes (join [.char ' '] (lexemes.map raw)) := by
  induction lexemes generalizing prev with
  | nil => exact .nil
  | cons lexeme rest ih =>
      cases rest with
      | nil =>
          have honly : Laid false prev [lexeme] (lexeme.raw ++ []) :=
            .piece hneat (.inr fun _ => hlast lexeme rfl) (fun _ => hprev)
              (by simp) (by simp)
              (fun _ => ⟨rfl, rfl⟩) .nil
          simpa using honly
      | cons next rest =>
          rw [List.map_cons, List.map_cons, join_cons_cons, List.append_assoc]
          refine .piece hneat (.inr (by simp)) (fun _ => hprev) (by simp)
            (fun htext => (hneat.text_of_head htext).2.2.2) (by simp) ?_
          refine .blank rfl ?_
          refine ih hneat.tail (fun lexeme h => hlast lexeme ?_) (by simp)
          rw [List.getLast?_cons_cons]
          exact h

end Lexeme

/-- A text laid out from pieces has the tokens of these pieces. -/
theorem Token.outline_of_laid {loose : Bool} {lexemes : List Lexeme} {t : Text}
    (h : Lexeme.Laid loose none lexemes t) :
    Token.outline (Token.scan t) = lexemes.filterMap Lexeme.reading := by
  rw [Token.outline_scan, Lexeme.split, Lexeme.readings_of_laid h (by simp)]
  rfl

end TemplateFormat.Markup
