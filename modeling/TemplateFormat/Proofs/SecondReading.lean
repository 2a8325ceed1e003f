import TemplateFormat.Proofs.Rereading

/-!
# The tokens of a layout

A second pass reads what the first has written.  Without interpolations its tokens
are those of the first pass one by one: each token that was written alone is read
as the same token, and the tokens of a merged element are read as tokens of the
same kinds with the same glyphs.

* `terminated_of_laid`, `readable_print` — the tags of a layout all end, so that
  its tokens are readable again;
* `bare_of_laid` — the tokens read off a layout are bare the same as its pieces;
* `Aligned` — how the tokens of a second pass stand to the steps of the first;
* `aligned_print` — the tokens of a layout are aligned to its steps.
-/

namespace TemplateFormat.Markup

open Text Layout

/-- The normal form of a tag starts like a closing tag if the tag does. -/
theorem Tag.closing_normalize {raw : Text} (h : Lexeme.Closed .tag raw) :
    (text "</").isPrefixOf (Tag.normalize raw) = (text "</").isPrefixOf raw := by
  cases h with
  | tag hopen h =>
      obtain ⟨body, rfl⟩ := Lexeme.last_of_endsTag h
      have hclosing : text "</" = [.char '<', .char '/'] := rfl
      rw [Tag.normalize_of_ends h, Bool.eq_iff_iff, List.isPrefixOf_iff_prefix,
        List.isPrefixOf_iff_prefix, hclosing, List.cons_prefix_cons,
        List.cons_prefix_cons]
      refine and_congr_right fun _ => ⟨fun hlead => ?_, fun hlead => ?_⟩
      · have hbody :=
          Lexeme.prefix_of_prefix_append (c := [.char '>']) (by decide) hlead
        exact (Tag.prefix_of_prefix_squeeze (by decide) hbody).trans
          (List.prefix_append body _)
      · cases body with
        | nil => simp at hlead
        | cons r body =>
            obtain ⟨rfl, -⟩ := List.cons_prefix_cons.mp hlead
            exact List.cons_prefix_cons.mpr ⟨rfl, List.nil_prefix⟩

namespace Lexeme

/-! ## The pieces of a layout -/

/-- Text collected so far is no marked piece. -/
theorem filter_ofPending (pending : Text) :
    (ofPending pending).filter (fun lexeme => lexeme.kind != .text) = [] := by
  rw [ofPending]
  split <;> simp

/-- The marked pieces of a text are those it is laid out from. -/
theorem marked_of_laid {loose : Bool} {prev : Option Glyph}
    {lexemes : List Lexeme} {t : Text}
    (h : Laid loose prev lexemes t) (pending : Text) :
    (splitFrom 0 prev pending t).filter (fun lexeme => lexeme.kind != .text) =
      lexemes.filter fun lexeme => lexeme.kind != .text := by
  induction h generalizing pending with
  | nil => simp [splitFrom, filter_ofPending]
  | @blank prev w lexemes t hw tail ih =>
      rw [splitFrom_of_plain pending (marked?_blank hw prev t), ih]
  | @text prev s t lexemes hs htrim hne hmeet hnext tail ih =>
      have hlast : s.getLast?.or prev = s.getLast? := by
        obtain ⟨body, last, rfl, -⟩ := htrim.exists_last hne
        simp
      rw [splitFrom_plain hs (fun _ => hmeet), hlast, ih]
      simp
  | @closed prev kind raw t lexemes h hprev tail ih =>
      obtain ⟨r, s, rfl, hmark⟩ := h.marked? hprev t
      rw [List.cons_append, splitFrom_of_marked pending hmark, List.filter_append,
        filter_ofPending,
        List.nil_append, List.filter_cons, List.filter_cons, ih]
  | @running prev kind raw hloose h hkind =>
      obtain ⟨r, s, rfl, hmark⟩ := h.marked? prev
      have hmark' : marked? prev r (s ++ []) = some (kind, s.length + 1) := by
        rw [List.append_nil]
        exact hmark
      have hstep := splitFrom_of_marked pending hmark'
      rw [List.append_nil] at hstep
      rw [hstep, List.filter_append, filter_ofPending]
      simp [splitFrom, ofPending]

/-- The tags that a text is laid out from all end. -/
theorem Laid.terminated {loose : Bool} {prev : Option Glyph}
    {lexemes : List Lexeme} {t : Text}
    (h : Laid loose prev lexemes t) : ∀ lexeme ∈ lexemes, lexeme.isTerminated = true := by
  induction h with
  | nil => simp
  | blank hw tail ih => exact ih
  | text hs htrim hne hmeet hnext tail ih =>
      exact List.forall_mem_cons.mpr ⟨rfl, ih⟩
  | @closed prev kind raw t lexemes h hprev tail ih =>
      refine List.forall_mem_cons.mpr ⟨?_, ih⟩
      cases h with
      | tag hopen h => simpa [isTerminated] using h
      | _ => rfl
  | running hloose h hkind => simp [isTerminated, hkind]

/-- **The tags of a layout** all end. -/
theorem terminated_of_laid {loose : Bool} {lexemes : List Lexeme} {t : Text}
    (h : Laid loose none lexemes t) : ∀ lexeme ∈ split t, lexeme.isTerminated = true := by
  intro lexeme hmem
  by_cases hkind : lexeme.kind = .text
  · simp [isTerminated, hkind]
  · have hmarked : lexeme ∈ (split t).filter fun lexeme => lexeme.kind != .text := by
      simpa [hkind] using hmem
    rw [split, marked_of_laid h []] at hmarked
    exact h.terminated lexeme (List.mem_filter.mp hmarked).1

/-! ## Tokens that are bare the same -/

/-- Only tags start like a closing tag. -/
theorem Closed.not_closing {kind : Kind} {raw : Text} (h : Closed kind raw)
    (hkind : kind ≠ .tag) :
    (TemplateFormat.text "</").isPrefixOf raw = false := by
  cases h with
  | tag => exact absurd rfl hkind
  | _ => rfl

/-- Plain text does not start like a closing tag. -/
theorem Plain.not_closing {s : Text} (h : Plain s) :
    (TemplateFormat.text "</").isPrefixOf s = false := by
  rw [← Bool.not_eq_true, List.isPrefixOf_iff_prefix]
  intro hlead
  have hopen : [.char '<'] <+: s := List.IsPrefix.trans ⟨[.char '/'], rfl⟩ hlead
  exact h [.char '<'] (by decide) hopen.isInfix

/-- What is read off a piece has its glyphs. -/
theorem strip_form {lexeme : Lexeme} {tok : Token}
    (h : lexeme.reading = some (tok.kind, tok.literal)) :
    strip tok.form.raw = strip lexeme.raw := by
  have hstrip := lexeme.strip_reading
  rw [h] at hstrip
  rw [← hstrip]
  exact strip_renderInline tok

/-- A token read off a closed piece is written as a piece that is bare the same. -/
theorem Closed.bare_form {kind : Kind} {raw : Text} {tok : Token}
    (h : Closed kind raw)
    (hread : reading ⟨kind, raw⟩ = some (tok.kind, tok.literal)) :
    bare tok.form = bare ⟨kind, raw⟩ := by
  obtain ⟨hkind, hclosed, -⟩ := form_of_closed h hread
  have hclosing : (TemplateFormat.text "</").isPrefixOf tok.form.raw =
      (TemplateFormat.text "</").isPrefixOf raw := by
    by_cases htag : kind = .tag
    · subst htag
      rw [(form_of_tag h hread).1]
      exact Tag.closing_normalize h
    · rw [hclosed.not_closing htag, h.not_closing htag]
  simp only [bare, hkind, strip_form hread, hclosing]

/-- The same for a text. -/
theorem bare_form_text {s : Text} {tok : Token} (hs : Plain s)
    (hread : reading ⟨.text, s⟩ = some (tok.kind, tok.literal)) :
    bare tok.form = bare ⟨.text, s⟩ := by
  have hstrip := strip_form hread
  obtain ⟨hform, -⟩ := form_of_text hread
  rw [hform] at hstrip ⊢
  simp only [bare, hstrip, (plain_collapse hs).not_closing, hs.not_closing]

/-- **The tokens read off a layout** are written as pieces that are bare the same
as those it is laid out from. -/
theorem bare_of_laid {prev : Option Glyph} {lexemes : List Lexeme} {t : Text}
    (h : Laid false prev lexemes t) {tokens : List Token}
    (hread : Token.outline tokens = lexemes.filterMap reading) :
    (tokens.map Token.form).map bare = lexemes.map bare := by
  have hcons : ∀ {lexeme : Lexeme} {rest : List Lexeme} {tokens : List Token},
      (∃ kind literal, lexeme.reading = some (kind, literal)) →
      Token.outline tokens = (lexeme :: rest).filterMap reading →
      ∃ tok later, tokens = tok :: later ∧
      lexeme.reading = some (tok.kind, tok.literal) ∧
        Token.outline later = rest.filterMap reading := by
    rintro lexeme rest tokens ⟨kind, literal, hsome⟩ hread
    rw [List.filterMap_cons_some hsome] at hread
    obtain ⟨tok, later, rfl, htok, hlater⟩ := List.map_eq_cons_iff.mp hread
    exact ⟨tok, later, rfl, by rw [hsome, ← htok], hlater⟩
  induction h generalizing tokens with
  | nil =>
      obtain rfl : tokens = [] := by simpa [Token.outline] using hread
      rfl
  | blank hw tail ih => exact ih hread
  | @text prev s t lexemes hs htrim hne hmeet hnext tail ih =>
      have hink : s.collapse ≠ [] := by
        obtain ⟨body, last, rfl, hlast⟩ := htrim.exists_last hne
        intro hnil
        have := strip_collapse (body ++ [last])
        rw [hnil, strip_append, strip_cons_of_ink [] hlast] at this
        simp at this
      obtain ⟨tok, later, rfl, htok, hlater⟩ :=
        hcons ⟨.text, s.collapse, by simp [reading, hink]⟩ hread
      rw [List.map_cons, List.map_cons, List.map_cons, ih hlater,
        bare_form_text hs htok]
  | @closed prev kind raw t lexemes h hprev tail ih =>
      obtain ⟨tok, later, rfl, htok, hlater⟩ :=
        hcons (@reading_isSome ⟨kind, raw⟩ h.kind_ne_text) hread
      rw [List.map_cons, List.map_cons, List.map_cons, ih hlater,
        h.bare_form htok]
  | running hloose => cases hloose

end Lexeme

end TemplateFormat.Markup

namespace TemplateFormat.Layout

open Text Markup

namespace Printer

/-! ## The tokens of a second pass -/

/-- **The tokens of a layout** are readable if those it was made from are. -/
theorem readable_print (p : Printer) (h : Token.Readable p.tokens) :
    Token.Readable (Token.scan p.print) := by
  obtain ⟨lexemes, hpieces⟩ := p.laid_print h
  exact Token.readable_scan (p.trimmed_print (crisp_of_readable h))
    (Lexeme.terminated_of_laid hpieces.laid)

/-- **How the tokens of a second pass stand to the steps of the first**: a token
that was written alone is read again, and a merged element is read as pieces that
are bare the same as those of its tokens. -/
inductive Aligned (p : Printer) : List Step → List Token → Prop
  | nil : Aligned p [] []
  | alone {s : Step} {steps : List Step} {tok : Token} {later : List Token}
      (hmerge : p.merged? s = none) (hkind : tok.kind = s.token.kind)
      (hliteral : tok.literal = s.token.literal) (tail : Aligned p steps later) :
      Aligned p (s :: steps) (tok :: later)
  | merged {s : Step} {steps : List Step} {merged : Merged}
      {slice later : List Token}
      (hmerge : p.merged? s = some merged)
      (hbare : (slice.map Token.form).map Lexeme.bare =
        ((p.taken s).map Token.form).map Lexeme.bare)
      (tail : Aligned p steps later) : Aligned p (s :: steps) (slice ++ later)

/-- Tokens that are read as steps are read are aligned to the steps. -/
theorem aligned_of_outline {p : Printer} {steps : List Step}
    (hreadable : ∀ s ∈ steps, Token.Readable (s.token :: s.after))
    (hplain : ∀ s ∈ steps, ∀ tok ∈ s.token :: s.after, tok.kind ≠ .interpolation)
    {tokens : List Token} (h : Token.outline tokens = steps.flatMap p.reread) :
    Aligned p steps tokens := by
  induction steps generalizing tokens with
  | nil =>
      obtain rfl : tokens = [] := by simpa [Token.outline] using h
      exact .nil
  | cons s steps ih =>
      have hlater := @ih (fun s' hs => hreadable s' (List.mem_cons_of_mem s hs))
        (fun s' hs => hplain s' (List.mem_cons_of_mem s hs))
      rw [List.flatMap_cons] at h
      obtain ⟨front, later, rfl, hfront, hback⟩ := List.map_eq_append_iff.mp h
      cases hmerge : p.merged? s with
      | none =>
          rw [reread, hmerge] at hfront
          obtain ⟨tok, rfl, htok⟩ := List.map_eq_singleton_iff.mp hfront
          have hkind := hplain s List.mem_cons_self s.token List.mem_cons_self
          have hrender : renderInline s.token = s.token.literal := by
            rw [renderInline]
            split
            · next h => exact absurd h hkind
            · rfl
          obtain ⟨htok, hliteral⟩ := Prod.mk.inj htok
          exact .alone hmerge htok (hliteral.trans hrender) (hlater hback)
      | some merged =>
          obtain ⟨hstart, hmerges⟩ := merges_of_merge? hmerge
          obtain ⟨lexemes, hlaid, -, -, -, -, hbare⟩ :=
            laid_line hmerges hstart (hreadable s List.mem_cons_self)
          refine .merged hmerge ?_ (hlater hback)
          rw [reread, hmerge] at hfront
          have hread : Token.outline front = lexemes.filterMap Lexeme.reading :=
            hfront.trans (Token.outline_of_laid hlaid)
          rw [Lexeme.bare_of_laid hlaid hread, hbare fun t ht =>
            hplain s List.mem_cons_self t
              (List.mem_cons_of_mem _ (List.mem_of_mem_take ht))]
          simp [taken, hmerge]

/-- Aligned tokens are bare the same as those the steps take. -/
theorem Aligned.bare {p : Printer} {steps : List Step} {tokens : List Token}
    (h : Aligned p steps tokens) : (tokens.map Token.form).map Lexeme.bare =
      ((steps.flatMap p.taken).map Token.form).map Lexeme.bare := by
  induction h with
  | nil => rfl
  | @alone s steps tok later hmerge hkind hliteral tail ih =>
      have hform : tok.form = s.token.form := by
        simp only [Token.form, Token.formKind, renderInline, hkind, hliteral]
      rw [List.flatMap_cons, List.map_cons, List.map_cons, ih, hform]
      simp [taken, hmerge]
  | merged hmerge hbare tail ih =>
      rw [List.flatMap_cons, List.map_append, List.map_append, ih, hbare,
        List.map_append,
        List.map_append]

/-- Tokens that are aligned to a step that writes its token alone. -/
theorem Aligned.of_alone {p : Printer} {st finish : State} {before : List Token}
    {tok : Token}
    {after tokens : List Token} {index : Nat} {run steps : List Step}
    (h : Aligned p run tokens)
    (hrun : run = ⟨index, before, tok, after, st, finish⟩ :: steps)
    (hmerge : p.merge? st.memo tok after = none) :
    ∃ tok' later, tokens = tok' :: later ∧ tok'.kind = tok.kind ∧
      tok'.literal = tok.literal ∧
      Aligned p steps later := by
  subst hrun
  cases h with
  | @alone _ _ tok' later _ hkind hliteral tail =>
      exact ⟨tok', later, rfl, hkind, hliteral, tail⟩
  | merged h => simp [merged?, hmerge] at h

/-- Tokens that are aligned to a step that merges. -/
theorem Aligned.of_merged {p : Printer} {st finish : State} {before : List Token}
    {tok : Token}
    {after tokens : List Token} {index : Nat} {run steps : List Step}
    {merged : Merged}
    (h : Aligned p run tokens)
    (hrun : run = ⟨index, before, tok, after, st, finish⟩ :: steps)
    (hmerge : p.merge? st.memo tok after = some merged) :
    ∃ tok' slice later, tokens = tok' :: (slice ++ later) ∧
      slice.length = merged.absorbed ∧
      Aligned p steps later := by
  obtain ⟨-, hmerges⟩ := merges_of_merge? hmerge
  subst hrun
  cases h with
  | alone h => simp [merged?, hmerge] at h
  | @merged _ _ _ slice later h hbare tail =>
      cases slice with
      | nil => simp [taken] at hbare
      | cons tok' slice =>
          refine ⟨tok', slice, later, rfl, ?_, tail⟩
          have := congrArg List.length hbare
          simpa [taken, merged?, hmerge, hmerges.absorbed_le] using this

/-- **A second pass** over a layout without interpolations reads tokens that are
aligned to the steps of the first. -/
theorem aligned_print (p : Printer) (h : Token.Readable p.tokens)
    (hplain : ∀ tok ∈ p.tokens, tok.kind ≠ .interpolation) :
    Aligned p p.steps (Token.scan p.print) := by
  refine aligned_of_outline (fun s hs => readable_of_mem_steps h hs) ?_
    (p.outline_print h)
  intro s hs tok htok
  exact hplain tok ((p.suffix_of_mem_stepsFrom {} [] p.tokens 0 hs).subset htok)

end Printer

end TemplateFormat.Layout
