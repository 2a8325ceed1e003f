import TemplateFormat.Proofs.Rereading

/-!
# The edges of a layout

A layout starts and ends in glyphs that are not blank, whatever its source is: also a
piece that lacks its end, and so runs on to the end of the source, is written with its
last glyph.  Only the newline behind the layout of a document comes from the edges of the
source, and blanks around the source change nothing else.

* `Tag.trimmed_normalize` — the normal form of a tag, which need not end;
* `crisp_scan` — the tokens of a trimmed source are written trimmed;
* `trimmed_print_ofSource`, `head?_layout` — a layout is trimmed;
* `endsWith_unifyLineEnds`, `trim_unifyLineEnds` — what unifying line ends keeps of the
  edges of a source.
-/

namespace TemplateFormat

open Text

/-! ## Blanks around a text -/

namespace Text

/-- A text that is not blank holds a glyph that is not blank. -/
theorem strip_ne_nil {s : Text} (h : s.isBlank = false) : strip s ≠ [] := by
  intro hnil
  rw [strip_eq_nil_iff] at hnil
  exact absurd (List.all_eq_true.mpr hnil) (by simpa [Text.isBlank] using h)

/-- Blanks before a text are trimmed off. -/
theorem trim_blank_append {w : Text} (hw : ∀ r ∈ w, r.isBlank = true) (s : Text) :
    trim (w ++ s) = trim s := by
  rw [trim, trim, trimStart, trimStart, List.dropWhile_append_of_pos hw]

/-- Blanks behind a text are trimmed off. -/
theorem trim_append_blank {w : Text} (hw : ∀ r ∈ w, r.isBlank = true) (s : Text) :
    trim (s ++ w) = trim s := by
  obtain ⟨a, b, hs, ha, hb⟩ := trim_spec s
  have hblank : ∀ r ∈ b ++ w, r.isBlank = true := by simpa [or_imp, forall_and] using ⟨hb, hw⟩
  have hsplit : s ++ w = a ++ (trim s ++ (b ++ w)) :=
    (congrArg (· ++ w) hs).trans (by simp only [List.append_assoc])
  rw [hsplit, trim_blank_append ha, (trimmed_trim s).trim_append hblank]

end Text

namespace Markup

/-! ## Tags that need not end -/

/-- Squeezing keeps a last glyph that is not blank. -/
theorem Tag.getLast?_squeeze (prev : Option Glyph) (q : Quote) (gap : Bool) {s : Text}
    (hlast : ∀ r ∈ s.getLast?, r.isBlank = false) :
    (Tag.squeeze prev q gap s).getLast? = s.getLast? := by
  induction s generalizing prev q gap with
  | nil => rfl
  | cons r s ih =>
      have hlater : ∀ a ∈ s.getLast?, a.isBlank = false := by
        intro a ha
        exact hlast a (by rw [List.getLast?_cons, ha]; rfl)
      rw [Tag.squeeze]
      split
      · next hspace =>
          -- a space is not the last glyph
          cases s with
          | nil =>
              have hblank := Glyph.isBlank_of_isSpace (Bool.and_eq_true_iff.mp hspace).2
              exact absurd hblank (by simp [hlast r rfl])
          | cons a s => rw [ih _ _ _ hlater, List.getLast?_cons_cons]
      · split
        · rw [List.getLast?_cons_cons, List.getLast?_cons, ih _ _ _ hlater, List.getLast?_cons]
        · rw [List.getLast?_cons, ih _ _ _ hlater, List.getLast?_cons]

/-- The normal form of a trimmed tag is trimmed, also if the tag does not end. -/
theorem Tag.trimmed_normalize {s : Text} (h : Trimmed (.char '<' :: s)) :
    Trimmed (Tag.normalize (.char '<' :: s)) := by
  have hsqueeze : Tag.squeeze none .outside false (.char '<' :: s) =
      .char '<' :: Tag.squeeze (some (.char '<')) .outside false s := rfl
  have hlast := Tag.getLast?_squeeze none .outside false h.last
  rw [Tag.normalize]
  by_cases hspace : (Tag.squeeze none .outside false (.char '<' :: s)).endsWith (text " >") = true
  · -- the tag ends in a `>` behind a space, which is dropped
    obtain ⟨body, hbody⟩ := List.isSuffixOf_iff_suffix.mp hspace
    have hclose : Tag.closeUp (body ++ text " >") = body ++ [.char '>'] := Tag.closeUp_spaced body
    rw [← hbody, hclose]
    rw [hsqueeze] at hbody
    refine ⟨fun r hr => ?_, fun r hr => ?_⟩
    · cases body with
      | nil => cases hbody
      | cons first body =>
          obtain ⟨rfl, -⟩ := List.cons.inj hbody
          cases hr
          rfl
    · obtain rfl : .char '>' = r := by simpa using hr
      rfl
  · rw [Tag.closeUp, if_neg hspace]
    refine ⟨fun r hr => ?_, fun r hr => h.last r (by rwa [hlast] at hr)⟩
    rw [hsqueeze] at hr
    cases hr
    rfl

/-! ## Tokens -/

open Layout Lexeme

/-- A running piece is written trimmed if it does not end in a blank. -/
theorem Lexeme.trimmed_of_running {kind : Kind} {raw : Text} {tok : Token}
    (h : Running kind raw) (hlast : ∀ r ∈ raw.getLast?, r.isBlank = false)
    (hread : reading ⟨kind, raw⟩ = some (tok.kind, tok.literal)) :
    Trimmed (renderInline tok) ∧ renderInline tok ≠ [] := by
  by_cases htag : kind = .tag
  · subst htag
    have htrim : Trimmed raw := ⟨h.head, hlast⟩
    cases h with
    | @tag s hopen h =>
        obtain ⟨hkind, hliteral⟩ : tagKind (Tag.normalize (.char '<' :: s)) = tok.kind ∧
            Tag.normalize (.char '<' :: s) = tok.literal := by simpa [reading] using hread
        have hrender : renderInline tok = Tag.normalize (.char '<' :: s) := by
          rw [tagKind] at hkind
          simp [renderInline, ← hkind, hliteral]
        have hink : strip (Tag.normalize (.char '<' :: s)) ≠ [] := by
          rw [Tag.strip_normalize, strip_cons_of_ink s rfl]
          exact List.cons_ne_nil _ _
        rw [hrender]
        exact ⟨Tag.trimmed_normalize htrim, fun hnil => hink (by rw [hnil]; rfl)⟩
  · obtain ⟨-, hrunning, htrim, -⟩ := form_of_running h htag hlast hread
    obtain ⟨r, s, hraw, -⟩ := hrunning.marked? none
    exact ⟨htrim, fun hnil => List.cons_ne_nil r s (hraw.symm.trans hnil)⟩

/-- The tokens of sound pieces are written trimmed if the last piece does not end in a
blank. -/
theorem Lexeme.crisp_ofLexemes {lexemes : List Lexeme} (hsound : Sound lexemes)
    (hlast : ∀ r ∈ (lexemes.flatMap raw).getLast?, r.isBlank = false) (pos : Nat)
    (prev : Option Glyph) : Printer.Crisp (Token.ofLexemes pos prev lexemes) := by
  have hlater : ∀ {lexeme : Lexeme} {rest : List Lexeme},
      (∀ r ∈ ((lexeme :: rest).flatMap raw).getLast?, r.isBlank = false) →
        ∀ r ∈ (rest.flatMap raw).getLast?, r.isBlank = false := by
    intro lexeme rest h r hr
    refine h r ?_
    rw [List.flatMap_cons, List.getLast?_append, hr]
    rfl
  induction hsound generalizing pos prev with
  | nil => simp [Token.ofLexemes, Printer.Crisp]
  | @text s rest hs hnext tail ih =>
      have hrest := ih (hlater hlast) (pos + s.width) s.getLast?
      cases hread : reading ⟨.text, s⟩ with
      | none => rwa [ofLexemes_of_none hread]
      | some read =>
          obtain ⟨tok, htok, htokens⟩ := ofLexemes_of_reading hread pos prev rest
          obtain ⟨hform, hne, -⟩ := form_of_text htok
          have hrender : renderInline tok = s.collapse := congrArg Lexeme.raw hform
          rw [htokens]
          refine List.forall_mem_cons.mpr ⟨?_, hrest⟩
          rw [hrender]
          exact ⟨trimmed_collapse s, hne⟩
  | @closed kind raw rest h tail ih =>
      obtain ⟨_, _, hread⟩ := @reading_isSome ⟨kind, raw⟩ h.kind_ne_text
      obtain ⟨tok, htok, htokens⟩ := ofLexemes_of_reading hread pos prev rest
      obtain ⟨-, hclosed, -⟩ := form_of_closed h htok
      rw [htokens]
      exact List.forall_mem_cons.mpr
        ⟨⟨hclosed.trimmed, hclosed.ne_nil⟩, ih (hlater hlast) _ _⟩
  | @running kind raw h =>
      obtain ⟨_, _, hread⟩ := @reading_isSome ⟨kind, raw⟩ h.kind_ne_text
      obtain ⟨tok, htok, htokens⟩ := ofLexemes_of_reading hread pos prev []
      have htrim := trimmed_of_running h (by simpa using hlast) htok
      rw [htokens]
      exact List.forall_mem_cons.mpr ⟨htrim, by simp [Token.ofLexemes]⟩

/-- **The tokens of a trimmed source are written trimmed.** -/
theorem crisp_scan {source : Text} (h : Trimmed source) : Printer.Crisp (Token.scan source) := by
  refine crisp_ofLexemes (sound_split source) ?_ 0 none
  rw [split_raws]
  exact h.last

end Markup

namespace Layout

/-- **A layout starts and ends in glyphs that are not blank.** -/
theorem trimmed_print_ofSource (o : Options) (source : Text) :
    Trimmed (Printer.ofSource o source.trim).print :=
  Printer.trimmed_print _ (Markup.crisp_scan (trimmed_trim source))

/-- The layout of a source that is not blank is not empty. -/
theorem print_ne_nil (o : Options) {source : Text} (h : source.isBlank = false) :
    (Printer.ofSource o (unifyLineEnds source).trim).print ≠ [] := by
  intro hnil
  have hprint := (Printer.ofSource o (unifyLineEnds source).trim).strip_print
  rw [hnil, Printer.ofSource, Markup.Token.ink_scan, strip_trim, strip_unifyLineEnds] at hprint
  exact strip_ne_nil h hprint.symm

/-- **A document starts in a glyph that is not blank** once it is laid out. -/
theorem head?_layout (o : Options) {source : Text} (h : source.isBlank = false) :
    ∀ r ∈ (layout o source).head?, r.isBlank = false := by
  intro r hr
  apply (trimmed_print_ofSource o (unifyLineEnds source)).head r
  obtain ⟨first, rest, hprint⟩ := List.exists_cons_of_ne_nil (print_ne_nil o h)
  rw [layout, hprint] at hr
  rw [hprint]
  split at hr <;> exact hr

/-! ## Line ends at the edges of a source -/

/-- Line ends are unified behind what is written already. -/
theorem unifyFrom_eq (afterReturn : Bool) (seen s : Text) :
    unifyFrom afterReturn seen s = seen.reverse ++ unifyFrom afterReturn [] s := by
  induction s generalizing afterReturn seen with
  | nil => simp [unifyFrom]
  | cons r s ih =>
      rw [unifyFrom, unifyFrom]
      split
      · rw [ih, ih true [.char '\n']]
        simp
      · split
        · rw [ih, ih false []]
        · rw [ih, ih false [r]]
          simp

/-- Line ends are unified from the front. -/
theorem unifyFrom_append (afterReturn : Bool) (s t : Text) :
    ∃ behind, unifyFrom afterReturn [] (s ++ t) =
      unifyFrom afterReturn [] s ++ unifyFrom behind [] t := by
  induction s generalizing afterReturn with
  | nil => exact ⟨afterReturn, rfl⟩
  | cons r s ih =>
      rw [List.cons_append, unifyFrom, unifyFrom]
      split
      · obtain ⟨behind, hbehind⟩ := ih true
        exact ⟨behind, by rw [unifyFrom_eq, hbehind, unifyFrom_eq _ [_] s, List.append_assoc]⟩
      · split
        · exact ih false
        · obtain ⟨behind, hbehind⟩ := ih false
          exact ⟨behind, by rw [unifyFrom_eq, hbehind, unifyFrom_eq _ [_] s, List.append_assoc]⟩

/-- A carriage return before a source takes at most a newline off it. -/
theorem trim_unifyFrom (afterReturn : Bool) (s : Text) :
    (unifyFrom afterReturn [] s).trim = (unifyLineEnds s).trim := by
  cases afterReturn with
  | false => rfl
  | true =>
      cases s with
      | nil => rfl
      | cons r s =>
          rw [unifyLineEnds, unifyFrom, unifyFrom]
          by_cases hnewline : r = .char '\n'
          · subst hnewline
            have hother : (Glyph.char '\n' = Glyph.char '\r') = False := by decide
            simp only [hother, if_false, Bool.and_true, decide_true, if_true, Bool.and_false,
              Bool.false_eq_true]
            rw [unifyFrom_eq _ [_] s]
            exact (trim_blank_append (by simp) _).symm
          · simp [hnewline]

/-- Unifying line ends keeps blanks blank. -/
theorem blank_unifyFrom (afterReturn : Bool) {s : Text} (hs : ∀ r ∈ s, r.isBlank = true) :
    ∀ r ∈ unifyFrom afterReturn [] s, r.isBlank = true := by
  rw [← strip_eq_nil_iff, strip_unifyFrom, strip_eq_nil_of_blank hs]
  rfl

/-- **Blanks around a source** do not change what lies between them. -/
theorem trim_unifyLineEnds {a b : Text} (ha : ∀ r ∈ a, r.isBlank = true)
    (hb : ∀ r ∈ b, r.isBlank = true) (s : Text) :
    (unifyLineEnds (a ++ s ++ b)).trim = (unifyLineEnds s).trim := by
  obtain ⟨front, hfront⟩ := unifyFrom_append false a (s ++ b)
  obtain ⟨back, hback⟩ := unifyFrom_append front s b
  rw [unifyLineEnds, List.append_assoc, hfront, hback,
    trim_blank_append (blank_unifyFrom false ha), trim_append_blank (blank_unifyFrom back hb),
    trim_unifyFrom]

/-- The last glyph once line ends are unified, behind what is written already. -/
theorem getLast?_unifyFrom (afterReturn : Bool) {seen : Text}
    (hseen : afterReturn = true → seen.head? = some (.char '\n')) (s : Text) :
    (unifyFrom afterReturn seen s).getLast? = some (.char '\n') ↔
      (s = [] ∧ seen.head? = some (.char '\n')) ∨
        s.getLast? = some (.char '\r') ∨ s.getLast? = some (.char '\n') := by
  induction s generalizing afterReturn seen with
  | nil => simp [unifyFrom]
  | cons r s ih =>
      have hlast : s ≠ [] → (r :: s).getLast? = s.getLast? := by
        intro hs
        obtain ⟨a, t, rfl⟩ := List.exists_cons_of_ne_nil hs
        exact List.getLast?_cons_cons
      rw [unifyFrom]
      split
      · next hreturn =>
          rw [ih true (fun _ => rfl)]
          by_cases hs : s = []
          · simp [hs, hreturn]
          · simp [hs, hlast hs]
      · next hreturn =>
          split
          · next hnewline =>
              simp only [Bool.and_eq_true, decide_eq_true_eq] at hnewline
              rw [ih false (by simp)]
              by_cases hs : s = []
              · simp [hs, hnewline.1, hseen hnewline.2]
              · simp [hs, hlast hs]
          · rw [ih false (by simp)]
            by_cases hs : s = []
            · simp [hs, hreturn]
            · simp [hs, hlast hs]

/-- **A source ends in a newline**, once its line ends are unified, if it ends in a
carriage return or a newline. -/
theorem endsWith_unifyLineEnds (s : Text) :
    (unifyLineEnds s).endsWith [.char '\n'] = true ↔
      s.getLast? = some (.char '\r') ∨ s.getLast? = some (.char '\n') := by
  have hsuffix : (unifyLineEnds s).endsWith [.char '\n'] = true ↔
      (unifyLineEnds s).getLast? = some (.char '\n') := by
    rw [List.getLast?_eq_some_iff]
    refine List.isSuffixOf_iff_suffix.trans ⟨?_, ?_⟩
    · rintro ⟨t, ht⟩
      exact ⟨t, ht.symm⟩
    · rintro ⟨t, ht⟩
      exact ⟨t, ht.symm⟩
  rw [hsuffix, unifyLineEnds, getLast?_unifyFrom false (by simp)]
  simp

end Layout

end TemplateFormat
