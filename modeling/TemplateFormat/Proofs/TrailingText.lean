import TemplateFormat.Proofs.Balance
import TemplateFormat.Proofs.Rows
import TemplateFormat.Proofs.SecondPass
import TemplateFormat.Proofs.Spans

/-!
# Text that trails a start tag

Whether a text trails a start tag is told by the tokens before it, but it is added to the line
that was written last.  The two belong together: between the tag and the text stand texts and
interpolations only, and a merge ends in a closing tag, so no merge took the tag or anything
behind it.  Each of these tokens has a step of its own, then, and since no two texts are
neighbours the last of them has written the last line.

* `exists_step_before` — a step starts where another one ended;
* `exists_alone_before` — the step before it wrote its token alone, unless a closing tag stands
  before it;
* `exists_tag_before` — the step of the start tag that a step stands behind;
* `trailing_joins` — the line that trailing text is added to.
-/

namespace TemplateFormat.Layout

open Text Markup

namespace Printer

/-! ## The step before a step -/

section Places

variable {p : Printer} {st : State} {before tokens : List Token} {index skip : Nat} {s : Step}

/-- Steps are numbered by the tokens before them. -/
theorem index_eq (h : s ∈ p.stepsFrom index skip st before tokens) :
    s.index + before.length = index + s.before.length := by
  induction tokens generalizing index skip st before with
  | nil => cases skip <;> cases h
  | cons tok after ih =>
      have hlater : ∀ {skip : Nat} {st : State},
          s ∈ p.stepsFrom (index + 1) skip st (tok :: before) after →
            s.index + before.length = index + s.before.length := by
        intro skip st h
        have hlen := ih h
        rw [List.length_cons] at hlen
        omega
      cases skip with
      | succ skip => exact hlater h
      | zero =>
          rw [stepsFrom_cons] at h
          rcases List.mem_cons.mp h with rfl | h
          · rfl
          · exact hlater h

/-- A run takes its first step behind the tokens that are already taken. -/
theorem le_index (h : s ∈ p.stepsFrom index skip st before tokens) :
    index + skip ≤ s.index := by
  induction tokens generalizing index skip st before with
  | nil => cases skip <;> cases h
  | cons tok after ih =>
      cases skip with
      | succ skip =>
          have hle := ih h
          omega
      | zero =>
          rw [stepsFrom_cons] at h
          rcases List.mem_cons.mp h with rfl | h
          · exact Nat.le_refl _
          · have hle := ih h
            omega

/-- **Steps take tokens of their own**: a step stands behind what the steps before it took. -/
theorem pairwise_stepsFrom (p : Printer) (index skip : Nat) (st : State)
    (before tokens : List Token) :
    (p.stepsFrom index skip st before tokens).Pairwise
      fun u t => u.index + p.absorbed u < t.index := by
  induction tokens generalizing index skip st before with
  | nil => cases skip <;> exact .nil
  | cons tok after ih =>
      cases skip with
      | succ skip => exact ih _ _ _ _
      | zero =>
          rw [stepsFrom_cons]
          refine .cons (fun t ht => ?_) (ih _ _ _ _)
          have hle := le_index ht
          simp only [absorbed]
          omega

/-- **A step starts where another one ended**, behind the tokens that this one took, unless it
is the first of the run. -/
theorem exists_step_before (h : s ∈ p.stepsFrom index skip st before tokens) :
    (s.before = (tokens.take skip).reverse ++ before ∧ s.start = st) ∨
      ∃ t ∈ p.stepsFrom index skip st before tokens, t.finish = s.start ∧
        s.before = (t.after.take (p.absorbed t)).reverse ++ t.token :: t.before := by
  induction tokens generalizing index skip st before with
  | nil => cases skip <;> cases h
  | cons tok after ih =>
      cases skip with
      | succ skip => simpa [stepsFrom] using ih h
      | zero =>
          rw [stepsFrom_cons] at h ⊢
          rcases List.mem_cons.mp h with rfl | h
          · exact .inl ⟨rfl, rfl⟩
          · right
            rcases ih h with ⟨hbefore, hstart⟩ | ⟨t, ht, hfinish, hbefore⟩
            · exact ⟨_, List.mem_cons_self, hstart.symm, hbefore⟩
            · exact ⟨t, List.mem_cons_of_mem _ ht, hfinish, hbefore⟩

end Places

variable {p : Printer} {s : Step}

/-- No token is taken by two steps. -/
theorem apart_of_ne {t u : Step} (ht : t ∈ p.steps) (hu : u ∈ p.steps) (hne : u ≠ t) :
    u.index + p.absorbed u < t.index ∨ t.index < u.index := by
  have hpairs := List.pairwise_iff_getElem.mp (p.pairwise_stepsFrom 0 0 {} [] p.tokens)
  obtain ⟨i, hi, rfl⟩ := List.getElem_of_mem hu
  obtain ⟨j, hj, rfl⟩ := List.getElem_of_mem ht
  rcases Nat.lt_trichotomy i j with hlt | rfl | hlt
  · exact .inl (hpairs i j hi hj hlt)
  · exact absurd rfl hne
  · have hlater := hpairs j i hj hi hlt
    exact .inr (Nat.lt_of_le_of_lt (Nat.le_add_right _ _) hlater)

/-- **The step before** a step wrote its token and nothing else, unless a closing tag stands
before the step. -/
theorem exists_alone_before (hs : s ∈ p.steps) {prev : Token} {earlier : List Token}
    (hbefore : s.before = prev :: earlier) (hprev : prev.isClosingTag = false) :
    ∃ t ∈ p.steps, t.token = prev ∧ t.before = earlier ∧ p.absorbed t = 0 ∧
      t.finish = s.start ∧ ∃ memo, s.start = p.alone { t.start with memo } earlier prev := by
  rcases exists_step_before hs with ⟨hfirst, -⟩ | ⟨t, ht, hfinish, htaken⟩
  · rw [hbefore] at hfirst
    cases hfirst
  · rw [hbefore] at htaken
    cases hmerge : p.merge? t.start.memo t.token t.after with
    | some merged =>
        -- the last token of a merge is a closing tag
        obtain ⟨memo, hstep⟩ := step_of_merge?_some t.before hmerge
        obtain ⟨closing, hhead, hclosing⟩ :=
          head_before_merged (merges_of_merge? hmerge).2 t.before
        rw [absorbed, hstep] at htaken
        rw [← htaken, List.head?_cons, Option.some.injEq] at hhead
        rw [hhead, hclosing] at hprev
        cases hprev
    | none =>
        obtain ⟨memo, hstep⟩ := step_of_merge?_none t.before hmerge
        have habsorbed : p.absorbed t = 0 := by rw [absorbed, hstep]
        rw [habsorbed] at htaken
        obtain ⟨rfl, rfl⟩ := List.cons.inj htaken
        have hend := (mem_stepsFrom ht).2.1
        rw [hstep] at hend
        exact ⟨t, ht, rfl, rfl, habsorbed, hfinish, memo, by rw [← hfinish, ← hend]⟩

/-- Text and interpolations are no closing tags. -/
theorem isClosingTag_of_isContent {tok : Token} (h : tok.isContent = true) :
    tok.isClosingTag = false := by
  cases hkind : tok.kind <;> simp_all [Token.isContent, Token.isClosingTag]

/-- Content that is no text is an interpolation. -/
theorem interpolation_of_content {tok : Token} (htext : tok.kind ≠ .text)
    (h : tok.isContent = true) : tok.kind = .interpolation := by
  cases hkind : tok.kind <;> simp_all [Token.isContent]

/-- **The step of the tag** that a step stands behind, with nothing but text and interpolations
between the two, wrote the tag and nothing else. -/
theorem exists_tag_before (hs : s ∈ p.steps) {tag : Token} {content earlier : List Token}
    (hbefore : s.before = content ++ tag :: earlier)
    (hcontent : ∀ tok ∈ content, tok.isContent = true) (htag : tag.isClosingTag = false) :
    ∃ t ∈ p.steps, t.token = tag ∧ t.before = earlier ∧ p.absorbed t = 0 ∧
      ∃ memo, t.finish = p.alone { t.start with memo } earlier tag := by
  induction content generalizing s with
  | nil =>
      obtain ⟨t, ht, htoken, hearlier, halone, hfinish, memo, hstart⟩ :=
        exists_alone_before hs hbefore htag
      exact ⟨t, ht, htoken, hearlier, halone, memo, by rw [hfinish, hstart]⟩
  | cons prev content ih =>
      obtain ⟨hprev, hrest⟩ := List.forall_mem_cons.mp hcontent
      obtain ⟨u, hu, -, hbefore', -⟩ :=
        exists_alone_before hs hbefore (isClosingTag_of_isContent hprev)
      exact ih hu hbefore' hrest

/-! ## The line of trailing text -/

/-- Behind the tag that a text trails stand texts and interpolations only. -/
theorem exists_tag_of_trails {before : List Token} (h : trails before = true) :
    ∃ content tag earlier, before = content ++ tag :: earlier ∧
      (∀ tok ∈ content, tok.isContent = true) ∧ tag.isStartTag = true ∧
      tag.isChildless = false ∧ inlineEligible tag.name = true := by
  cases hdrop : before.dropWhile Token.isContent with
  | nil => simp [trails, hdrop] at h
  | cons tag earlier =>
      refine ⟨before.takeWhile Token.isContent, tag, earlier, ?_, ?_, ?_⟩
      · rw [← hdrop, List.takeWhile_append_dropWhile]
      · exact fun tok htok => List.all_eq_true.mp List.all_takeWhile tok htok
      · simpa [trails, hdrop, and_assoc] using h

/-- A start tag closes nothing. -/
theorem closes_of_isStartTag {tag : Token} (h : tag.isStartTag = true) :
    tag.isClosingTag = false ∧ tag.closesBlock = false := by
  obtain ⟨name, closing, selfClosing, hkind⟩ := kind_of_isStartTag h
  simp only [Token.isStartTag, hkind, Bool.and_eq_true, Bool.not_eq_true'] at h
  simp [Token.isClosingTag, Token.closesBlock, hkind, h.1]

/-- A start tag is written as it stands, at the depth of the step. -/
theorem lines_alone_startTag {tag : Token} (h : tag.isStartTag = true) (st : State)
    (earlier : List Token) :
    (p.alone st earlier tag).lines = (p.indentation st.depth ++ tag.literal) :: st.lines := by
  obtain ⟨name, closing, selfClosing, hkind⟩ := kind_of_isStartTag h
  rw [lines_alone (by simp [hkind]), renderInline_of_tag (isTag_of_isStartTag h), lineDepth,
    (closes_of_isStartTag h).2, Bool.and_false, if_neg Bool.false_ne_true]
  rfl

/-- **The line before a step** is that of the token before it, if this is neither a closing tag
nor text. -/
theorem line_before (hs : s ∈ p.steps) {prev : Token} {earlier : List Token}
    (hbefore : s.before = prev :: earlier) (hprev : prev.isClosingTag = false)
    (htext : prev.kind ≠ .text) :
    ∃ depth lines, s.start.lines = (p.indentation depth ++ renderInline prev) :: lines := by
  obtain ⟨t, -, -, -, -, -, memo, hstart⟩ := exists_alone_before hs hbefore hprev
  rw [hstart, lines_alone fun hboth => htext hboth.1]
  exact ⟨_, _, rfl⟩

/-- A step at trailing text changes the last line only. -/
theorem finish_of_trailing (hs : s ∈ p.steps) (hkind : s.token.kind = .text)
    (htrailing : p.isTrailing s.start s.before = true) {last : Text} {lines : List Text}
    (hlines : s.start.lines = last :: lines) :
    s.finish.lines = (last ++ trailingText s.before s.token) :: lines ∧
      s.finish.depth = s.start.depth := by
  have hmerge : p.merge? s.start.memo s.token s.after = none := by
    simp [merge?, Token.isStartTag, hkind]
  obtain ⟨memo, hstep⟩ := step_of_merge?_none s.before hmerge
  have hfinish : s.finish = p.alone { s.start with memo } s.before s.token := by
    rw [← (mem_stepsFrom hs).2.1, hstep]
  have hcontent : s.token.isContent = true := by simp [Token.isContent, hkind]
  rw [hfinish]
  exact ⟨lines_alone_trailing hkind htrailing hlines, (p.alone_content _ _ hcontent).1⟩

/-- Of the tokens of a source, the one before a text is no text. -/
theorem not_text_before {o : Options} {source : Text} (hs : s ∈ (ofSource o source).steps)
    (hkind : s.token.kind = .text) {prev : Token} {earlier : List Token}
    (hbefore : s.before = prev :: earlier) : prev.kind ≠ .text := by
  obtain ⟨hplace, -⟩ := mem_stepsFrom hs
  have htokens : Token.scan source = earlier.reverse ++ prev :: s.token :: s.after := by
    have hscan : (ofSource o source).tokens = Token.scan source := rfl
    rw [hbefore] at hplace
    simpa [hscan] using hplace.symm
  have hspans := Token.spans_scan source
  rw [htokens] at hspans
  exact fun htext => hspans.not_texts ⟨htext, hkind⟩

/-- The text of the step `s` trails the start tag of the step `t`, and is added to the line of
the token before it. -/
structure JoinsLine (p : Printer) (s t : Step) : Prop where
  /-- The tag starts an element with children that may stand on one line. -/
  tag : t.token.isStartTag = true ∧ t.token.isChildless = false ∧
    inlineEligible t.token.name = true
  /-- Between the tag and the text stand texts and interpolations only. -/
  between : ∃ content, s.before = content ++ t.token :: t.before ∧
    ∀ tok ∈ content, tok.isContent = true
  /-- The tag was written on a line of its own, without other tokens. -/
  alone : p.absorbed t = 0 ∧
    t.finish.lines = (p.indentation t.start.depth ++ t.token.literal) :: t.start.lines
  /-- No other step took the tag. -/
  apart : ∀ u ∈ p.steps, u ≠ t → u.index + p.absorbed u < t.index ∨ t.index < u.index
  /-- The token before the text is the tag or an interpolation.  The last line holds this token
  behind indentation; the text is added to it, and all else stays as it is. -/
  joined : ∃ prev ∈ s.before.head?, (prev = t.token ∨ prev.kind = .interpolation) ∧
    ∃ depth lines, s.start.lines = (p.indentation depth ++ renderInline prev) :: lines ∧
      s.finish.lines = (p.indentation depth ++ renderInline prev ++
        trailingText s.before s.token) :: lines ∧
      s.finish.depth = s.start.depth

/-- **Trailing text lands on the line of the token before it.**  A step whose text trails a
start tag is not the first one.  The tag had a step of its own, which put it on a line of its
own, and no merge took it.  The text is added to the line of the token before it, which is
that tag or an interpolation behind it. -/
theorem trailing_joins (o : Options) (source : Text) {s : Step}
    (hs : s ∈ (ofSource o source).steps) (hkind : s.token.kind = .text)
    (htrailing : (ofSource o source).isTrailing s.start s.before = true) :
    s.index = s.before.length ∧ 0 < s.index ∧
      ∃ t ∈ (ofSource o source).steps, (ofSource o source).JoinsLine s t := by
  have htrails : trails s.before = true := by
    rw [isTrailing_eq, Bool.and_eq_true] at htrailing
    exact htrailing.2
  obtain ⟨content, tag, earlier, hbefore, hcontent, hstart, hchildren, heligible⟩ :=
    exists_tag_of_trails htrails
  obtain ⟨htag, -⟩ := closes_of_isStartTag hstart
  obtain ⟨t, ht, rfl, rfl, halone, memo, hfinish⟩ := exists_tag_before hs hbefore hcontent htag
  have hline : t.finish.lines =
      ((ofSource o source).indentation t.start.depth ++ t.token.literal) :: t.start.lines := by
    rw [hfinish, lines_alone_startTag hstart]
  -- the token before the text is the tag, or content that is no text
  obtain ⟨prev, rest, hprev⟩ : ∃ prev rest, s.before = prev :: rest :=
    List.exists_cons_of_ne_nil (by simp [hbefore])
  have htext := not_text_before hs hkind hprev
  have hcase : prev = t.token ∨ prev.isContent = true := by
    rw [hprev] at hbefore
    cases content with
    | nil => exact .inl (List.cons.inj hbefore).1
    | cons first more =>
        obtain rfl : prev = first := (List.cons.inj hbefore).1
        exact .inr (hcontent prev List.mem_cons_self)
  have hopen : prev.isClosingTag = false := by
    rcases hcase with rfl | hcontent
    · exact htag
    · exact isClosingTag_of_isContent hcontent
  obtain ⟨depth, lines, hlines⟩ := line_before hs hprev hopen htext
  have hindex : s.index = s.before.length := by simpa using index_eq hs
  refine ⟨hindex, by simp [hindex, hprev], t, ht, ?_⟩
  exact
    { tag := ⟨hstart, hchildren, heligible⟩
      between := ⟨content, hbefore, hcontent⟩
      alone := ⟨halone, hline⟩
      apart := fun u hu => apart_of_ne ht hu
      joined := ⟨prev, by simp [hprev], hcase.imp_right (interpolation_of_content htext),
        depth, lines, hlines, finish_of_trailing hs hkind htrailing hlines⟩ }

/-- A text behind an interpolation and a line end, in a paragraph that starts with text and
stands behind a merged element. -/
theorem trailing_joins_paragraph :
    let p := ofSource { threshold := 10 }
      (text "<b>x</b><p>a \x7b\x7bx|y\x7d\x7d\nb<br></p>")
    ∃ s ∈ p.steps, s.token.kind = .text ∧ p.isTrailing s.start s.before = true ∧
      0 < s.index ∧ ∃ t ∈ p.steps, p.JoinsLine s t := by
  intro p
  let s := p.steps.get ⟨4, by decide +kernel⟩
  have hs : s ∈ p.steps := List.get_mem _ _
  have hkind : s.token.kind = .text := by decide +kernel
  have htrailing : p.isTrailing s.start s.before = true := by decide +kernel
  obtain ⟨-, hjoins⟩ := trailing_joins _ _ hs hkind htrailing
  exact ⟨s, hs, hkind, htrailing, hjoins⟩

end Printer

end TemplateFormat.Layout
