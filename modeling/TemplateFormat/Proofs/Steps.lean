import TemplateFormat.Proofs.Content

/-!
# What a step of the printer writes

A step either puts a whole element on one line or writes its token alone.
`Printer.merge?` is that decision, and `Printer.alone` the other branch; what
either does is said in terms of `State.written`, the text of the lines so far,
to which every step only adds.

* `step_eq`, `step_of_merge?_some`, `step_of_merge?_none` — a step in the two cases;
* `foldl_steps`, `finish_steps` — what each step keeps holds at the end, and the last step
  finishes in the final state;
* `run_induct` — induction over a run, by the steps that it takes;
* `merges_of_merge?` — what a merged element is made of;
* `written_writeLine`, `alone_of_trailing`, `alone_of_not_trailing` — what is
  added: white space, and the element or the token;
* `trimmed_print` — a layout starts and ends in glyphs that are not blank.
-/

namespace TemplateFormat.Layout

open Text Markup

/-- The two merges in the order in which they are tried: the second only if the first gives
no line. -/
def firstMerge (o : Options) (ix : SourceIndex) (tok : Token) (after : List Token)
    (memo : SourceIndex.Memo) : Option Merged × SourceIndex.Memo :=
  let content := contentMerge o ix tok after memo
  if content.1.isSome then content else tightMerge o ix tok after content.2

namespace Printer

/-! ## The decision of a step -/

/-- The element that a step at `tok` puts on one line, if it does. -/
def merge? (p : Printer) (memo : SourceIndex.Memo) (tok : Token)
    (after : List Token) :
    Option Merged :=
  if p.options.inlineShort && tok.isStartTag && !tok.isChildless then
    match contentMerge p.options p.index tok after memo with
    | (some merged, _) => some merged
    | (none, memo) => (tightMerge p.options p.index tok after memo).1
  else none

/-- A step that writes its token and nothing else. -/
def alone (p : Printer) (st : State) (before : List Token) (tok : Token) : State :=
  match tok.kind with
  | .interpolation => p.writeLine st (Interpolation.normalize tok.literal)
  | .text => p.stepText st before tok
  | _ => p.stepBlock st tok

/-- A start tag is neither text nor an interpolation. -/
theorem kind_of_isStartTag {tok : Token} (h : tok.isStartTag = true) :
    ∃ name closing selfClosing, tok.kind = .tag name closing selfClosing := by
  rw [Token.isStartTag] at h
  split at h
  · next name closing selfClosing hkind =>
      exact ⟨name, closing, selfClosing, hkind⟩
  · cases h

/-- A step writes the line that its merges give, and else its token. -/
theorem step_eq (p : Printer) (st : State) (before : List Token) (tok : Token)
    (after : List Token) :
    p.step st before tok after =
      if p.options.inlineShort && tok.isStartTag && !tok.isChildless then
        match firstMerge p.options p.index tok after st.memo with
        | (some merged, memo) => (merged.absorbed, p.writeLine { st with memo } merged.line)
        | (none, memo) => (0, p.alone { st with memo } before tok)
      else (0, p.alone st before tok) := by
  by_cases hstart : (p.options.inlineShort && tok.isStartTag && !tok.isChildless) = true
  · obtain ⟨name, closing, selfClosing, hkind⟩ :=
      kind_of_isStartTag (Bool.and_eq_true_iff.mp (Bool.and_eq_true_iff.mp hstart).1).2
    rw [if_pos hstart, firstMerge]
    rcases hcontent : contentMerge p.options p.index tok after st.memo with ⟨_ | merged, memo⟩
    · rcases htight : tightMerge p.options p.index tok after memo with ⟨_ | merged, memo'⟩
      · simp [step, alone, hkind, hstart, hcontent, htight]
      · simp [step, hkind, hstart, hcontent, htight]
    · simp [step, hkind, hstart, hcontent]
  · rw [if_neg hstart]
    cases hkind : tok.kind <;> simp only [step, alone, hkind, if_neg hstart]

/-- What a step merges is what its merges give. -/
theorem merge?_eq (p : Printer) (memo : SourceIndex.Memo) (tok : Token) (after : List Token) :
    p.merge? memo tok after =
      if p.options.inlineShort && tok.isStartTag && !tok.isChildless then
        (firstMerge p.options p.index tok after memo).1
      else none := by
  rw [merge?]
  split
  · rcases hcontent : contentMerge p.options p.index tok after memo with ⟨_ | found, memo'⟩ <;>
      simp [firstMerge, hcontent]
  · rfl

/-- A step that merges writes the merged element. -/
theorem step_of_merge?_some {p : Printer} {st : State} {tok : Token}
    {after : List Token}
    {merged : Merged} (before : List Token)
    (h : p.merge? st.memo tok after = some merged) :
    ∃ memo, p.step st before tok after =
      (merged.absorbed, p.writeLine { st with memo } merged.line) := by
  rw [merge?_eq] at h
  split at h
  · next hstart =>
      rw [step_eq, if_pos hstart]
      rcases hmerge : firstMerge p.options p.index tok after st.memo with ⟨found, memo⟩
      obtain rfl : found = some merged := by rw [hmerge] at h; exact h
      exact ⟨memo, rfl⟩
  · cases h

/-- A step that merges nothing writes its token. -/
theorem step_of_merge?_none {p : Printer} {st : State} {tok : Token}
    {after : List Token}
    (before : List Token) (h : p.merge? st.memo tok after = none) :
    ∃ memo, p.step st before tok after = (0, p.alone { st with memo } before tok) := by
  rw [merge?_eq] at h
  rw [step_eq]
  split at h
  · next hstart =>
      rw [if_pos hstart]
      rcases hmerge : firstMerge p.options p.index tok after st.memo with ⟨found, memo⟩
      obtain rfl : found = none := by rw [hmerge] at h; exact h
      exact ⟨memo, rfl⟩
  · next hstart =>
      rw [if_neg hstart]
      exact ⟨st.memo, rfl⟩

/-- Tokens already taken are passed over. -/
theorem run_skip (p : Printer) (skip : Nat) (st : State)
    (before tokens : List Token) :
    p.run skip st before tokens =
      p.run 0 st ((tokens.take skip).reverse ++ before) (tokens.drop skip) := by
  induction tokens generalizing skip before with
  | nil => cases skip <;> rfl
  | cons tok after ih =>
      cases skip with
      | zero => rfl
      | succ skip => rw [run, ih]; simp

/-- No step is taken at tokens already taken. -/
theorem stepsFrom_skip (p : Printer) (index skip : Nat) (st : State)
    (before tokens : List Token) :
    ∃ later, p.stepsFrom index skip st before tokens =
      p.stepsFrom later 0 st ((tokens.take skip).reverse ++ before) (tokens.drop skip) := by
  induction tokens generalizing index skip before with
  | nil => cases skip <;> exact ⟨index, rfl⟩
  | cons tok after ih =>
      cases skip with
      | zero => exact ⟨index, rfl⟩
      | succ skip =>
          obtain ⟨later, h⟩ := ih (index + 1) skip (tok :: before)
          exact ⟨later, by rw [stepsFrom, h]; simp⟩

/-- A run takes a step at its first token, and goes on from there. -/
theorem stepsFrom_cons (p : Printer) (index : Nat) (st : State) (before : List Token)
    (tok : Token) (after : List Token) :
    p.stepsFrom index 0 st before (tok :: after) =
      ⟨index, before, tok, after, st, (p.step st before tok after).2⟩ ::
        p.stepsFrom (index + 1) (p.step st before tok after).1 (p.step st before tok after).2
          (tok :: before) after :=
  rfl

/-- A run goes on behind the tokens of its first step. -/
theorem run_of_step {p : Printer} {st finish : State} {before : List Token}
    {tok : Token}
    {after : List Token} {taken : Nat}
    (h : p.step st before tok after = (taken, finish)) :
    p.run 0 st before (tok :: after) =
      p.run 0 finish ((after.take taken).reverse ++ tok :: before) (after.drop taken) := by
  rw [run, h]
  exact run_skip p _ _ _ _

/-- The steps of a run are its first step and those of the run behind it. -/
theorem stepsFrom_of_step {p : Printer} {st finish : State} {before : List Token}
    {tok : Token}
    {after : List Token} {taken : Nat}
    (h : p.step st before tok after = (taken, finish))
    (index : Nat) :
    ∃ later, p.stepsFrom index 0 st before (tok :: after) =
      ⟨index, before, tok, after, st, finish⟩ :: p.stepsFrom later 0 finish
        ((after.take taken).reverse ++ tok :: before) (after.drop taken) := by
  obtain ⟨later, hlater⟩ :=
    p.stepsFrom_skip (index + 1) taken finish (tok :: before) after
  exact ⟨later, by rw [stepsFrom, h]; exact congrArg _ hlater⟩

/-- A run goes on behind a token that is taken alone. -/
theorem run_of_alone {p : Printer} {st finish : State} {before : List Token}
    {tok : Token}
    {after : List Token} (h : p.step st before tok after = (0, finish)) :
    p.run 0 st before (tok :: after) = p.run 0 finish (tok :: before) after :=
  run_of_step h

/-- So do the steps. -/
theorem stepsFrom_of_alone {p : Printer} {st finish : State} {before : List Token}
    {tok : Token}
    {after : List Token} (h : p.step st before tok after = (0, finish))
    (index : Nat) :
    ∃ later, p.stepsFrom index 0 st before (tok :: after) =
      ⟨index, before, tok, after, st, finish⟩ :: p.stepsFrom later 0 finish
        (tok :: before) after :=
  stepsFrom_of_step h index

/-- **Induction over the steps of a layout**: what each step keeps between the state and what is
gathered of the steps so far holds at the end. -/
theorem foldl_steps {α : Type} (p : Printer) (gather : α → Step → α) (Kept : State → α → Prop)
    (step : ∀ st acc, Kept st acc → ∀ before tok after index,
      Kept (p.step st before tok after).2
        (gather acc ⟨index, before, tok, after, st, (p.step st before tok after).2⟩))
    {acc : α} (h : Kept {} acc) : Kept p.final (p.steps.foldl gather acc) := by
  have hrun : ∀ (tokens : List Token) (index skip : Nat) (st : State) (before : List Token)
      (acc : α), Kept st acc → Kept (p.run skip st before tokens)
        ((p.stepsFrom index skip st before tokens).foldl gather acc) := by
    intro tokens
    induction tokens with
    | nil => intro index skip st before acc h; cases skip <;> exact h
    | cons tok after ih =>
        intro index skip st before acc h
        cases skip with
        | succ skip => exact ih (index + 1) skip st (tok :: before) acc h
        | zero =>
            exact ih (index + 1) _ _ (tok :: before) _ (step st acc h before tok after index)
  exact hrun p.tokens 0 0 {} [] acc h

/-- **The steps end where the layout does**: the last one finishes in its final state, and where
there is none nothing was done. -/
theorem finish_steps (p : Printer) :
    (p.steps.getLast?.map Step.finish).getD {} = p.final := by
  have hlast : ((p.steps.foldl (fun seen s => s :: seen) []).head?.map Step.finish).getD {} =
      p.final :=
    p.foldl_steps (fun seen s => s :: seen)
      (fun st seen => (seen.head?.map Step.finish).getD {} = st) (fun _ _ _ _ _ _ _ => rfl) rfl
  rwa [List.foldl_flip_cons_eq_append, List.map_id', List.append_nil, List.head?_reverse] at hlast

/-- **Induction over a run**: what holds at the end of the tokens, and before a
step if it holds after it, holds before every run. -/
theorem run_induct (p : Printer) {motive : State → List Token → List Token → Prop}
    (nil : ∀ st before, motive st before [])
    (alone : ∀ st before tok after memo, p.merge? st.memo tok after = none →
      p.step st before tok after = (0, p.alone { st with memo } before tok) →
      motive (p.alone { st with memo } before tok) (tok :: before) after →
      motive st before (tok :: after))
    (merged : ∀ st before tok after merged memo,
      p.merge? st.memo tok after = some merged →
      p.step st before tok after =
        (merged.absorbed, p.writeLine { st with memo } merged.line) →
      motive (p.writeLine { st with memo } merged.line)
        ((after.take merged.absorbed).reverse ++ tok :: before)
          (after.drop merged.absorbed) →
      motive st before (tok :: after))
    (st : State) (before tokens : List Token) : motive st before tokens := by
  -- a merge takes several tokens at once, so the induction is on their number
  induction hlen : tokens.length using Nat.strongRecOn generalizing st before tokens with
  | ind n ih =>
      cases tokens with
      | nil => exact nil st before
      | cons tok after =>
          cases hmerge : p.merge? st.memo tok after with
          | none =>
              obtain ⟨memo, hstep⟩ := step_of_merge?_none before hmerge
              refine alone st before tok after memo hmerge hstep
                (ih after.length ?_ _ _ _ rfl)
              rw [← hlen, List.length_cons]
              omega
          | some found =>
              obtain ⟨memo, hstep⟩ := step_of_merge?_some before hmerge
              refine merged st before tok after found memo hmerge hstep
                (ih _ ?_ _ _ _ rfl)
              rw [← hlen, List.length_cons, List.length_drop]
              omega

/-- What a step merges is a merged element. -/
theorem merges_of_merge? {p : Printer} {memo : SourceIndex.Memo} {tok : Token}
    {after : List Token}
    {merged : Merged} (h : p.merge? memo tok after = some merged) :
    tok.isStartTag = true ∧ Merges tok after merged := by
  rw [merge?] at h
  split at h
  · next hstart =>
      refine ⟨(Bool.and_eq_true_iff.mp (Bool.and_eq_true_iff.mp hstart).1).2, ?_⟩
      split at h
      · next found memo' hcontent =>
          cases h
          exact merges_of_contentMerge hcontent
      · next memo' hcontent =>
          rcases htight : tightMerge p.options p.index tok after memo' with ⟨found, memo''⟩
          rw [htight] at h
          cases h
          exact merges_of_tightMerge htight
  · cases h

/-! ## What is written -/

/-- The text of the lines so far. -/
def State.written (st : State) : Text := join [.char '\n'] st.lines.reverse

/-- What stands before a new line: the end of the last one, if there is one,
and the indentation. -/
def lineBreak (p : Printer) (st : State) : Text :=
  (if st.lines.isEmpty then [] else [.char '\n']) ++ p.indentation st.depth

/-- A line break is blank. -/
theorem lineBreak_blank (p : Printer) (st : State) :
    ∀ r ∈ p.lineBreak st, r.isBlank = true := by
  intro r hr
  rcases List.mem_append.mp hr with hr | hr
  · split at hr
    · cases hr
    · rw [List.mem_singleton.mp hr]
      rfl
  · exact indentation_blank p _ r hr

/-- A line break starts with a newline behind other lines. -/
theorem head?_lineBreak (p : Printer) (st : State) (h : st.lines ≠ []) :
    (p.lineBreak st).head? = some (.char '\n') := by
  simp [lineBreak, h]

/-- A new line is added behind a line break. -/
theorem written_writeLine (p : Printer) (st : State) (line : Text) :
    (p.writeLine st line).written = st.written ++ p.lineBreak st ++ line := by
  by_cases h : st.lines = []
  · simp [State.written, writeLine, lineBreak, h]
  · simp only [State.written, writeLine, lineBreak, List.reverse_cons]
    rw [join_append_singleton _ _ (by simpa using h)]
    simp [h]

/-- What is added to the last line is added at the end. -/
theorem written_appendToLine {st : State} (h : st.lines ≠ []) (more : Text) :
    (appendToLine st more).written = st.written ++ more := by
  obtain ⟨last, rest, hlines⟩ := List.exists_cons_of_ne_nil h
  by_cases hrest : rest = []
  · simp [State.written, appendToLine, hlines, hrest]
  · have hne : rest.reverse ≠ [] := by simpa using hrest
    simp only [State.written, appendToLine, hlines, List.reverse_cons]
    rw [join_append_singleton _ _ hne, join_append_singleton _ _ hne]
    simp

/-- Adding to the last line changes nothing but the lines. -/
theorem appendToLine_frame (st : State) (more : Text) :
    (appendToLine st more).depth = st.depth ∧ (appendToLine st more).memo = st.memo := by
  rw [appendToLine]
  split <;> exact ⟨rfl, rfl⟩

/-- Text and interpolations change nothing but the lines. -/
theorem alone_content (p : Printer) (st : State) (before : List Token) {tok : Token}
    (h : tok.isContent = true) :
    (p.alone st before tok).depth = st.depth ∧ (p.alone st before tok).memo = st.memo := by
  cases hkind : tok.kind with
  | interpolation => simp [alone, hkind, writeLine]
  | text =>
      simp only [alone, hkind, stepText]
      split
      · rw [(appendToLine_frame _ _).1, (appendToLine_frame _ _).2]
        split
        · exact appendToLine_frame _ _
        · exact ⟨rfl, rfl⟩
      · exact ⟨rfl, rfl⟩
  | tag => simp [Token.isContent, hkind] at h
  | control => simp [Token.isContent, hkind] at h
  | closeBrace => simp [Token.isContent, hkind] at h

/-- All other tokens are written as blocks are. -/
theorem alone_of_not_content (p : Printer) (st : State) (before : List Token) {tok : Token}
    (h : tok.isContent = false) : p.alone st before tok = p.stepBlock st tok := by
  cases hkind : tok.kind <;> simp_all [alone, Token.isContent]

/-- Writing a token alone remembers nothing. -/
theorem memo_alone (p : Printer) (st : State) (before : List Token) (tok : Token) :
    (p.alone st before tok).memo = st.memo := by
  cases hcontent : tok.isContent with
  | true => exact (p.alone_content st before hcontent).2
  | false =>
      rw [p.alone_of_not_content st before hcontent, stepBlock]
      split <;> split <;> rfl

/-- A token that is not added to the last line stands on one of its own. -/
theorem alone_of_not_trailing (p : Printer) (st : State) (before : List Token)
    (tok : Token)
    (h : ¬(tok.kind = .text ∧ p.isTrailing st before = true)) :
    ∃ depth ≤ st.depth, (p.alone st before tok).written =
        st.written ++ p.lineBreak { st with depth } ++ renderInline tok ∧
      (p.alone st before tok).lines.length = st.lines.length + 1 := by
  have hblock : ∃ depth ≤ st.depth, (p.stepBlock st tok).written =
        st.written ++ p.lineBreak { st with depth } ++ tok.literal ∧
      (p.stepBlock st tok).lines.length = st.lines.length + 1 := by
    have hdepth : ∀ (st : State) (depth : Nat), State.written
      { st with depth } = st.written :=
      fun _ _ => rfl
    refine ⟨(if tok.closesBlock then { st with depth := st.depth - 1 }
      else st).depth, ?_, ?_⟩
    · split <;> simp
    · rw [stepBlock]
      split <;> split <;> simp [hdepth, written_writeLine] <;> simp [writeLine]
  simp only [alone, renderInline]
  cases hkind : tok.kind with
  | interpolation =>
      exact ⟨st.depth, Nat.le_refl _, written_writeLine p st _, rfl⟩
  | text =>
      have htrailing : ¬p.isTrailing st before = true := fun ht => h ⟨hkind, ht⟩
      simp only [stepText, if_neg htrailing]
      exact ⟨st.depth, Nat.le_refl _, written_writeLine p st _, rfl⟩
  | tag => exact hblock
  | control => exact hblock
  | closeBrace => exact hblock

/-- Trailing text is added to the last line, behind at most a space; the space
stands behind an interpolation only. -/
theorem alone_of_trailing (p : Printer) (st : State) (before : List Token)
    (tok : Token)
    (hkind : tok.kind = .text) (h : p.isTrailing st before = true) :
    ∃ gap, (gap = [] ∨
      gap = [.char ' '] ∧ before.head?.any (·.kind == .interpolation) = true) ∧
      (p.alone st before tok).written = st.written ++ gap ++ renderInline tok ∧
      (p.alone st before tok).lines ≠ [] := by
  have hlines : st.lines ≠ [] := by
    simp only [isTrailing, Bool.and_eq_true] at h
    simpa using h.1.2
  have happend : ∀ (st : State) (more : Text), st.lines ≠ [] →
    (appendToLine st more).lines ≠ [] := by
    intro st more hst
    obtain ⟨last, rest, hlast⟩ := List.exists_cons_of_ne_nil hst
    simp [appendToLine, hlast]
  have hrender : renderInline tok = tok.literal := by rw [renderInline, hkind]
  rw [alone, hkind, hrender]
  simp only [stepText, h, if_true]
  split
  · next hspaced =>
      refine ⟨[.char ' '], .inr ⟨rfl, (Bool.and_eq_true_iff.mp hspaced).2⟩, ?_,
        happend _ _ (happend _ _ hlines)⟩
      rw [written_appendToLine (happend _ _ hlines), written_appendToLine hlines]
  · exact ⟨[], .inl rfl, by rw [written_appendToLine hlines, List.append_nil],
      happend _ _ hlines⟩

/-- What a step adds for its token alone: blanks and the token.  The blanks are
missing at most before the first line and before trailing text. -/
theorem alone_written (p : Printer) (st : State) (before : List Token)
    (tok : Token) :
    ∃ gap, (∀ r ∈ gap, r.isBlank = true) ∧
      (gap = [] → st.lines = [] ∨ tok.kind = .text) ∧
      (p.alone st before tok).written = st.written ++ gap ++ renderInline tok ∧
      (p.alone st before tok).lines ≠ [] := by
  by_cases htrailing : tok.kind = .text ∧ p.isTrailing st before = true
  · obtain ⟨gap, hgap, hwritten, hlines⟩ :=
      p.alone_of_trailing st before tok htrailing.1 htrailing.2
    refine ⟨gap, ?_, fun _ => .inr htrailing.1, hwritten, hlines⟩
    rcases hgap with rfl | ⟨rfl, -⟩ <;> simp
  · obtain ⟨depth, -, hwritten, hlines⟩ :=
      p.alone_of_not_trailing st before tok htrailing
    refine ⟨p.lineBreak { st with depth }, p.lineBreak_blank _,
      fun hnil => .inl ?_, hwritten, ?_⟩
    · simpa [lineBreak] using (List.append_eq_nil_iff.mp hnil).1
    · intro hnil
      rw [hnil] at hlines
      cases hlines

/-- A run only adds to what is written.  Behind other lines it starts with a new
one, unless its first token is trailing text. -/
theorem run_written (p : Printer) (st : State) (before tokens : List Token) :
    ∃ rest, (p.run 0 st before tokens).written = st.written ++ rest ∧
      (tokens = [] → rest = []) ∧
      (st.lines ≠ [] → tokens ≠ [] →
        (∀ tok ∈ tokens.head?, ¬(tok.kind = .text ∧
          p.isTrailing st before = true)) →
        rest.head? = some (.char '\n')) := by
  induction st, before, tokens using p.run_induct with
  | nil st before =>
      exact ⟨[], by simp [run], fun _ => rfl, fun _ h => absurd rfl h⟩
  | alone st before tok after memo hmerge hstep ih =>
      obtain ⟨rest, hrest, -⟩ := ih
      rw [run_of_alone hstep, hrest]
      by_cases htrailing : tok.kind = .text ∧
        p.isTrailing { st with memo } before = true
      · obtain ⟨gap, -, hwritten, -⟩ :=
          p.alone_of_trailing { st with memo } before tok htrailing.1 htrailing.2
        refine ⟨gap ++ renderInline tok ++ rest, ?_, by simp, ?_⟩
        · rw [hwritten]
          simp only [List.append_assoc]
          rfl
        · intro hlines _ hnot
          exact absurd htrailing (hnot tok rfl)
      · obtain ⟨depth, -, hwritten, -⟩ :=
          p.alone_of_not_trailing { st with memo } before tok htrailing
        refine ⟨p.lineBreak { st with depth, memo } ++ renderInline tok ++
          rest, ?_, by simp, ?_⟩
        · rw [hwritten]
          simp only [List.append_assoc]
          rfl
        · intro hlines _ _
          rw [List.append_assoc, List.head?_append,
            p.head?_lineBreak { st with depth, memo } hlines]
          rfl
  | merged st before tok after merged memo hmerge hstep ih =>
      obtain ⟨rest, hrest, -⟩ := ih
      rw [run_of_step hstep, hrest, written_writeLine]
      refine ⟨p.lineBreak { st with memo } ++ merged.line ++
        rest, ?_, by simp, ?_⟩
      · simp only [List.append_assoc]
        rfl
      · intro hlines _ _
        rw [List.append_assoc, List.head?_append,
          p.head?_lineBreak { st with memo } hlines]
        rfl

/-! ## The ends of a layout -/

/-- Renderings that start and end in glyphs that are not blank. -/
def Crisp (tokens : List Token) : Prop :=
  ∀ tok ∈ tokens, Trimmed (renderInline tok) ∧ renderInline tok ≠ []

/-- Tags are written as they are. -/
theorem renderInline_of_tag {tok : Token} (h : tok.isTag = true) :
    renderInline tok = tok.literal := by
  rw [Token.isTag] at h
  rw [renderInline]
  split <;> simp_all

theorem isTag_of_isStartTag {tok : Token} (h : tok.isStartTag = true) : tok.isTag = true := by
  obtain ⟨name, closing, selfClosing, hkind⟩ := kind_of_isStartTag h
  rw [Token.isTag, hkind]

theorem isTag_of_isClosingTag {tok : Token} (h : tok.isClosingTag = true) :
    tok.isTag = true := by
  cases hkind : tok.kind with
  | tag => simp [Token.isTag, hkind]
  | _ => simp [Token.isClosingTag, hkind] at h

/-- A flattened line is trimmed. -/
theorem trimmed_flatten {tokens : List Token} (hne : tokens ≠ [])
    (h : Crisp tokens) :
    Trimmed (flatten tokens) ∧ flatten tokens ≠ [] := by
  have hrenders : ∀ part ∈ tokens.map renderInline, Trimmed part ∧ part ≠ [] := by
    intro part hpart
    obtain ⟨tok, htok, rfl⟩ := List.mem_map.mp hpart
    exact h tok htok
  have hjoin := trimmed_join [.char ' '] (by simpa using hne) hrenders
  refine flatten_induction (P := fun s => Trimmed s ∧ s ≠ []) ?_ hjoin.1 hjoin
  exact fun s t hs hst => hs.1.respaced hs.2 hst

/-- A merged element is trimmed. -/
theorem trimmed_line {tok : Token} {after : List Token} {merged : Merged}
    (h : Merges tok after merged) (hstart : tok.isStartTag = true)
    (hcrisp : Crisp (tok :: after)) :
    Trimmed merged.line ∧ merged.line ≠ [] := by
  cases h with
  | @content parts rest closing content hparts hclosing hcontent =>
      have htok := hcrisp tok List.mem_cons_self
      have hend := hcrisp closing (by simp)
      rw [renderInline_of_tag (isTag_of_isStartTag hstart)] at htok
      rw [renderInline_of_tag (isTag_of_isClosingTag hclosing)] at hend
      exact ⟨htok.1.surround htok.2 hend.1 hend.2 _, by simp [htok.2]⟩
  | @tight inner rest closing hclosing =>
      refine trimmed_flatten (by simp) fun t ht => hcrisp t ?_
      rcases List.mem_cons.mp ht with rfl | ht
      · exact List.mem_cons_self
      · have hfront : inner ++ [closing] <+: inner ++ closing :: rest :=
          ⟨rest, by simp⟩
        exact List.mem_cons_of_mem _ (hfront.subset ht)

/-- A state in which either nothing is written, at the outermost level, or what
is written is trimmed. -/
def State.Tidy (st : State) : Prop :=
  (st.lines = [] ∧ st.depth = 0) ∨ (Trimmed st.written ∧ st.written ≠ [])

/-- What is added behind blanks keeps the layout trimmed. -/
theorem trimmed_append {a gap body : Text}
    (ha : a = [] ∧ gap = [] ∨ Trimmed a ∧ a ≠ [])
    (hbody : Trimmed body) (hne : body ≠ []) :
    Trimmed (a ++ gap ++ body) ∧ a ++ gap ++ body ≠ [] := by
  rcases ha with ⟨rfl, rfl⟩ | ⟨ha, hane⟩
  · exact ⟨hbody, hne⟩
  · exact ⟨ha.surround hane hbody hne gap, by simp [hane]⟩

/-- Nothing stands before the first line. -/
theorem State.Tidy.lineBreak {st : State} (h : st.Tidy) (p : Printer)
    {depth : Nat}
    (hdepth : depth ≤ st.depth) :
    st.written = [] ∧ p.lineBreak { st with depth } = [] ∨
      Trimmed st.written ∧ st.written ≠ [] := by
  rcases h with ⟨hlines, hzero⟩ | h
  · obtain rfl : depth = 0 := by omega
    exact .inl ⟨by simp [State.written, hlines], by simp [Printer.lineBreak,
      hlines, indentation]⟩
  · exact .inr h

/-- One step keeps the layout trimmed. -/
theorem step_trimmed (p : Printer) {st : State} (hst : st.Tidy)
    (before : List Token) {tok : Token}
    {after : List Token} (hcrisp : Crisp (tok :: after)) :
    Trimmed (p.step st before tok after).2.written ∧
      (p.step st before tok after).2.written ≠ [] := by
  cases hmerge : p.merge? st.memo tok after with
  | some merged =>
      obtain ⟨hstart, hmerges⟩ := merges_of_merge? hmerge
      obtain ⟨memo, hstep⟩ := step_of_merge?_some before hmerge
      obtain ⟨hline, hne⟩ := trimmed_line hmerges hstart hcrisp
      rw [hstep, written_writeLine]
      exact trimmed_append (hst.lineBreak p (Nat.le_refl _)) hline hne
  | none =>
      obtain ⟨memo, hstep⟩ := step_of_merge?_none before hmerge
      obtain ⟨hrender, hne⟩ := hcrisp tok List.mem_cons_self
      rw [hstep]
      by_cases htrailing : tok.kind = .text ∧
        p.isTrailing { st with memo } before = true
      · obtain ⟨gap, -, hwritten, -⟩ :=
          p.alone_of_trailing { st with memo } before tok
          htrailing.1 htrailing.2
        have hlines : st.lines ≠ [] := by
          have := htrailing.2
          simp only [isTrailing, Bool.and_eq_true] at this
          simpa using this.1.2
        rw [hwritten]
        rcases hst with ⟨hnil, -⟩ | hst
        · exact absurd hnil hlines
        · exact trimmed_append (.inr hst) hrender hne
      · obtain ⟨depth, hdepth, hwritten, -⟩ :=
          p.alone_of_not_trailing { st with memo } before tok htrailing
        rw [hwritten]
        exact trimmed_append (hst.lineBreak p hdepth) hrender hne

/-- A run keeps the layout trimmed. -/
theorem run_trimmed (p : Printer) (skip : Nat) {st : State}
    (hst : Trimmed st.written ∧ st.written ≠ [])
    (before : List Token) {tokens : List Token} (hcrisp : Crisp tokens) :
    Trimmed (p.run skip st before tokens).written := by
  induction tokens generalizing skip st before with
  | nil => simpa [run] using hst.1
  | cons tok after ih =>
      have hafter : Crisp after :=
        fun t ht => hcrisp t (List.mem_cons_of_mem tok ht)
      cases skip with
      | succ skip => exact ih skip hst _ hafter
      | zero => exact ih _ (p.step_trimmed (.inr hst) before hcrisp) _ hafter

/-- **A layout is trimmed** if its tokens are. -/
theorem trimmed_print (p : Printer) (hcrisp : Crisp p.tokens) : Trimmed p.print := by
  have hprint : p.print = p.final.written := rfl
  rw [hprint, final]
  cases htokens : p.tokens with
  | nil => exact ⟨by simp [run, State.written], by simp [run, State.written]⟩
  | cons tok after =>
      rw [htokens] at hcrisp
      have hafter : Crisp after :=
        fun t ht => hcrisp t (List.mem_cons_of_mem tok ht)
      exact p.run_trimmed _ (p.step_trimmed (.inl ⟨rfl, rfl⟩) [] hcrisp) _ hafter

end Printer

end TemplateFormat.Layout
