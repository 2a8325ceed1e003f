import TemplateFormat.Proofs.Steps

/-!
# The rows of a layout

A row is a line of a layout before it is indented: a depth and a text.  What the
rows are does not depend on the unit of indentation, so laying out with another unit
writes the same rows behind other indentation.

* `lines_step`, `lines_final`, `print_eq_render` — the lines of a layout are its rows, indented;
* `step_reindent`, `rows_reindent` — the rows are the same for every unit;
* `count_render`, `render_eq_iff` — two units give the same text only if no row is
  indented.
-/

namespace TemplateFormat.Layout

open Text Markup

/-- A line of a layout before it is indented. -/
structure Row where
  depth : Nat
  body : Text
deriving DecidableEq, Repr

/-- The row behind its indentation. -/
def Row.line (unit : Text) (row : Row) : Text :=
  (List.replicate row.depth unit).flatten ++ row.body

/-- The text of rows, which are in reverse. -/
def Row.render (unit : Text) (rows : List Row) : Text :=
  join [.char '\n'] (rows.map (Row.line unit)).reverse

namespace Printer

/-- The depth at which a token is written that stands on a line of its own. -/
def lineDepth (st : State) (tok : Token) : Nat :=
  if !tok.isContent && tok.closesBlock then st.depth - 1 else st.depth

/-- What is added to the last line for trailing text. -/
def trailingText (before : List Token) (tok : Token) : Text :=
  if tok.spaceBefore && before.head?.any (·.kind == .interpolation) then
    .char ' ' :: tok.literal
  else tok.literal

/-- The rows after a step, the last one first, where `rows` are those before it. -/
def addRow (p : Printer) (rows : List Row) (s : Step) : List Row :=
  match p.merge? s.start.memo s.token s.after with
  | some merged => ⟨s.start.depth, merged.line⟩ :: rows
  | none =>
    if s.token.kind = .text ∧ p.isTrailing s.start s.before = true then
      rows.modifyHead fun last => ⟨last.depth, last.body ++ trailingText s.before s.token⟩
    else ⟨lineDepth s.start s.token, renderInline s.token⟩ :: rows

/-- The rows of a layout, the last one first. -/
def rows (p : Printer) : List Row := p.steps.foldl p.addRow []

/-! ## Lines are rows behind indentation -/

/-- Trailing text is added to the last line. -/
theorem lines_alone_trailing {p : Printer} {st : State} {before : List Token} {tok : Token}
    {last : Text} {rest : List Text} (hkind : tok.kind = .text)
    (htrailing : p.isTrailing st before = true) (hlines : st.lines = last :: rest) :
    (p.alone st before tok).lines = (last ++ trailingText before tok) :: rest := by
  simp only [alone, hkind, stepText, htrailing, if_true, trailingText]
  split
  · simp [appendToLine, hlines]
  · simp [appendToLine, hlines]

/-- Any other token starts a line. -/
theorem lines_alone {p : Printer} {st : State} {before : List Token} {tok : Token}
    (h : ¬(tok.kind = .text ∧ p.isTrailing st before = true)) :
    (p.alone st before tok).lines =
      Row.line p.options.unit ⟨lineDepth st tok, renderInline tok⟩ :: st.lines := by
  cases hcontent : tok.isContent with
  | false =>
      have hrender : renderInline tok = tok.literal := by
        cases hkind : tok.kind <;> simp_all [renderInline, Token.isContent]
      rw [p.alone_of_not_content st before hcontent, stepBlock, hrender]
      simp only [lineDepth, hcontent, Bool.not_false, Bool.true_and]
      split <;> split <;> simp_all [writeLine, Row.line, indentation]
  | true =>
      cases hkind : tok.kind with
      | text =>
          have htrailing : ¬p.isTrailing st before = true := fun ht => h ⟨hkind, ht⟩
          simp [alone, hkind, stepText, htrailing, writeLine, Row.line, indentation, lineDepth,
            hcontent, renderInline]
      | interpolation =>
          simp [alone, hkind, writeLine, Row.line, indentation, lineDepth, hcontent, renderInline]
      | _ => simp [Token.isContent, hkind] at hcontent

/-- **One step** adds to the lines what it adds to the rows. -/
theorem lines_step {p : Printer} {st : State} {rows : List Row}
    (h : st.lines = rows.map (Row.line p.options.unit)) (before : List Token) (tok : Token)
    (after : List Token) (index : Nat) (finish : State) :
    (p.step st before tok after).2.lines =
      (p.addRow rows ⟨index, before, tok, after, st, finish⟩).map (Row.line p.options.unit) := by
  rw [addRow]
  cases hmerge : p.merge? st.memo tok after with
  | some merged =>
      obtain ⟨memo, hstep⟩ := step_of_merge?_some before hmerge
      rw [hstep]
      simp [writeLine, Row.line, indentation, h]
  | none =>
      obtain ⟨memo, hstep⟩ := step_of_merge?_none before hmerge
      rw [hstep]
      dsimp only
      split
      · next htrailing =>
          obtain ⟨hkind, htrailing⟩ := htrailing
          have hlines : st.lines ≠ [] := by
            simp only [isTrailing, Bool.and_eq_true] at htrailing
            simpa using htrailing.1.2
          cases rows with
          | nil => exact absurd h hlines
          | cons last rest =>
              have hline : (p.alone { st with memo } before tok).lines = _ :=
                lines_alone_trailing hkind htrailing h
              rw [hline]
              simp [Row.line]
      · next hother =>
          have hline : (p.alone { st with memo } before tok).lines = _ := lines_alone hother
          rw [hline, List.map_cons, ← h]
          rfl

/-- **The lines of a layout** are its rows behind their indentation. -/
theorem lines_final (p : Printer) : p.final.lines = p.rows.map (Row.line p.options.unit) :=
  p.foldl_steps p.addRow (fun st rows => st.lines = rows.map (Row.line p.options.unit))
    (fun _ _ h before tok after index => lines_step h before tok after index _) rfl

/-- A layout is its rows behind their indentation. -/
theorem print_eq_render (p : Printer) : p.print = Row.render p.options.unit p.rows := by
  rw [print, Row.render, p.lines_final]

/-! ## The rows do not depend on the unit -/

/-- The printer with another indentation. -/
def reindent (p : Printer) (size : Int) (useSpaces : Bool) : Printer :=
  { p with options := { p.options with indentSize := size, useSpaces } }

/-- Two states that differ in their indentation only. -/
structure Alike (st st' : State) : Prop where
  depth : st'.depth = st.depth
  memo : st'.memo = st.memo
  empty : st'.lines.isEmpty = st.lines.isEmpty

variable {p : Printer} {st st' : State} {size : Int} {useSpaces : Bool}

/-- What is trailing does not depend on indentation. -/
theorem isTrailing_reindent (h : Alike st st') (before : List Token) :
    (p.reindent size useSpaces).isTrailing st' before = p.isTrailing st before := by
  rw [isTrailing, isTrailing, h.empty]
  rfl

/-- Writing a line keeps states alike. -/
theorem Alike.writeLine (h : Alike st st') (line : Text) :
    Alike (p.writeLine st line) ((p.reindent size useSpaces).writeLine st' line) :=
  ⟨h.depth, h.memo, rfl⟩

/-- So does adding to the last one. -/
theorem Alike.appendToLine (h : Alike st st') (more : Text) :
    Alike (Printer.appendToLine st more) (Printer.appendToLine st' more) := by
  refine ⟨?_, ?_, ?_⟩
  · rw [(appendToLine_frame st more).1, (appendToLine_frame st' more).1, h.depth]
  · rw [(appendToLine_frame st more).2, (appendToLine_frame st' more).2, h.memo]
  · have hlines : ∀ st : State, (Printer.appendToLine st more).lines.isEmpty = st.lines.isEmpty := by
      intro st
      rw [Printer.appendToLine]
      split
      · rfl
      · next hcons => rw [hcons]; rfl
    rw [hlines, hlines, h.empty]

/-- Writing a token alone keeps states alike. -/
theorem Alike.alone (h : Alike st st') (before : List Token) (tok : Token) :
    Alike (p.alone st before tok) ((p.reindent size useSpaces).alone st' before tok) := by
  have hblock : Alike (p.stepBlock st tok) ((p.reindent size useSpaces).stepBlock st' tok) := by
    simp only [stepBlock, h.depth]
    split <;> split <;> exact ⟨by simp [Printer.writeLine, h.depth], h.memo, rfl⟩
  cases hkind : tok.kind with
  | interpolation => simpa [Printer.alone, hkind] using h.writeLine _
  | text =>
      simp only [Printer.alone, hkind, stepText, isTrailing_reindent h]
      split
      · split
        · exact (h.appendToLine _).appendToLine _
        · exact h.appendToLine _
      · exact h.writeLine _
  | tag => simpa [Printer.alone, hkind] using hblock
  | control => simpa [Printer.alone, hkind] using hblock
  | closeBrace => simpa [Printer.alone, hkind] using hblock

/-- **One step** with another unit takes as many tokens and leaves a state alike. -/
theorem step_reindent (h : Alike st st') (before : List Token) (tok : Token)
    (after : List Token) :
    ((p.reindent size useSpaces).step st' before tok after).1 = (p.step st before tok after).1 ∧
      Alike (p.step st before tok after).2
        ((p.reindent size useSpaces).step st' before tok after).2 := by
  have hmemo : ∀ memo, Alike { st with memo } { st' with memo } :=
    fun memo => ⟨h.depth, rfl, h.empty⟩
  have hmerge : firstMerge (p.reindent size useSpaces).options (p.reindent size useSpaces).index
      tok after st'.memo = firstMerge p.options p.index tok after st.memo := by
    rw [h.memo]
    rfl
  have hinline : (p.reindent size useSpaces).options.inlineShort = p.options.inlineShort := rfl
  rw [step_eq, step_eq, hmerge, hinline]
  split
  · split
    · exact ⟨rfl, (hmemo _).writeLine _⟩
    · exact ⟨rfl, (hmemo _).alone before tok⟩
  · exact ⟨rfl, h.alone before tok⟩

/-- The rows that a step adds do not depend on the unit. -/
theorem addRow_reindent (h : Alike st st') (rows : List Row) (index : Nat) (before : List Token)
    (tok : Token) (after : List Token) (finish finish' : State) :
    (p.reindent size useSpaces).addRow rows ⟨index, before, tok, after, st', finish'⟩ =
      p.addRow rows ⟨index, before, tok, after, st, finish⟩ := by
  have hmerge : (p.reindent size useSpaces).merge? st'.memo tok after =
      p.merge? st.memo tok after := by
    rw [h.memo]
    rfl
  simp only [addRow, hmerge, isTrailing_reindent h, lineDepth, h.depth]

/-- **The rows of a layout** are the same for every unit. -/
theorem rows_reindent (p : Printer) (size : Int) (useSpaces : Bool) :
    (p.reindent size useSpaces).rows = p.rows := by
  have hsteps : ∀ (tokens : List Token) (index skip : Nat) (st st' : State)
      (before : List Token) (rows : List Row), Alike st st' →
      ((p.reindent size useSpaces).stepsFrom index skip st' before tokens).foldl
          (p.reindent size useSpaces).addRow rows =
        (p.stepsFrom index skip st before tokens).foldl p.addRow rows := by
    intro tokens
    induction tokens with
    | nil => intro index skip st st' before rows _; cases skip <;> rfl
    | cons tok tokens ih =>
        intro index skip st st' before rows h
        cases skip with
        | succ skip => exact ih _ _ _ _ _ _ h
        | zero =>
            obtain ⟨htaken, halike⟩ : ((p.reindent size useSpaces).step st' before tok tokens).1 =
                (p.step st before tok tokens).1 ∧ Alike _ _ := step_reindent h before tok tokens
            rw [stepsFrom, stepsFrom, List.foldl_cons, List.foldl_cons,
              addRow_reindent h rows index before tok tokens _ _, htaken]
            exact ih _ _ _ _ _ _ halike
  exact hsteps p.tokens 0 0 {} {} [] [] ⟨rfl, rfl, rfl⟩

end Printer

/-! ## Rows with another unit -/

/-- Joining lines adds nothing but newlines. -/
theorem count_join {r : Glyph} (h : r ≠ .char '\n') (lines : List Text) :
    (join [.char '\n'] lines).count r = lines.flatten.count r := by
  induction lines with
  | nil => rfl
  | cons line lines ih =>
      cases lines with
      | nil => simp
      | cons next rest =>
          have hbreak : [Glyph.char '\n'].count r = 0 :=
            List.count_eq_zero_of_not_mem (by simpa using h)
          rw [join_cons_cons, List.count_append, List.count_append, ih, hbreak]
          simp only [List.flatten_cons, List.count_append]
          omega

/-- How deep the rows are, in all. -/
def Row.depths : List Row → Nat
  | [] => 0
  | row :: rows => row.depth + depths rows

/-- A row is not deeper than all rows are. -/
theorem Row.depth_le_depths {row : Row} {rows : List Row} (h : row ∈ rows) :
    row.depth ≤ Row.depths rows := by
  induction rows with
  | nil => cases h
  | cons first rows ih =>
      rw [Row.depths]
      rcases List.mem_cons.mp h with rfl | h
      · omega
      · have hle := ih h
        omega

/-- A glyph occurs in the indentation once for each level and each time in the unit. -/
theorem count_line (r : Glyph) (unit : Text) (row : Row) :
    (row.line unit).count r = row.depth * unit.count r + row.body.count r := by
  have hlevels : ∀ depth, (List.replicate depth unit).flatten.count r = depth * unit.count r := by
    intro depth
    induction depth with
    | zero => simp
    | succ depth ih =>
        rw [List.replicate_succ, List.flatten_cons, List.count_append, ih, Nat.succ_mul]
        omega
  rw [Row.line, List.count_append, hlevels]

/-- So it does in the text of rows, newlines aside. -/
theorem count_render {r : Glyph} (h : r ≠ .char '\n') (unit : Text) (rows : List Row) :
    (Row.render unit rows).count r =
      Row.depths rows * unit.count r + (rows.map Row.body).flatten.count r := by
  have hlines : (rows.map (Row.line unit)).flatten.count r =
      Row.depths rows * unit.count r + (rows.map Row.body).flatten.count r := by
    induction rows with
    | nil => simp [Row.depths]
    | cons row rows ih =>
        simp only [List.map_cons, List.flatten_cons, List.count_append]
        rw [ih, count_line, Row.depths, Nat.add_mul]
        omega
  rw [Row.render, count_join h, ← hlines]
  exact (List.reverse_perm _).flatten.count_eq r

/-- A unit is known by its spaces and its tabs. -/
theorem unit_eq_of_count {o o' : Options}
    (hspaces : o'.unit.count (.char ' ') = o.unit.count (.char ' '))
    (htabs : o'.unit.count (.char '\t') = o.unit.count (.char '\t')) : o'.unit = o.unit := by
  have hone : ∀ o : Options, o.useSpaces = true →
      o.unit = List.replicate o.indentSize.toNat (.char ' ') := by
    intro o h
    rw [Options.unit, if_pos h]
  have htab : ∀ o : Options, o.useSpaces = false → o.unit = [.char '\t'] := by
    intro o h
    rw [Options.unit, if_neg (by simp [h])]
  cases h : o.useSpaces <;> cases h' : o'.useSpaces
  · rw [htab o h, htab o' h']
  · rw [htab o h, hone o' h'] at htabs
    simp [List.count_replicate] at htabs
  · rw [hone o h, htab o' h'] at htabs
    simp [List.count_replicate] at htabs
  · rw [hone o h, hone o' h', List.count_replicate_self, List.count_replicate_self] at hspaces
    rw [hone o h, hone o' h', hspaces]

/-- **Two units of indentation** give rows the same text only if they are the same or no row
is indented. -/
theorem render_eq_iff (o o' : Options) (rows : List Row) :
    Row.render o'.unit rows = Row.render o.unit rows ↔
      o'.unit = o.unit ∨ ∀ row ∈ rows, row.depth = 0 := by
  constructor
  · intro heq
    by_cases hflat : Row.depths rows = 0
    · refine .inr fun row hrow => ?_
      have hle := Row.depth_le_depths hrow
      omega
    · -- spaces and tabs are counted, which tells the units apart
      have hcount : ∀ r : Glyph, r ≠ .char '\n' → o'.unit.count r = o.unit.count r := by
        intro r hr
        have hsame := congrArg (List.count r) heq
        rw [count_render hr, count_render hr] at hsame
        exact Nat.eq_of_mul_eq_mul_left (Nat.pos_of_ne_zero hflat) (by omega)
      exact .inl (unit_eq_of_count (hcount _ (by decide)) (hcount _ (by decide)))
  · rintro (hunit | hflat)
    · rw [hunit]
    · have hline : ∀ unit, rows.map (Row.line unit) = rows.map Row.body := by
        intro unit
        refine List.map_congr_left fun row hrow => ?_
        rw [Row.line, hflat row hrow]
        rfl
      rw [Row.render, Row.render, hline, hline]

end TemplateFormat.Layout
