import TemplateFormat.Proofs.Detection
import TemplateFormat.Proofs.LineShapes

/-!
# How the rows of a layout vote

The indentation of a layout can be detected like that of any other text.  Each row votes
with its first line, which is led by the indentation of its depth, and a row whose body
has newlines votes with the lines behind them too, as these were in the source.  A level
is opened by a row of its own, so no row is more than one level deeper than the one
before it: where some row is indented, the first one that is stands at depth one.

* `Row.Stepwise`, `stepwise_rows` — the depths of rows go up one level at a time;
* `Row.leads`, `leads_line` — how the lines of a row vote;
* `leads_layout` — how the lines of a layout vote.
-/

namespace TemplateFormat.Layout

open Text Markup Indentation

/-- The rows of the layout of a document. -/
def rowsOf (o : Options) (source : Text) : List Row :=
  (Printer.ofSource o (unifyLineEnds source).trim).rows

/-- A blank document has no rows. -/
theorem rowsOf_of_blank (o : Options) {source : Text} (h : source.isBlank = true) :
    rowsOf o source = [] := by
  have hstrip : strip (unifyLineEnds source) = [] := by
    rw [strip_unifyLineEnds, strip_eq_nil_iff]
    exact List.all_eq_true.mp h
  rw [rowsOf, trim_eq_nil hstrip]
  rfl

/-! ## Depths -/

/-- The depth that a row may have behind others, the last of which comes first. -/
def Row.reach : List Row → Nat
  | [] => 0
  | last :: _ => last.depth + 1

/-- Rows, the last one first, none of which is more than one level deeper than the one before
it. -/
inductive Row.Stepwise : List Row → Prop
  | nil : Stepwise []
  | cons {row : Row} {rows : List Row} (within : row.depth ≤ Row.reach rows)
      (before : Stepwise rows) : Stepwise (row :: rows)

/-- Where a row stands at a depth, rows stand at all depths above. -/
theorem Row.Stepwise.exists_depth {rows : List Row} (h : Row.Stepwise rows) {row : Row}
    (hrow : row ∈ rows) {depth : Nat} (hle : depth ≤ row.depth) :
    ∃ other ∈ rows, other.depth = depth := by
  induction h generalizing row with
  | nil => cases hrow
  | @cons last rows within _ ih =>
      rcases List.mem_cons.mp hrow with rfl | hrow
      · rcases Nat.eq_or_lt_of_le hle with rfl | hlt
        · exact ⟨row, List.mem_cons_self, rfl⟩
        · cases rows with
          | nil => exact absurd hlt (Nat.not_lt_of_le (Nat.le_trans within (Nat.zero_le depth)))
          | cons last rows =>
              rw [Row.reach] at within
              obtain ⟨other, hother, hdepth⟩ := ih List.mem_cons_self (by omega)
              exact ⟨other, List.mem_cons_of_mem row hother, hdepth⟩
      · obtain ⟨other, hother, hdepth⟩ := ih hrow hle
        exact ⟨other, List.mem_cons_of_mem last hother, hdepth⟩

/-- The first rows are stepwise too. -/
theorem Row.Stepwise.drop {rows : List Row} (h : Row.Stepwise rows) (n : Nat) :
    Row.Stepwise (rows.drop n) := by
  induction h generalizing n with
  | nil => simpa using Row.Stepwise.nil
  | cons within before ih =>
      cases n with
      | zero => exact .cons within before
      | succ n => exact ih n

namespace Printer

variable {p : Printer}

/-- A token that is written alone goes on at most one level below its line. -/
theorem depth_alone_le (p : Printer) (st : State) (before : List Token) (tok : Token) :
    (p.alone st before tok).depth ≤ lineDepth st tok + 1 := by
  cases hcontent : tok.isContent with
  | true =>
      rw [(p.alone_content st before hcontent).1]
      simp [lineDepth, hcontent]
  | false =>
      rw [p.alone_of_not_content st before hcontent, stepBlock]
      simp only [lineDepth, hcontent, Bool.not_false, Bool.true_and]
      split <;> split <;> simp [writeLine]

/-- **One step** writes no row more than one level below the last, and goes on no deeper. -/
theorem stepwise_step {st : State} {rows : List Row} (hrows : Row.Stepwise rows)
    (hdepth : st.depth ≤ Row.reach rows) (before : List Token) (tok : Token)
    (after : List Token) (index : Nat) (finish : State) :
    Row.Stepwise (p.addRow rows ⟨index, before, tok, after, st, finish⟩) ∧
      (p.step st before tok after).2.depth ≤
        Row.reach (p.addRow rows ⟨index, before, tok, after, st, finish⟩) := by
  rw [addRow]
  cases hmerge : p.merge? st.memo tok after with
  | some merged =>
      obtain ⟨memo, hstep⟩ := step_of_merge?_some before hmerge
      rw [hstep]
      exact ⟨.cons hdepth hrows, Nat.le_succ st.depth⟩
  | none =>
      obtain ⟨memo, hstep⟩ := step_of_merge?_none before hmerge
      rw [hstep]
      dsimp only
      split
      · next htrailing =>
          have hcontent : tok.isContent = true := by simp [Token.isContent, htrailing.1]
          rw [(p.alone_content { st with memo } before hcontent).1]
          cases hrows with
          | nil => exact ⟨.nil, hdepth⟩
          | cons within before => exact ⟨.cons within before, hdepth⟩
      · have hline : lineDepth st tok ≤ st.depth := by
          rw [lineDepth]
          split <;> omega
        exact ⟨.cons (Nat.le_trans hline hdepth) hrows,
          p.depth_alone_le { st with memo } before tok⟩

/-- **The rows of a layout** go down one level at a time. -/
theorem stepwise_rows (p : Printer) : Row.Stepwise p.rows :=
  (p.foldl_steps p.addRow (fun st rows => Row.Stepwise rows ∧ st.depth ≤ Row.reach rows)
    (fun _ _ h before tok after index => stepwise_step h.1 h.2 before tok after index _)
    ⟨.nil, Nat.le_refl 0⟩).1

end Printer

/-! ## Votes -/

/-- How a line votes that is indented to a depth. -/
def Row.lead (o : Options) (depth : Nat) : Lead :=
  if depth = 0 then .none
  else if o.useSpaces then .spaces (depth * o.indentSize.toNat)
  else .tabs

/-- How the lines of a row vote: the first by its depth, and those behind a newline in the
body, unless they are blank, as they do in any text. -/
def Row.leads (o : Options) (row : Row) : List Lead :=
  Row.lead o row.depth ::
    (((row.body.splitOn (.char '\n')).tail.filter (!Text.isBlank ·)).map Lead.ofLine)

/-- A text with something before it that has no separator is split where it was. -/
theorem splitOn_append {sep : Glyph} {lead : Text} (h : sep ∉ lead) (s : Text) :
    (lead ++ s).splitOn sep = (s.splitOn sep).modifyHead (lead ++ ·) := by
  induction lead with
  | nil =>
      obtain ⟨first, rest, hsplit⟩ := List.exists_cons_of_ne_nil
        (List.splitOnP_ne_nil (· == sep) s)
      rw [List.nil_append, splitOn, hsplit]
      rfl
  | cons r lead ih =>
      obtain ⟨hr, hlead⟩ : sep ≠ r ∧ sep ∉ lead := by simpa using h
      have hrest := ih hlead
      rw [splitOn, splitOn] at hrest
      rw [List.cons_append, splitOn, splitOn, List.splitOnP_cons_eq_if_modifyHead,
        if_neg (by simpa using hr.symm), hrest, List.modifyHead_modifyHead]
      rfl

/-- Indentation is some spaces or some tabs. -/
theorem flatten_unit (o : Options) (depth : Nat) :
    (List.replicate depth o.unit).flatten =
      if o.useSpaces then List.replicate (depth * o.indentSize.toNat) (.char ' ')
      else List.replicate depth (.char '\t') := by
  rw [Options.unit]
  split
  · exact List.flatten_replicate_replicate
  · exact List.flatten_replicate_singleton

/-- What is not blank leads no line. -/
theorem isLead_of_not_isBlank {r : Glyph} (h : r.isBlank = false) : isLead r = false := by
  cases hlead : isLead r with
  | false => rfl
  | true =>
      rw [isLead, Bool.and_eq_true] at hlead
      rw [Glyph.isBlank_of_isSpace hlead.1] at h
      cases h

/-- **An indented line** votes by its depth. -/
theorem ofLine_indented {o : Options} (hindent : 0 < o.indentSize) (depth : Nat) {line : Text}
    (hline : ∀ r ∈ line.head?, r.isBlank = false) :
    Lead.ofLine ((List.replicate depth o.unit).flatten ++ line) = Row.lead o depth := by
  have hstop : line.takeWhile isLead = [] := by
    cases line with
    | nil => rfl
    | cons r rest => exact List.takeWhile_cons_of_neg (by simp [isLead_of_not_isBlank (hline r rfl)])
  have hlead : ∀ (n : Nat) (r : Glyph), isLead r = true →
      (List.replicate n r ++ line).takeWhile isLead = List.replicate n r := by
    intro n r hr
    rw [List.takeWhile_append_of_pos fun a ha => by rw [List.eq_of_mem_replicate ha, hr], hstop,
      List.append_nil]
  have hsize : 0 < o.indentSize.toNat := by omega
  rw [flatten_unit, Row.lead]
  cases huse : o.useSpaces with
  | true =>
      rw [if_pos rfl, if_pos rfl, Lead.ofLine, hlead _ _ (by decide)]
      by_cases hdepth : depth = 0
      · simp [hdepth]
      · have hwidth : depth * o.indentSize.toNat ≠ 0 := Nat.mul_ne_zero hdepth (by omega)
        simp [hdepth, hwidth, List.mem_replicate]
  | false =>
      rw [if_neg Bool.false_ne_true, if_neg Bool.false_ne_true, Lead.ofLine, hlead _ _ (by decide)]
      by_cases hdepth : depth = 0
      · simp [hdepth]
      · simp [hdepth, List.mem_replicate]

/-- **How a row votes** that is written behind its indentation. -/
theorem leads_line {o : Options} (hindent : 0 < o.indentSize) {row : Row}
    (hbody : Trimmed row.body) (hne : row.body ≠ []) :
    (((row.line o.unit).splitOn (.char '\n')).filter (!Text.isBlank ·)).map Lead.ofLine =
      Row.leads o row := by
  have hunit : .char '\n' ∉ (List.replicate row.depth o.unit).flatten := by
    rw [flatten_unit]
    split <;> simp [List.mem_replicate]
  obtain ⟨r, rest, hcons⟩ := List.exists_cons_of_ne_nil hne
  have hr : r.isBlank = false := hbody.head r (by rw [hcons]; rfl)
  -- the first line of the body starts as the body does
  obtain ⟨first, lines, hsplit⟩ : ∃ first lines,
      row.body.splitOn (.char '\n') = (r :: first) :: lines := by
    obtain ⟨first, lines, hrest⟩ := List.exists_cons_of_ne_nil
      (List.splitOnP_ne_nil (· == Glyph.char '\n') rest)
    refine ⟨first, lines, ?_⟩
    rw [hcons, splitOn, List.splitOnP_cons_eq_if_modifyHead, hrest, if_neg]
    · rfl
    · intro heq
      rw [beq_iff_eq.mp heq] at hr
      cases hr
  have hspoken : Text.isBlank ((List.replicate row.depth o.unit).flatten ++ r :: first) = false := by
    simp [Text.isBlank, hr]
  rw [Row.line, splitOn_append hunit, Row.leads, hsplit, List.modifyHead_cons,
    List.filter_cons_of_pos (by simp [hspoken]), List.map_cons, List.tail_cons,
    ofLine_indented hindent _ (by simpa using hr)]

/-- **How a layout votes**: as its rows do, the first lines of them as far as the limit. -/
theorem leads_layout {o : Options} (hindent : 0 < o.indentSize) {source : Text}
    (hsource : source.isBlank = false) :
    Indentation.leads (layout o source) =
      ((rowsOf o source).reverse.flatMap (Row.leads o)).take lineLimit := by
  have hrows : ∀ row ∈ rowsOf o source, Trimmed row.body ∧ row.body ≠ [] :=
    Printer.trimmed_rows (crisp_scan (trimmed_trim _))
  have hlines : ((((rowsOf o source).reverse.flatMap fun row =>
      (row.line o.unit).splitOn (.char '\n')).filter (!Text.isBlank ·)).map Lead.ofLine) =
        (rowsOf o source).reverse.flatMap (Row.leads o) := by
    rw [List.filter_flatMap, List.map_flatMap, List.flatMap_def, List.flatMap_def]
    refine congrArg List.flatten (List.map_congr_left fun row hrow => ?_)
    obtain ⟨hbody, hne⟩ := hrows row (List.mem_reverse.mp hrow)
    exact leads_line hindent hbody hne
  have hend : ∀ b : Bool, (if b then [[]] else [] : List Text).filter (!Text.isBlank ·) = [] := by
    decide
  have hsplit : (layout o source).splitOn (.char '\n') = (rowsOf o source).reverse.flatMap _ ++ _ :=
    splitOn_layout hsource
  rw [Indentation.leads, List.map_take, hsplit, List.filter_append, hend, List.append_nil, hlines]

/-- A row whose body has no newline votes by its depth and no more. -/
theorem leads_of_notMem {o : Options} {row : Row} (h : .char '\n' ∉ row.body) :
    Row.leads o row = [Row.lead o row.depth] := by
  have hsplit : row.body.splitOn (.char '\n') = [row.body] :=
    List.splitOnP_eq_singleton fun r hr => beq_false_of_ne fun heq => h (heq ▸ hr)
  rw [Row.leads, hsplit]
  rfl

/-- So do the first rows as far as a limit, if none of them has a newline. -/
theorem leads_take_of_notMem {o : Options} {rows : List Row} {n : Nat}
    (h : ∀ row ∈ rows.take n, .char '\n' ∉ row.body) :
    (rows.flatMap (Row.leads o)).take n = (rows.take n).map fun row => Row.lead o row.depth := by
  have hfirst : (rows.take n).flatMap (Row.leads o) =
      (rows.take n).map fun row => Row.lead o row.depth := by
    rw [List.map_eq_flatMap, List.flatMap_def, List.flatMap_def]
    exact congrArg List.flatten (List.map_congr_left fun row hrow => leads_of_notMem (h row hrow))
  have hsplit : rows.flatMap (Row.leads o) = ((rows.take n).map fun row => Row.lead o row.depth) ++
      (rows.drop n).flatMap (Row.leads o) := by
    rw [← hfirst, ← List.flatMap_append, List.take_append_drop]
  rw [hsplit]
  rcases Nat.le_total rows.length n with hfew | hmany
  · rw [List.drop_eq_nil_of_le hfew, List.flatMap_nil, List.append_nil]
    refine List.take_of_length_le ?_
    rw [List.length_map]
    exact List.length_take_le n rows
  · exact List.take_left' (by rw [List.length_map, List.length_take_of_le hmany])

/-- Where one of the first rows is indented, one of them is at depth one. -/
theorem exists_first_level {o : Options} {source : Text} {n : Nat}
    (h : ∃ row ∈ (rowsOf o source).reverse.take n, 0 < row.depth) :
    ∃ row ∈ (rowsOf o source).reverse.take n, row.depth = 1 := by
  have hstepwise : Row.Stepwise (rowsOf o source) := Printer.stepwise_rows _
  obtain ⟨row, hrow, hdepth⟩ := h
  rw [List.take_reverse, List.mem_reverse] at hrow
  obtain ⟨first, hfirst, hone⟩ := (hstepwise.drop _).exists_depth hrow hdepth
  exact ⟨first, by rw [List.take_reverse, List.mem_reverse]; exact hfirst, hone⟩

/-! ## Votes for the unit of a layout -/

/-- Whether more lines vote for the unit of options than for any other: for tabs, or for spaces
and then for its width. -/
def VotesFor (source : Text) (o : Options) : Prop :=
  (o.useSpaces = false ∧ spaceVotes source < tabVotes source) ∨
    (o.useSpaces = true ∧ tabVotes source ≤ spaceVotes source ∧
      pickSize (widthVotes source) = o.indentSize.toNat)

section Levels

variable {o : Options} {source : Text} {rows : List Row}

/-- **The votes for a width**, where lines vote by their depths: those of the level that has this
width. -/
theorem widthVotes_level (hindent : 0 < o.indentSize) (hspaces : o.useSpaces = true)
    (hleads : Indentation.leads source = rows.map fun row => Row.lead o row.depth) {depth : Nat}
    (hdepth : 0 < depth) :
    widthVotes source (depth * o.indentSize.toNat) = rows.countP (·.depth = depth) := by
  have hsize : 0 < o.indentSize.toNat := by omega
  rw [widthVotes_eq, hleads, List.count, List.countP_map]
  refine List.countP_congr fun row _ => ?_
  rw [Function.comp_apply, Row.lead, if_pos hspaces]
  split
  · next hzero => simp [hzero, Nat.ne_of_lt hdepth]
  · simp [Nat.mul_left_inj (Nat.ne_of_gt hsize)]

/-- A width that is voted for is that of a level. -/
theorem exists_level (hspaces : o.useSpaces = true)
    (hleads : Indentation.leads source = rows.map fun row => Row.lead o row.depth) {width : Nat}
    (hvoted : 0 < widthVotes source width) :
    ∃ depth, 0 < depth ∧ width = depth * o.indentSize.toNat := by
  rw [widthVotes_eq, hleads, List.count_pos_iff] at hvoted
  obtain ⟨row, -, hlead⟩ := List.mem_map.mp hvoted
  rw [Row.lead, if_pos hspaces] at hlead
  split at hlead
  · cases hlead
  · next hdepth =>
      cases hlead
      exact ⟨row.depth, Nat.pos_of_ne_zero hdepth, rfl⟩

/-- Lines that are indented by tabs have no votes for spaces. -/
theorem spaceVotes_of_tabs (htabs : o.useSpaces = false)
    (hleads : Indentation.leads source = rows.map fun row => Row.lead o row.depth) :
    spaceVotes source = 0 := by
  rw [spaceVotes_eq, hleads, List.countP_map, List.countP_eq_zero]
  intro row _
  rw [Function.comp_apply, Row.lead, htabs]
  split <;> simp [Lead.width?]

/-- Lines that are indented by spaces have no votes for tabs. -/
theorem tabVotes_of_spaces (hspaces : o.useSpaces = true)
    (hleads : Indentation.leads source = rows.map fun row => Row.lead o row.depth) :
    tabVotes source = 0 := by
  rw [tabVotes_eq, hleads, List.count_eq_zero]
  intro hmem
  obtain ⟨row, -, hlead⟩ := List.mem_map.mp hmem
  rw [Row.lead, if_pos hspaces] at hlead
  split at hlead <;> cases hlead

/-- A line at depth one votes. -/
theorem votes_pos (hleads : Indentation.leads source = rows.map fun row => Row.lead o row.depth)
    (hfirst : ∃ row ∈ rows, row.depth = 1) : 0 < tabVotes source + spaceVotes source := by
  obtain ⟨row, hrow, hdepth⟩ := hfirst
  have hmem : Row.lead o 1 ∈ Indentation.leads source := by
    rw [hleads, ← hdepth]
    exact List.mem_map_of_mem hrow
  rw [tabVotes_eq, spaceVotes_eq]
  cases huse : o.useSpaces with
  | true =>
      have hspaces : Row.lead o 1 = .spaces (1 * o.indentSize.toNat) := by simp [Row.lead, huse]
      exact Nat.add_pos_right _ (List.countP_pos_iff.mpr ⟨_, hmem, by rw [hspaces]; rfl⟩)
  | false =>
      have htabs : Row.lead o 1 = .tabs := by simp [Row.lead, huse]
      exact Nat.add_pos_left (List.count_pos_iff.mpr (htabs ▸ hmem)) _

/-- **The width of one level is picked**, where some line stands at depth one, if it is a
candidate and no deeper level whose width is one has more lines than the first. -/
theorem pickSize_eq_iff (hindent : 0 < o.indentSize) (hspaces : o.useSpaces = true)
    (hleads : Indentation.leads source = rows.map fun row => Row.lead o row.depth)
    (hfirst : ∃ row ∈ rows, row.depth = 1) :
    pickSize (widthVotes source) = o.indentSize.toNat ↔ o.indentSize.toNat ∈ candidateSizes ∧
      ∀ depth, 2 ≤ depth → depth * o.indentSize.toNat ∈ candidateSizes →
        rows.countP (·.depth = depth) ≤ rows.countP (·.depth = 1) := by
  obtain ⟨hdefault, hmost⟩ := pickSize_spec (widthVotes source)
  have hlevel {depth : Nat} (hdepth : 0 < depth) :=
    widthVotes_level hindent hspaces hleads hdepth
  have hone : widthVotes source o.indentSize.toNat = rows.countP (·.depth = 1) := by
    simpa using hlevel Nat.one_pos
  have hpos : 0 < widthVotes source o.indentSize.toNat := by
    rw [hone, List.countP_pos_iff]
    simpa using hfirst
  constructor
  · intro hpick
    have hsome : ∃ size ∈ candidateSizes, 0 < widthVotes source size := by
      refine Classical.byContradiction fun hno => ?_
      have hfour := hdefault fun size hsize =>
        Nat.eq_zero_of_not_pos fun hvoted => hno ⟨size, hsize, hvoted⟩
      exact hno ⟨o.indentSize.toNat, by rw [← hpick, hfour]; decide, hpos⟩
    have hvoted : MostVoted (widthVotes source) o.indentSize.toNat := hpick ▸ hmost hsome
    refine ⟨hvoted.1, fun depth hdepth hcandidate => ?_⟩
    have hless := hvoted.2 _ hcandidate
    rw [hlevel (by omega), hone] at hless
    omega
  · rintro ⟨hcandidate, hdeeper⟩
    refine pickSize_eq ⟨hcandidate, fun other hother => ?_⟩ hpos
    rcases Nat.eq_zero_or_pos (widthVotes source other) with hnone | hvoted
    · exact .inl (by omega)
    · obtain ⟨depth, hdepth, rfl⟩ := exists_level hspaces hleads hvoted
      rcases Nat.lt_or_eq_of_le hdepth with hdeep | rfl
      · have hless := hdeeper depth hdeep hother
        have hwider : o.indentSize.toNat ≤ depth * o.indentSize.toNat :=
          Nat.le_mul_of_pos_left _ hdepth
        rw [hlevel hdepth, hone]
        omega
      · exact .inr ⟨by simp, by simp⟩

/-- **Where lines vote by their depths**, some line at depth one among them, the votes are for
the unit of the lines if it is a tab, or if it is some spaces and their width is picked. -/
theorem votesFor_iff (hindent : 0 < o.indentSize)
    (hleads : Indentation.leads source = rows.map fun row => Row.lead o row.depth)
    (hfirst : ∃ row ∈ rows, row.depth = 1) :
    VotesFor source o ↔ (o.useSpaces = true → o.indentSize.toNat ∈ candidateSizes ∧
      ∀ depth, 2 ≤ depth → depth * o.indentSize.toNat ∈ candidateSizes →
        rows.countP (·.depth = depth) ≤ rows.countP (·.depth = 1)) := by
  rw [VotesFor]
  cases huse : o.useSpaces with
  | true =>
      rw [tabVotes_of_spaces huse hleads, pickSize_eq_iff hindent huse hleads hfirst]
      simp
  | false =>
      have hvotes := votes_pos hleads hfirst
      rw [spaceVotes_of_tabs huse hleads] at hvotes ⊢
      simpa using hvotes

end Levels

end TemplateFormat.Layout
