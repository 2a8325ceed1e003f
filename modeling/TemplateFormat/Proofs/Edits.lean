import TemplateFormat.Editor.Session
import TemplateFormat.Proofs.Edges
import TemplateFormat.Proofs.Positions
import TemplateFormat.Proofs.Redetection

/-!
# The edits that format a document

An editor applies an edit to the part of the document that it reads in the span of the
edit.  The server computes the edit from the part that its own walk finds in the span.
For a whole document the two are the same.  For a span they differ by line ends at its
edges, and this shows in two ways only: the server takes a span to be formatted that
starts past the end of its line, and it puts a newline behind a span that ends past the
end of its line.

* `applyEdits` — what an editor makes of a document;
* `formatPart_eq` — the edits of the server;
* `formatting_whole` — those for a whole document make it the formatted document;
* `rangeFormatting_iff` — those for a span make the selected text the formatted text
  exactly if neither happens.
-/

namespace TemplateFormat.Editor

open Text Layout

/-! ## Applying edits -/

/-- The part of a document that an editor selects by a span. -/
def Span.selected (span : Span) (doc : Text) : Text :=
  (span.stop.lead doc).drop (span.start.lead doc).length

/-- The document with the selected part replaced. -/
def Edit.apply (edit : Edit) (doc : Text) : Text :=
  edit.span.start.lead doc ++ edit.newText ++ doc.drop (edit.span.stop.lead doc).length

/-- The document with all edits applied.  They stand in the order of their spans, so the
last is applied first and does not move the others. -/
def applyEdits (edits : List Edit) (doc : Text) : Text := edits.foldr Edit.apply doc

/-- A position is given by its coordinates. -/
theorem of_toNat {p : Position} (hline : 0 ≤ p.line) (hcharacter : 0 ≤ p.character) :
    Position.of p.line.toNat p.character.toNat = p := by
  rw [Position.of, Int.toNat_of_nonneg hline, Int.toNat_of_nonneg hcharacter]

/-- A later position has at least as much of the document before it. -/
theorem lead_mono {p q : Position} (hline : 0 ≤ p.line) (horder : q.before p = false)
    (doc : Text) : p.lead doc <+: q.lead doc := by
  apply leadIn_mono
  rw [← Bool.not_eq_true, before_iff] at horder
  omega

/-- A document is cut in three by a span. -/
theorem split_selected {span : Span} {doc : Text}
    (h : span.start.lead doc <+: span.stop.lead doc) :
    doc = span.start.lead doc ++ span.selected doc ++
      doc.drop (span.stop.lead doc).length := by
  have hfront : span.start.lead doc ++ span.selected doc = span.stop.lead doc :=
    List.prefix_iff_eq_append.mp h
  rw [hfront]
  exact (List.prefix_iff_eq_append.mp (prefix_lead doc span.stop)).symm

/-! ## Two readings of a span

What the walk and an editor find in a span differs by line ends at its two edges; between
them lies what both find. -/

/-- How the start of what an editor selects, `selected`, compares with `mid`, which starts
where the walk does; `past` tells that the span starts past the end of its line. -/
inductive Front (mid selected : Text) (past : Bool) : Prop
  | same (same : mid = selected) (inside : past = false)
  | more (r : Glyph) (ends : endsLine r = true) (more : selected = r :: mid)
      (outside : past = true)
  | less (less : mid = .char '\n' :: selected) (inside : past = false)

/-- How the end of what the walk passes, `part`, compares with `mid`, which ends where the
selection of an editor does; `past` tells that the span ends past the end of its line. -/
inductive Back (part mid : Text) (past : Bool) : Prop
  | same (same : part = mid) (inside : past = false)
  | more (r : Glyph) (ends : endsLine r = true) (more : part = mid ++ [r])
      (outside : past = true)
  | less (less : mid = part ++ [.char '\n']) (last : part.getLast? = some (.char '\r'))
      (inside : past = false)

/-- Line ends are blank. -/
theorem isBlank_of_endsLine {r : Glyph} (h : endsLine r = true) : r.isBlank = true := by
  simp only [endsLine, Bool.or_eq_true, decide_eq_true_eq] at h
  rcases h with rfl | rfl <;> rfl

/-- The walk passes the glyphs before a position that are not blank. -/
theorem Strays.strip_eq {walked lead : Text} {past : Bool} (h : Strays walked lead past) :
    strip walked = strip lead := by
  cases h with
  | not same => rw [same]
  | beyond r ends more =>
      rw [more, strip_append, strip_cons_of_blank [] (isBlank_of_endsLine ends), strip_nil,
        List.append_nil]
  | between head less more =>
      rw [less, more, strip_append, strip_append]
      rfl

/-- The part of a document in a span, as it is walked. -/
theorem slice_of_walked {span : Span} {doc part : Text}
    (h : walked span.stop {} false doc = walked span.start {} false doc ++ part) :
    span.slice doc = part := by
  obtain ⟨rest, hrest⟩ := prefix_walked span.stop {} false doc
  have hdoc : walked span.start {} false doc ++ part ++ rest = doc := by rw [← h, hrest]
  have hslice := slice_append (walked span.start {} false doc) part rest
  rw [hdoc] at hslice
  unfold Span.slice
  simp only [toOffset_eq, h, width_append, Nat.min_eq_left (Nat.le_add_right _ _),
    Nat.max_eq_right (Nat.le_add_right _ _)]
  exact hslice

/-- The walk and an editor compared at both ends of a span. -/
theorem strays_readings {span : Span} (hstart : 0 ≤ span.start.line ∧ 0 ≤ span.start.character)
    (hstop : 0 ≤ span.stop.line ∧ 0 ≤ span.stop.character)
    (horder : span.stop.before span.start = false) (doc : Text) :
    let a := walked span.start {} false doc
    let a' := span.start.lead doc
    Strays a a' (span.start.overshoots doc) ∧
      Strays (a ++ span.slice doc) (a' ++ span.selected doc) (span.stop.overshoots doc) := by
  intro a a'
  have hstrays : ∀ p : Position, 0 ≤ p.line → 0 ≤ p.character →
      Strays (walked p {} false doc) (p.lead doc) (p.overshoots doc) := by
    intro p hline hcharacter
    rw [← of_toNat hline hcharacter]
    exact strays_walked doc _ _
  obtain ⟨part, hpart⟩ := walked_mono horder {} false doc
  have hselected : a' ++ span.selected doc = span.stop.lead doc :=
    List.prefix_iff_eq_append.mp (lead_mono hstart.1 horder doc)
  rw [slice_of_walked hpart.symm, hpart, hselected]
  exact ⟨hstrays _ hstart.1 hstart.2, hstrays _ hstop.1 hstop.2⟩

/-- Replacements of the selected part are told apart by the document they make. -/
theorem apply_inj {span : Span} {doc t t' : Text} :
    Edit.apply { span, newText := t } doc = Edit.apply { span, newText := t' } doc ↔ t = t' := by
  simp [Edit.apply]

/-- A replacement that leaves the document as it is puts the selected part back. -/
theorem eq_apply_iff {span : Span} {doc t : Text}
    (h : span.start.lead doc <+: span.stop.lead doc) :
    doc = Edit.apply { span, newText := t } doc ↔ span.selected doc = t := by
  have hkeep : doc = Edit.apply { span, newText := span.selected doc } doc := split_selected h
  calc doc = Edit.apply { span, newText := t } doc
      ↔ Edit.apply { span, newText := span.selected doc } doc =
          Edit.apply { span, newText := t } doc := by rw [← hkeep]
    _ ↔ span.selected doc = t := apply_inj

section Readings

variable {doc a a' part selected : Text} {past past' : Bool}

/-- The two readings hold the same glyphs that are not blank. -/
theorem strip_readings (hstart : Strays a a' past)
    (hstop : Strays (a ++ part) (a' ++ selected) past') :
    strip part = strip selected := by
  have hink := hstop.strip_eq
  rw [strip_append, strip_append, hstart.strip_eq] at hink
  exact List.append_cancel_left hink

/-- The two readings are blank together. -/
theorem isBlank_readings (hstart : Strays a a' past)
    (hstop : Strays (a ++ part) (a' ++ selected) past') : part.isBlank = selected.isBlank := by
  rw [Bool.eq_iff_iff, Text.isBlank, Text.isBlank, List.all_eq_true, List.all_eq_true,
    ← strip_eq_nil_iff, ← strip_eq_nil_iff, strip_readings hstart hstop]

/-- **The two readings of a span** that is not blank, compared at both edges. -/
theorem exists_between (hstart : Strays a a' past)
    (hstop : Strays (a ++ part) (a' ++ selected) past') (hdoc : a <+: doc)
    (hdoc' : a' ++ selected <+: doc) (hink : strip selected ≠ []) :
    ∃ mid, Front mid selected past ∧ Back part mid past' := by
  have hpart := strip_readings hstart hstop
  -- the selection ends behind the start of the walk, since it is not blank
  obtain ⟨mid, hmid⟩ : a <+: a' ++ selected := by
    rcases List.prefix_or_prefix_of_prefix hdoc hdoc' with h | ⟨t, ht⟩
    · exact h
    · have hsame := hstop.strip_eq
      rw [strip_append, ← ht, strip_append, List.append_assoc] at hsame
      have hnil := List.append_right_eq_self.mp hsame
      exact absurd (hpart ▸ (List.append_eq_nil_iff.mp hnil).2) hink
  refine ⟨mid, ?_, ?_⟩
  · cases hstart with
    | not same inside =>
        rw [same] at hmid
        exact .same (List.append_cancel_left hmid) inside
    | beyond r ends more outside =>
        rw [more, List.append_assoc] at hmid
        exact .more r ends (List.append_cancel_left hmid).symm outside
    | between head less more inside =>
        rw [less, more, List.append_assoc, List.append_assoc] at hmid
        exact .less (List.cons.inj (List.append_cancel_left hmid)).2 inside
  · rw [← hmid] at hstop
    cases hstop with
    | not same inside => exact .same (List.append_cancel_left same) inside
    | beyond r ends more outside =>
        rw [List.append_assoc] at more
        exact .more r ends (List.append_cancel_left more) outside
    | between head less more inside =>
        have hmore : a ++ mid = a ++ (part ++ [.char '\n']) := by
          rw [more, ← List.append_assoc, less]
          simp
        refine .less (List.append_cancel_left hmore) ?_ inside
        have hne : part ≠ [] := by
          intro hnil
          exact hink (by rw [← hpart, hnil, strip_nil])
        have hlast := congrArg List.getLast? less
        obtain ⟨body, last, rfl⟩ := (List.eq_nil_or_concat part).resolve_left hne
        simpa using hlast

/-- The line ends at the start do not matter to what lies between blanks. -/
theorem Front.trim_eq {mid : Text} (h : Front mid selected past) :
    (unifyLineEnds selected).trim = (unifyLineEnds mid).trim := by
  have hblank : ∀ {r : Glyph} (s : Text), r.isBlank = true →
      (unifyLineEnds (r :: s)).trim = (unifyLineEnds s).trim := by
    intro r s hr
    simpa using trim_unifyLineEnds (a := [r]) (b := []) (by simpa using hr) (by simp) s
  cases h with
  | same same => rw [same]
  | more r ends more => rw [more, hblank mid (isBlank_of_endsLine ends)]
  | less less => rw [less, hblank selected rfl]

/-- The line ends at the end do not matter to what lies between blanks. -/
theorem Back.trim_eq {mid : Text} (h : Back part mid past) :
    (unifyLineEnds part).trim = (unifyLineEnds mid).trim := by
  have hblank : ∀ {r : Glyph} (s : Text), r.isBlank = true →
      (unifyLineEnds (s ++ [r])).trim = (unifyLineEnds s).trim := by
    intro r s hr
    simpa using trim_unifyLineEnds (a := []) (b := [r]) (by simp) (by simpa using hr) s
  cases h with
  | same same => rw [same]
  | more r ends more => rw [more, hblank mid (isBlank_of_endsLine ends)]
  | less less => rw [less, hblank part rfl]

/-- The two readings of a span that is not blank end alike. -/
theorem Front.getLast?_eq {mid : Text} (h : Front mid selected past)
    (hselected : selected.isBlank = false) : mid.getLast? = selected.getLast? := by
  cases h with
  | same same => rw [same]
  | more r ends more =>
      cases mid with
      | nil => simp [more, Text.isBlank, isBlank_of_endsLine ends] at hselected
      | cons b t => rw [more, List.getLast?_cons_cons]
  | less less =>
      cases selected with
      | nil => cases hselected
      | cons b t => rw [less, List.getLast?_cons_cons]

/-- The layout of a source, and the newline behind it. -/
theorem layout_eq (o : Options) (source : Text) :
    layout o source = (Printer.ofSource o (unifyLineEnds source).trim).print ++
      if source.getLast?.any endsLine then [.char '\n'] else [] := by
  have hends : (unifyLineEnds source).endsWith [.char '\n'] = source.getLast?.any endsLine := by
    rw [Bool.eq_iff_iff, endsWith_unifyLineEnds]
    cases source.getLast? <;> simp [endsLine]
  rw [layout, hends]
  split <;> simp

/-- A trimmed text does not end in a line end. -/
theorem any_endsLine_of_trimmed {s : Text} (h : Trimmed s) : s.getLast?.any endsLine = false := by
  cases hlast : s.getLast? with
  | none => rfl
  | some r =>
      rw [Option.any_some, ← Bool.not_eq_true]
      intro hends
      have hink := h.last r hlast
      rw [isBlank_of_endsLine hends] at hink
      cases hink

/-- **The two readings are laid out alike** unless the walk alone ends in a line end. -/
theorem layout_readings_iff {mid : Text} (o : Options) (hfront : Front mid selected past)
    (hback : Back part mid past') (hselected : selected.isBlank = false) :
    layout o part = layout o selected ↔
      (past' = true → selected.getLast?.any endsLine = true) := by
  have hnewline : ∀ b c : Bool, ((if b then [Glyph.char '\n'] else []) =
      if c then [.char '\n'] else []) ↔ b = c := by decide
  rw [layout_eq, layout_eq, hback.trim_eq, hfront.trim_eq, List.append_right_inj, hnewline,
    ← hfront.getLast?_eq hselected]
  cases hback with
  | same same inside => simp [same, inside]
  | more r ends more outside =>
      rw [more, List.getLast?_concat, Option.any_some, ends, outside, eq_comm]
      simp only [forall_const]
  | less less last inside => simp [less, last, inside, endsLine]

/-- **A span that the walk finds formatted** is formatted as an editor reads it, unless it
starts past the end of its line. -/
theorem layout_selected_iff {mid : Text} {o : Options} (hfront : Front mid selected past)
    (hback : Back part mid past') (hself : layout o part = part)
    (hselected : selected.isBlank = false) (hpart : part.isBlank = false) :
    layout o selected = selected ↔ past = false := by
  have htrim := trimmed_print_ofSource o (unifyLineEnds part)
  have hcore := hback.trim_eq
  have hlayout := layout_eq o part
  rw [hself] at hlayout
  cases hfront with
  | same same inside =>
      subst same
      refine iff_of_true ?_ inside
      cases hback with
      | same same => rwa [← same]
      | more r ends more =>
          -- the newline behind the layout is the line end that the editor leaves out
          rw [more, List.getLast?_concat, Option.any_some, ends, if_pos rfl, ← more] at hlayout
          obtain ⟨hmid, -⟩ := List.append_inj' (more.symm.trans hlayout) rfl
          rw [← hmid] at htrim
          rw [layout_eq, ← hcore, any_endsLine_of_trimmed htrim, ← hmid]
          simp
      | less less last =>
          rw [last, Option.any_some, if_pos (by rfl)] at hlayout
          rw [hlayout, List.getLast?_concat] at last
          cases last
  | more r ends more outside =>
      refine iff_of_false ?_ (by simp [outside])
      intro heq
      have hhead := head?_layout o hselected
      rw [heq, more] at hhead
      simp [isBlank_of_endsLine ends] at hhead
  | less less inside =>
      -- what the walk passes starts with a newline, so it is not formatted
      have hhead : part.head? = some (.char '\n') := by
        cases hback with
        | same same => rw [same, less]; rfl
        | more r ends more => rw [more, less]; rfl
        | less less' last =>
            obtain ⟨b, t, rfl⟩ := List.exists_cons_of_ne_nil
              (show part ≠ [] by intro hnil; rw [hnil] at last; cases last)
            rw [less, List.cons_append] at less'
            rw [(List.cons.inj less').1]
            rfl
      have hink := head?_layout o hpart _ (by rw [hself]; exact hhead)
      cases hink

end Readings

/-- **What an editor makes of an edit** that formats the part of a document which the walk
finds in a span: the selected text is replaced by the formatted text, but for the line
ends at the edges of the span. -/
theorem applied_iff {o : Options} (hindent : 0 < o.indentSize) (hthreshold : 0 < o.threshold)
    {span : Span} {doc : Text} (hstart : 0 ≤ span.start.line ∧ 0 ≤ span.start.character)
    (hstop : 0 ≤ span.stop.line ∧ 0 ≤ span.stop.character)
    (horder : span.stop.before span.start = false) {out : Text}
    (hout : format o (span.slice doc) = .ok out) :
    ∃ replaced, format o (span.selected doc) = .ok replaced ∧
      (applyEdits (if out = span.slice doc then [] else [{ span, newText := out }]) doc =
          Edit.apply { span, newText := replaced } doc ↔
        (span.selected doc).isBlank = true ∨
          ((format o (span.slice doc) = .ok (span.slice doc) →
              span.start.overshoots doc = false) ∧
            (format o (span.slice doc) ≠ .ok (span.slice doc) →
              span.stop.overshoots doc = true →
                (span.selected doc).getLast?.any endsLine = true))) := by
  obtain ⟨hstrays, hstrays'⟩ := strays_readings hstart hstop horder doc
  have hlead := lead_mono hstart.1 horder doc
  have hdoc : span.start.lead doc ++ span.selected doc <+: doc :=
    ⟨_, (split_selected hlead).symm⟩
  have hpart := isBlank_readings hstrays hstrays'
  cases hblank : (span.selected doc).isBlank with
  | true =>
      rw [hblank] at hpart
      have hself := format_eq_self hindent hthreshold hpart
      obtain rfl : span.slice doc = out := Except.ok.inj (hself.symm.trans hout)
      refine ⟨span.selected doc, format_eq_self hindent hthreshold hblank, ?_⟩
      rw [if_pos rfl]
      exact iff_of_true ((eq_apply_iff hlead).mpr rfl) (.inl rfl)
  | false =>
      rw [hblank] at hpart
      have hlayout := format_eq_layout hindent hthreshold hpart
      obtain rfl : layout o (span.slice doc) = out := Except.ok.inj (hlayout.symm.trans hout)
      obtain ⟨mid, hfront, hback⟩ := exists_between hstrays hstrays'
        (prefix_walked span.start {} false doc) hdoc (strip_ne_nil hblank)
      refine ⟨_, format_eq_layout hindent hthreshold hblank, ?_⟩
      rw [hlayout]
      by_cases hsame : layout o (span.slice doc) = span.slice doc
      · rw [if_pos hsame, applyEdits, List.foldr_nil, eq_apply_iff hlead, eq_comm,
          layout_selected_iff hfront hback hsame hblank hpart]
        simp [hsame]
      · rw [if_neg hsame, applyEdits, List.foldr_cons, List.foldr_nil, apply_inj,
          layout_readings_iff o hfront hback hblank]
        simp [hsame]

/-! ## The edits of the server -/

namespace Session

/-- Resolved options are valid. -/
theorem options_valid {ws : Workspace} {f : Formatting} {content : Text} {o : Options}
    (h : (options ws f content).1 = some o) : 0 < o.indentSize ∧ 0 < o.threshold := by
  rw [options] at h
  simp only at h
  split at h
  · next hoptions =>
      cases h
      exact (Settings.options_eq_ok hoptions).2
  · cases h

/-- **The edits that format a part of a document**: the formatted part in place of it, or
none if it is formatted. -/
theorem formatPart_eq {s : Session} {ws : Workspace} {f : Formatting} {content : Text}
    {o : Options} (hdoc : s.documents.lookup f.uri = some content)
    (hoptions : (options ws f content).1 = some o) (unknown : String)
    (select : Text → Span × Text) :
    ∃ out, format o (select content).2 = .ok out ∧
      (s.formatPart ws f unknown select).1 =
        if out = (select content).2 then []
        else [{ span := (select content).1, newText := out }] := by
  obtain ⟨hindent, hthreshold⟩ := options_valid hoptions
  obtain ⟨out, hout, -⟩ := strip_format hindent hthreshold (select content).2
  refine ⟨out, hout, ?_⟩
  have hcompared : formatCompared o (select content).2 =
      .ok { content := out, changed := out != (select content).2 } := by
    rw [formatCompared, hout]
    rfl
  unfold formatPart
  rw [hdoc]
  cases hresolved : options ws f content with
  | mk resolved ws' =>
      rw [hresolved] at hoptions
      obtain rfl : resolved = some o := hoptions
      simp only [hresolved, editsFor, hcompared, bne_iff_ne, ne_eq, ite_not]

/-- How a request is answered while the session is open and not shut down. -/
theorem handle_of_method {s : Session} (hopen : s.isClosed = false)
    (hserves : s.isShutDown = false) (ws : Workspace) {r : Request} {method : Method}
    (hmethod : Method.ofName? r.method = some method)
    (hstays : (s.call (ws.log .server (text "<- " ++ r.method)) method r.params).2.1 = s) :
    (s.handle ws r).1 =
      some (s.call (ws.log .server (text "<- " ++ r.method)) method r.params).1 := by
  simp [handle, reply, hopen, hserves, hmethod, hstays]

/-- **The edits for a whole document.**  The span of a document is all of it: it ends in
the line behind the last line end, behind all units of that line.  Where the options are
resolved, the edits make the document the formatted document, and there are none exactly
if it is formatted. -/
theorem formatting_whole {s : Session} (hopen : s.isClosed = false)
    (hserves : s.isShutDown = false) {ws : Workspace} {r : Request} {f : Formatting}
    {content : Text} {o : Options} (hmethod : r.method = text "textDocument/formatting")
    (hparams : r.params.bind (Formatting.reader {}) = some f)
    (hdoc : s.documents.lookup f.uri = some content)
    (hoptions : (options (ws.log .server (text "<- " ++ r.method)) f content).1 = some o) :
    Span.whole content =
        { start := .of 0 0, stop := .of (lineEnds content) (units (lastLine content)) } ∧
      (Span.whole content).selected content = content ∧
      ∃ edits out, (s.handle ws r).1 = some (.ok (.edits edits)) ∧
        format o content = .ok out ∧ applyEdits edits content = out ∧
        (edits = [] ↔ out = content) := by
  have hspan : Span.whole content =
      { start := .of 0 0, stop := .of (lineEnds content) (units (lastLine content)) } := by
    rw [Span.whole, ofOffset_width]
    rfl
  have hstart : (Span.whole content).start.lead content = [] := by rw [hspan, lead_start]
  have hstop : (Span.whole content).stop.lead content = content := by rw [hspan, lead_end]
  have hname : Method.ofName? r.method = some .formatting := by rw [hmethod]; decide +kernel
  obtain ⟨out, hout, hedits⟩ := formatPart_eq hdoc hoptions "formatting" fun doc =>
    (Span.whole doc, doc)
  have hreply : (s.handle ws r).1 = some (.ok (.edits
      (if out = content then [] else [{ span := Span.whole content, newText := out }]))) := by
    rw [handle_of_method hopen hserves ws hname (by simp [call, hparams])]
    simp only [call, hparams, hedits]
  refine ⟨hspan, by rw [Span.selected, hstart, hstop]; rfl, _, out, hreply, hout, ?_, ?_⟩
  · split
    · next hsame => exact hsame.symm
    · simp [applyEdits, Edit.apply, hstart, hstop]
  · by_cases hsame : out = content <;> simp [hsame]

/-- A document with two kinds of line ends and a last line of two units. -/
theorem formatting_whole_mixed :
    let uri := text "untitled:a"
    let content := text "<p> a </p>\r\n<b>b</b>\r😀"
    let s : Session := { documents := [(uri, content)] }
    let r : Request := {
      method := text "textDocument/formatting"
      params := some (.object [(text "textDocument", .object [(text "uri", .string uri)]),
        (text "options", .object [(text "tabSize", .number (text "2")),
          (text "insertSpaces", .bool true)])]) }
    Span.whole content = { stop := .of 2 2 } ∧
      ∃ edits, (s.handle {} r).1 = some (.ok (.edits edits)) ∧
        applyEdits edits content = text "<p>a</p>\n<b>b</b>\n😀" := by
  intro uri content s r
  obtain ⟨hspan, -, edits, out, hreply, hout, happlied, -⟩ :=
    @formatting_whole s rfl rfl {} r { uri, tabSize := 2, insertSpaces := true } content
      { indentSize := 2 } rfl (by decide +kernel) (by decide +kernel) (by decide +kernel)
  have hlayout : layout { indentSize := 2 } content = text "<p>a</p>\n<b>b</b>\n😀" := by
    decide +kernel
  rw [format_eq_layout (by decide) (by decide) (by decide), hlayout] at hout
  obtain rfl := Except.ok.inj hout
  exact ⟨hspan, edits, hreply, happlied⟩

/-- **The edits for a span of a document.**  Where the options are resolved, the edits
replace the selected text by the formatted text exactly if it is blank, or nothing is to
be changed and the span does not start past the end of its line, or something is, and
the span does not end past the end of its line, unless the selected text ends in a line
end. -/
theorem rangeFormatting_iff {s : Session} (hopen : s.isClosed = false)
    (hserves : s.isShutDown = false) {ws : Workspace} {r : Request} {f : Formatting}
    {content : Text} {o : Options} (hmethod : r.method = text "textDocument/rangeFormatting")
    (hparams : r.params.bind (Formatting.spanReader {}) = some f)
    (hdoc : s.documents.lookup f.uri = some content)
    (hoptions : (options (ws.log .server (text "<- " ++ r.method)) f content).1 = some o)
    (hstart : 0 ≤ f.span.start.line ∧ 0 ≤ f.span.start.character)
    (hstop : 0 ≤ f.span.stop.line ∧ 0 ≤ f.span.stop.character)
    (horder : f.span.stop.before f.span.start = false) :
    ∃ edits out, (s.handle ws r).1 = some (.ok (.edits edits)) ∧
      format o (f.span.selected content) = .ok out ∧
      (applyEdits edits content = Edit.apply { span := f.span, newText := out } content ↔
        (f.span.selected content).isBlank = true ∨
          ((format o (f.span.slice content) = .ok (f.span.slice content) →
              f.span.start.overshoots content = false) ∧
            (format o (f.span.slice content) ≠ .ok (f.span.slice content) →
              f.span.stop.overshoots content = true →
                (f.span.selected content).getLast?.any endsLine = true))) := by
  obtain ⟨hindent, hthreshold⟩ := options_valid hoptions
  have hname : Method.ofName? r.method = some .rangeFormatting := by rw [hmethod]; decide +kernel
  obtain ⟨out, hout, hedits⟩ := formatPart_eq hdoc hoptions "range formatting" fun doc =>
    (f.span, f.span.slice doc)
  have hreply : (s.handle ws r).1 = some (.ok (.edits (if out = f.span.slice content then []
      else [{ span := f.span, newText := out }]))) := by
    rw [handle_of_method hopen hserves ws hname (by simp [call, hparams])]
    simp only [call, hparams, hedits]
  obtain ⟨replaced, hreplaced, hiff⟩ := applied_iff hindent hthreshold hstart hstop horder hout
  exact ⟨_, replaced, hreply, hreplaced, hiff⟩

/-- The first line of a document, selected up to its end. -/
theorem rangeFormatting_line :
    let uri := text "untitled:a"
    let content := text "<p> a </p>\n<p>b</p>"
    let s : Session := { documents := [(uri, content)] }
    let r : Request := {
      method := text "textDocument/rangeFormatting"
      params := some (.object [(text "textDocument", .object [(text "uri", .string uri)]),
        (text "range", .object [(text "end", .object
          [(text "character", .number (text "10"))])])]) }
    ∃ edits, (s.handle {} r).1 = some (.ok (.edits edits)) ∧
      applyEdits edits content = text "<p>a</p>\n<p>b</p>" := by
  intro uri content s r
  have hselected : Span.selected { stop := { character := 10 } } content = text "<p> a </p>" := by
    decide +kernel
  have hlayout : layout {} (text "<p> a </p>") = text "<p>a</p>" := by decide +kernel
  obtain ⟨edits, out, hreply, hout, hiff⟩ :=
    @rangeFormatting_iff s rfl rfl {} r { uri, span := { stop := { character := 10 } } } content
      {} rfl (by decide +kernel) (by decide +kernel) (by decide +kernel) (by decide) (by decide)
      (by decide)
  rw [hselected, format_eq_layout (by decide) (by decide) (by decide), hlayout] at hout
  obtain rfl := Except.ok.inj hout
  refine ⟨edits, hreply, ?_⟩
  rw [hiff.mpr (.inr ⟨fun _ => by decide +kernel, fun _ h => absurd h (by decide +kernel)⟩)]
  decide +kernel

/-- The same line, selected past its end: the line end is formatted along with it, and is
then there twice. -/
theorem rangeFormatting_past_end :
    let uri := text "untitled:a"
    let content := text "<p> a </p>\n<p>b</p>"
    let span : Span := { stop := { character := 100 } }
    let s : Session := { documents := [(uri, content)] }
    let r : Request := {
      method := text "textDocument/rangeFormatting"
      params := some (.object [(text "textDocument", .object [(text "uri", .string uri)]),
        (text "range", .object [(text "end", .object
          [(text "character", .number (text "100"))])]),
        (text "options", .object [(text "tabSize", .number (text "4")),
          (text "insertSpaces", .bool true)])]) }
    span.selected content = text "<p> a </p>" ∧
      format {} (text "<p> a </p>") = .ok (text "<p>a</p>") ∧
      ∃ edits, (s.handle {} r).1 = some (.ok (.edits edits)) ∧
        applyEdits edits content = text "<p>a</p>\n\n<p>b</p>" ∧
        applyEdits edits content ≠ Edit.apply { span, newText := text "<p>a</p>" } content := by
  intro uri content span s r
  let f : Formatting := { uri, tabSize := 4, insertSpaces := true, span }
  have hparams : r.params.bind (Formatting.spanReader {}) = some f := by decide +kernel
  have hline : layout {} (text "<p> a </p>") = text "<p>a</p>" := by decide +kernel
  have hpart : layout {} (span.slice content) = text "<p>a</p>\n" := by decide +kernel
  obtain ⟨out, hout, hedits⟩ := @formatPart_eq s ({} : Workspace) f content {}
    (by decide +kernel) (by decide +kernel) "range formatting" fun doc => (span, span.slice doc)
  rw [format_eq_layout (by decide) (by decide) (by decide +kernel), hpart] at hout
  obtain rfl := Except.ok.inj hout
  rw [if_neg (by decide +kernel)] at hedits
  refine ⟨by decide +kernel, ?_, [{ span, newText := text "<p>a</p>\n" }], ?_, by decide +kernel,
    by decide +kernel⟩
  · rw [format_eq_layout (by decide) (by decide) (by decide), hline]
  · have hname : Method.ofName? r.method = some .rangeFormatting := by decide +kernel
    rw [handle_of_method rfl rfl {} hname (by simp [call, hparams])]
    simp only [call, hparams]
    exact congrArg (fun edits => some (Except.ok (Answer.edits edits))) hedits

end Session

end TemplateFormat.Editor
