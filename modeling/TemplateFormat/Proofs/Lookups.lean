import TemplateFormat.Proofs.Keys
import TemplateFormat.Proofs.Pairing

/-!
# Rebuilt elements are found in the source

The printer asks the source index how an element was written, with a line that it
rebuilt from tokens.  The index knows the element under its squashed source, and
rebuilding changes nothing but white space, so every such line is found under its
key: the search among look-alikes is never needed.

* `Rebuilt` — the lines that a merge asks about, and `Rebuilt.strip_line`, their glyphs;
* `Rebuilt.exists_element`, `Rebuilt.finds` — a rebuilt line is the key of an element;
* `step_withTables`, `run_withTables` — so a layout reads nothing else of the index, and the
  elements under their names not at all;
* `written_rebuilt` — all of it for the layout of a source.
-/

namespace TemplateFormat.Layout

open Text Markup

namespace SourceIndex

/-- The index with other tables of keys and of names. -/
def withTables (ix : SourceIndex) (keys : FirstTable) (names : NameTable) : SourceIndex :=
  { ix with byKey := keys, byName := names }

/-- Whether a line is answered under its key, and in the same way by another table. -/
def Agrees (ix : SourceIndex) (keys : FirstTable) (line : Text) : Prop :=
  ix.Finds line ∧ keys.lookup line.squash = ix.byKey.lookup line.squash

/-- A line that is found under its key is looked for nowhere else. -/
theorem written_withTables {ix : SourceIndex} {keys : FirstTable} {line : Text}
    (h : ix.Agrees keys line) (names : NameTable) (memo : Memo) :
    (ix.withTables keys names).written line memo = ix.written line memo ∧
      (ix.written line memo).2 = memo := by
  obtain ⟨⟨hink, first, hfirst⟩, hkeys⟩ := h
  have hother : (ix.withTables keys names).byKey.lookup line.squash = some first :=
    hkeys.trans hfirst
  rw [written_of_lookup hink hfirst, written_of_lookup hink hother]
  exact ⟨rfl, rfl⟩

end SourceIndex

/-! ## Rebuilt lines -/

/-- **The lines that a merge asks about**: at the start tag `tok` before the tokens `after`,
those that it rebuilds from the tag, the tokens `inner` and the closing tag it reached. -/
inductive Rebuilt (ix : SourceIndex) (tok : Token) (after : List Token) :
    (inner : List Token) → (closing : Token) → (line : Text) → Prop
  /-- What a content merge looks up to see how the parts were joined. -/
  | joined {parts : List Token} {closing : Token}
      (h : gather tok.name [] (after.take (contentWindow - 1)) = some (parts, closing)) :
      Rebuilt ix tok after parts closing
        (tok.literal ++ (parts.map renderInline).flatten ++ closing.literal)
  /-- What a content merge would write. -/
  | built {parts : List Token} {closing : Token} (memo : SourceIndex.Memo)
      (h : gather tok.name [] (after.take (contentWindow - 1)) = some (parts, closing)) :
      Rebuilt ix tok after parts closing
        (buildElement ix tok.literal parts closing.literal memo).1
  /-- What a tight merge would write. -/
  | flattened {inner rest : List Token} {closing : Token}
      (h : closerIndex? tok.name 0 0 (after.take (tightWindow - 1)) = some inner.length)
      (hafter : after = inner ++ closing :: rest) :
      Rebuilt ix tok after inner closing (flatten (tok :: (inner ++ [closing])))
  /-- A line is trimmed before it is weighed. -/
  | trimmed {inner : List Token} {closing : Token} {line : Text}
      (h : Rebuilt ix tok after inner closing line) : Rebuilt ix tok after inner closing line.trim

namespace Rebuilt

variable {ix : SourceIndex} {tok closing : Token} {after inner : List Token} {line : Text}

/-- A content merge ends with the closing tag that it reaches, which is near. -/
theorem reaches_of_gather
    (h : gather tok.name [] (after.take (contentWindow - 1)) = some (inner, closing)) :
    (∃ rest, after = inner ++ closing :: rest) ∧
      closerIndex? tok.name 0 0 after = some inner.length ∧
      inner.length + 1 < max tightWindow contentWindow := by
  obtain ⟨found, rest, hparts, htake, -⟩ := gather_eq_some h
  obtain rfl : inner = found := by simpa using hparts
  obtain ⟨later, hlater⟩ : ∃ later, after = (inner ++ [closing]) ++ later :=
    eq_append_of_take (by simpa using htake)
  refine ⟨⟨later, by simpa using hlater⟩, closerIndex?_of_window (closerIndex?_of_gather h), ?_⟩
  have hnear := congrArg List.length htake
  simp only [List.length_take, List.length_append, List.length_cons, contentWindow] at hnear
  simp only [tightWindow, contentWindow]
  omega

/-- So does every rebuilt line. -/
theorem reaches (h : Rebuilt ix tok after inner closing line) :
    (∃ rest, after = inner ++ closing :: rest) ∧
      closerIndex? tok.name 0 0 after = some inner.length ∧
      inner.length + 1 < max tightWindow contentWindow := by
  induction h with
  | joined hgather => exact reaches_of_gather hgather
  | built memo hgather => exact reaches_of_gather hgather
  | flattened hfound hafter =>
      obtain ⟨inner', closing', rest, htake, hlength, -⟩ := closerIndex?_eq_some hfound
      refine ⟨⟨_, hafter⟩, closerIndex?_of_window hfound, ?_⟩
      have hnear := congrArg List.length htake
      simp only [List.length_take, List.length_append, List.length_cons] at hnear
      simp only [tightWindow, contentWindow] at hnear ⊢
      omega
  | trimmed h ih => exact ih

/-- **Rebuilding keeps the glyphs** of the tokens. -/
theorem strip_line (h : Rebuilt ix tok after inner closing line) :
    strip line = Token.ink (tok :: (inner ++ [closing])) := by
  induction h with
  | joined => simp [strip_renderings]
  | @built closing memo =>
      obtain ⟨content, hcontent, hline⟩ :=
        buildElement_eq ix tok.literal inner closing.literal memo
      simp [hline, strip_joined hcontent]
  | flattened => rw [strip_flatten, strip_renderings]
  | trimmed h ih => rw [strip_trim, ih]

/-- **A rebuilt line is the key of an element**, the one whose tags it was rebuilt from. -/
theorem exists_element {source : Text} {before : List Token}
    (h : Rebuilt ix tok after inner closing line)
    (htokens : Token.scan source = before ++ tok :: after) (hstart : tok.isStartTag = true)
    (hchildren : tok.isChildless = false) :
    ∃ e ∈ Element.all source (Token.scan source), e.opening.token = tok ∧
      e.closing.token = closing ∧ e.opening.index = before.length ∧
      e.closing.index = before.length + 1 + inner.length ∧ e.HasKey line.squash := by
  obtain ⟨⟨rest, hafter⟩, hfound, hnear⟩ := h.reaches
  obtain ⟨e, he, hopening, hfirst, hlast, inner', rest', hafter', hlength⟩ :=
    Element.exists_element htokens hstart hchildren hfound
  obtain ⟨rfl, hsame⟩ := List.append_inj (hafter.symm.trans hafter') hlength.symm
  obtain ⟨rfl, -⟩ := List.cons.inj hsame
  refine ⟨e, he, hopening, rfl, hfirst, hlast, ?_, ?_⟩
  · rw [Element.isReachable, hfirst, hlast]
    simp only [decide_eq_true_eq]
    omega
  · have hbetween : strip e.whole = strip line := by
      rw [hafter] at htokens
      rw [(Element.whole_eq he).1, h.strip_line, ← strip_between htokens, Element.start, hopening]
      rfl
    rw [squash_eq, hbetween, squash_eq]

/-- **Rebuilt lines are found** under their keys. -/
theorem finds {source : Text} {before : List Token}
    (h : Rebuilt ix tok after inner closing line)
    (htokens : Token.scan source = before ++ tok :: after) (hstart : tok.isStartTag = true)
    (hchildren : tok.isChildless = false) :
    (SourceIndex.build source (Token.scan source)).Finds line := by
  obtain ⟨e, he, -, -, -, -, hkey⟩ := h.exists_element htokens hstart hchildren
  constructor
  · have hmem : tok ∈ Token.scan source := by simp [htokens]
    have hink := (Token.spans_scan source).strip_literal hmem
    rw [h.strip_line, Token.ink_cons]
    simp [hink]
  · have hholds := SourceIndex.holds_byKey source (Token.scan source) line.squash
    cases hlookup : (SourceIndex.build source (Token.scan source)).byKey.lookup line.squash with
    | some first => exact ⟨first, rfl⟩
    | none =>
        rw [hlookup] at hholds
        exact absurd ⟨he, hkey⟩ (hholds e)

end Rebuilt

/-! ## What a layout reads of the index -/

/-- Whether an element was spread is read off the start tags, and no look-alike is
remembered. -/
theorem wasSpread_withTables (ix : SourceIndex) (keys : FirstTable) (names : NameTable)
    (line : Text) (memo : SourceIndex.Memo) :
    wasSpread (ix.withTables keys names) line memo = wasSpread ix line memo ∧
      (wasSpread ix line memo).2.resembling = memo.resembling := by
  refine ⟨rfl, ?_⟩
  rw [wasSpread]
  split
  · rfl
  · split
    · rfl
    · rw [SourceIndex.isSpread]
      split
      · rfl
      · split <;> rfl

/-- A line that is found is weighed by its key alone. -/
theorem keepInline_withTables (o : Options) {ix : SourceIndex} {keys : FirstTable} {line : Text}
    (h : ix.Agrees keys line.trim) (names : NameTable) (memo : SourceIndex.Memo) :
    keepInline o (ix.withTables keys names) line memo = keepInline o ix line memo ∧
      (keepInline o ix line memo).2.resembling = memo.resembling := by
  obtain ⟨hspread, hmemo⟩ := wasSpread_withTables ix keys names line memo
  have hwritten := fun memo => (SourceIndex.written_withTables h names memo).1
  unfold keepInline
  refine ⟨by simp only [hspread, hwritten], ?_⟩
  split
  · rfl
  · have hfirst : (if o.keepMultiline then wasSpread ix line memo
        else (false, memo)).2.resembling = memo.resembling := by
      split
      · exact hmemo
      · rfl
    generalize (if o.keepMultiline then wasSpread ix line memo else (false, memo)) = found
      at hfirst ⊢
    obtain ⟨spread, memo'⟩ := found
    dsimp only at hfirst ⊢
    split
    · exact hfirst
    · split
      · exact hfirst
      · have hasked : (if 2 * (line.trim.length : Int) ≤ 3 * o.threshold then
            ix.written line.trim memo' else (.absent, memo')).2 = memo' := by
          split
          · exact (SourceIndex.written_withTables h names memo').2
          · rfl
        generalize (if 2 * (line.trim.length : Int) ≤ 3 * o.threshold then
            ix.written line.trim memo' else (.absent, memo')) = asked at hasked ⊢
        split
        · rw [hasked]
          exact hfirst
        · rw [hasked]
          exact hfirst

/-- An element whose parts are found is built by its key alone. -/
theorem buildElement_withTables {ix : SourceIndex} {keys : FirstTable} {opening closing : Text}
    {parts : List Token}
    (h : ix.Agrees keys (opening ++ (parts.map renderInline).flatten ++ closing))
    (names : NameTable) (memo : SourceIndex.Memo) :
    buildElement (ix.withTables keys names) opening parts closing memo =
        buildElement ix opening parts closing memo ∧
      (buildElement ix opening parts closing memo).2 = memo := by
  obtain ⟨hwritten, hmemo⟩ := SourceIndex.written_withTables h names memo
  unfold buildElement
  refine ⟨by simp only [hwritten], ?_⟩
  split
  · rfl
  · exact hmemo

/-- The lines that are rebuilt at a token are found, and in the same way by another table. -/
def AllAgree (ix : SourceIndex) (keys : FirstTable) (tok : Token) (after : List Token) : Prop :=
  ∀ inner closing line, Rebuilt ix tok after inner closing line → ix.Agrees keys line

/-- Where rebuilt lines are found, a content merge reads nothing else of the tables. -/
theorem contentMerge_withTables (o : Options) {ix : SourceIndex} {keys : FirstTable} {tok : Token}
    {after : List Token} (h : AllAgree ix keys tok after) (names : NameTable)
    (memo : SourceIndex.Memo) :
    contentMerge o (ix.withTables keys names) tok after memo = contentMerge o ix tok after memo ∧
      (contentMerge o ix tok after memo).2.resembling = memo.resembling := by
  unfold contentMerge
  split
  · exact ⟨rfl, rfl⟩
  · next parts closing hgather =>
      obtain ⟨hbuild, hmemo⟩ := buildElement_withTables (h _ _ _ (.joined hgather)) names memo
      obtain ⟨hkeep, hkept⟩ := keepInline_withTables o
        (h _ _ _ (.trimmed (.built memo hgather))) names memo
      dsimp only
      rw [hbuild, hmemo, hkeep]
      exact ⟨rfl, hkept⟩

/-- So does a tight merge. -/
theorem tightMerge_withTables (o : Options) {ix : SourceIndex} {keys : FirstTable} {tok : Token}
    {after : List Token} (h : AllAgree ix keys tok after) (names : NameTable)
    (memo : SourceIndex.Memo) :
    tightMerge o (ix.withTables keys names) tok after memo = tightMerge o ix tok after memo ∧
      (tightMerge o ix tok after memo).2.resembling = memo.resembling := by
  unfold tightMerge
  split
  · exact ⟨rfl, rfl⟩
  · next n hcloser =>
      obtain ⟨inner, closing, rest, hafter, hn, -⟩ :=
        closerIndex?_eq_some (closerIndex?_of_window hcloser)
      obtain rfl : n = inner.length := by omega
      have hline : flatten (tok :: after.take (inner.length + 1)) =
          flatten (tok :: (inner ++ [closing])) := by rw [hafter, take_through]
      obtain ⟨hkeep, hkept⟩ := keepInline_withTables o
        (h _ _ _ (.trimmed (.flattened hcloser hafter))) names memo
      dsimp only
      rw [hline, hkeep]
      exact ⟨rfl, hkept⟩

/-- So do both, one after the other. -/
theorem firstMerge_withTables (o : Options) {ix : SourceIndex} {keys : FirstTable} {tok : Token}
    {after : List Token} (h : AllAgree ix keys tok after) (names : NameTable)
    (memo : SourceIndex.Memo) :
    firstMerge o (ix.withTables keys names) tok after memo = firstMerge o ix tok after memo ∧
      (firstMerge o ix tok after memo).2.resembling = memo.resembling := by
  obtain ⟨hcontent, hmemo⟩ := contentMerge_withTables o h names memo
  obtain ⟨htight, hmemo'⟩ := tightMerge_withTables o h names (contentMerge o ix tok after memo).2
  unfold firstMerge
  refine ⟨by simp only [hcontent, htight], ?_⟩
  dsimp only
  split
  · exact hmemo
  · exact hmemo'.trans hmemo

namespace Printer

/-- The printer with other tables of keys and of names. -/
def withTables (p : Printer) (keys : FirstTable) (names : NameTable) : Printer :=
  { p with index := p.index.withTables keys names }

/-- A step at a token whose rebuilt lines are found reads nothing else of the tables. -/
theorem step_withTables {p : Printer} {keys : FirstTable} {tok : Token} {after : List Token}
    (h : tok.isStartTag = true → tok.isChildless = false → AllAgree p.index keys tok after)
    (names : NameTable) (st : State) (before : List Token) :
    (p.withTables keys names).step st before tok after = p.step st before tok after ∧
      (p.step st before tok after).2.memo.resembling = st.memo.resembling := by
  rw [step_eq, step_eq]
  have hoptions : (p.withTables keys names).options = p.options := rfl
  have hindex : (p.withTables keys names).index = p.index.withTables keys names := rfl
  rw [hoptions, hindex]
  by_cases hstart : (p.options.inlineShort && tok.isStartTag && !tok.isChildless) = true
  · have hfound : AllAgree p.index keys tok after := by
      simp only [Bool.and_eq_true, Bool.not_eq_true'] at hstart
      exact h hstart.1.2 hstart.2
    obtain ⟨hsame, hmemo⟩ := firstMerge_withTables p.options hfound names st.memo
    rw [if_pos hstart, if_pos hstart, hsame]
    rcases hmerge : firstMerge p.options p.index tok after st.memo with ⟨_ | merged, memo⟩
    · rw [hmerge] at hmemo
      exact ⟨rfl, (congrArg _ (p.memo_alone _ before tok)).trans hmemo⟩
    · rw [hmerge] at hmemo
      exact ⟨rfl, hmemo⟩
  · rw [if_neg hstart, if_neg hstart]
    exact ⟨rfl, congrArg _ (p.memo_alone st before tok)⟩

/-- A run over tokens whose rebuilt lines are found reads nothing else of the tables. -/
theorem run_withTables {p : Printer} {keys : FirstTable} {tokens : List Token}
    (h : ∀ tok after, tok :: after <:+ tokens → tok.isStartTag = true →
      tok.isChildless = false → AllAgree p.index keys tok after)
    (names : NameTable) (skip : Nat) (st : State) (before : List Token) :
    (p.withTables keys names).run skip st before tokens = p.run skip st before tokens ∧
      (p.run skip st before tokens).memo.resembling = st.memo.resembling := by
  induction tokens generalizing skip st before with
  | nil => cases skip <;> exact ⟨rfl, rfl⟩
  | cons tok tokens ih =>
      have hlater := fun t after hsuffix =>
        h t after (List.IsSuffix.trans hsuffix (List.suffix_cons tok tokens))
      cases skip with
      | succ skip => exact ih hlater skip st (tok :: before)
      | zero =>
          have hagree := h tok tokens (List.suffix_refl _)
          obtain ⟨hstep, hmemo⟩ := step_withTables hagree names st before
          obtain ⟨hrun, hrest⟩ := ih hlater (p.step st before tok tokens).1
            (p.step st before tok tokens).2 (tok :: before)
          rw [run, run, hstep]
          exact ⟨hrun, hrest.trans hmemo⟩

end Printer

/-- **Every lookup is answered under its key.**  Where a merge reaches a closing tag from a
start tag, these are the tags of an element of the source that is entered under a key, and
the lines rebuilt from it have the key of its source; so how it was written is read off
the first element with that key.  The layout asks for no other lines, never reads the
elements under their names, and remembers no look-alike. -/
theorem written_rebuilt (o : Options) (source : Text) :
    let p := Printer.ofSource o source
    let elements := Element.all source p.tokens
    (∀ before tok after inner closing line, p.tokens = before ++ tok :: after →
      tok.isStartTag = true → tok.isChildless = false →
      Rebuilt p.index tok after inner closing line →
      (∃ e ∈ elements, e.opening.token = tok ∧ e.closing.token = closing ∧
        e.opening.index = before.length ∧ e.closing.index = before.length + 1 + inner.length ∧
        e.isReachable = true ∧ e.whole = source.slice tok.pos closing.stop) ∧
      line.squash = (source.slice tok.pos closing.stop).squash ∧
      ∃ first ∈ elements, first.isReachable = true ∧ first.whole.squash = line.squash ∧
        (∀ e ∈ elements, e.isReachable = true → e.whole.squash = line.squash →
          first.start ≤ e.start) ∧
        ∀ memo, p.index.written line memo =
          (Written.ofContent (source.slice first.innerStart first.innerStop), memo)) ∧
    (∀ keys names,
      (∀ before tok after inner closing line, p.tokens = before ++ tok :: after →
        tok.isStartTag = true → tok.isChildless = false →
        Rebuilt p.index tok after inner closing line →
        keys.lookup line.squash = p.index.byKey.lookup line.squash) →
      ({ p with index := { p.index with byKey := keys, byName := names } }).final = p.final) ∧
    p.final.memo.resembling = [] := by
  intro p elements
  refine ⟨?_, ?_, ?_⟩
  · intro before tok after inner closing line htokens hstart hchildren hline
    obtain ⟨e, he, hopening, hclosing, hfirst, hlast, hreach, hkey⟩ :=
      hline.exists_element htokens hstart hchildren
    have hwhole : e.whole = source.slice tok.pos closing.stop := by
      rw [(Element.whole_eq he).1, ← hopening, ← hclosing]
      rfl
    refine ⟨⟨e, he, hopening, hclosing, hfirst, hlast, hreach, hwhole⟩, ?_, ?_⟩
    · rw [← hwhole, hkey]
    · obtain ⟨first, hmem, ⟨hnear, hsame⟩, hleast, hwritten⟩ :=
        (hline.finds htokens hstart hchildren).exists_first
      refine ⟨first, hmem, hnear, hsame, fun e he hreach hkey => hleast e he ⟨hreach, hkey⟩, ?_⟩
      intro memo
      rw [← (Element.whole_eq hmem).2]
      exact hwritten memo
  · intro keys names hkeys
    have hagree : ∀ tok after, tok :: after <:+ p.tokens → tok.isStartTag = true →
        tok.isChildless = false → AllAgree p.index keys tok after := by
      rintro tok after ⟨before, htokens⟩ hstart hchildren inner closing line hline
      exact ⟨hline.finds htokens.symm hstart hchildren,
        hkeys before tok after inner closing line htokens.symm hstart hchildren hline⟩
    exact (Printer.run_withTables hagree names 0 {} []).1
  · have hagree : ∀ tok after, tok :: after <:+ p.tokens → tok.isStartTag = true →
        tok.isChildless = false → AllAgree p.index p.index.byKey tok after := by
      rintro tok after ⟨before, htokens⟩ hstart hchildren inner closing line hline
      exact ⟨hline.finds htokens.symm hstart hchildren, rfl⟩
    exact (Printer.run_withTables hagree [] 0 {} []).2

end TemplateFormat.Layout
