import TemplateFormat.Proofs.WellNested

/-!
# The depth of a layout follows its blocks

The printer has one counter for the depth and never looks at what opened a level.
On well-nested tokens the counter is right nevertheless: a merge takes a whole
block, and the closer of an opener that is written alone finds the depth at which
the opener left it.

* `depth_alone_leaf`, `alone_opener`, `alone_closer` — what a token that is written alone
  does to the depth;
* `absorbed_block` — a merge takes the block of its start tag;
* `keepsDepth_wellNested` — a run over well-nested tokens comes back to the depth it
  started at;
* `closer_of_lowers`, `closer_of_alone` — how far a closer stands below its opener, and
  that on well-nested tokens it is indented as its opener is;
* `balanced_ofSource` — the layout of a well-nested source.
-/

namespace TemplateFormat.Layout

open Markup Token

namespace Printer

/-! ## One step -/

/-- A leaf leaves the depth alone. -/
theorem depth_alone_leaf (p : Printer) (st : State) (before : List Token) {tok : Token}
    (h : tok.isLeaf = true) : (p.alone st before tok).depth = st.depth := by
  cases hcontent : tok.isContent with
  | true => exact (p.alone_content st before hcontent).1
  | false =>
      simp only [isLeaf, hcontent, Bool.false_or, Bool.and_eq_true, Bool.not_eq_true'] at h
      obtain ⟨⟨htag, hopening⟩, hopens⟩ := h
      have hcloses : tok.closesBlock = false := by
        cases hkind : tok.kind <;> simp_all [isTag, isClosingTag, closesBlock]
      simp [p.alone_of_not_content st before hcontent, stepBlock, hcloses, hopens, writeLine]

/-- An opener is written at the depth it finds, and starts a level. -/
theorem alone_opener (p : Printer) (st : State) (before : List Token) {tok : Token}
    (h : tok.isOpener = true) :
    (p.alone st before tok).depth = st.depth + 1 ∧
      (p.alone st before tok).lines =
        (p.indentation st.depth ++ tok.literal) :: st.lines := by
  have hopens := opensBlock_of_isOpener h
  have hcloses : tok.closesBlock = false := by
    cases hcloses : tok.closesBlock with
    | false => rfl
    | true => simp [isOpener_of_closesBlock hcloses] at h
  have hcontent : tok.isContent = false := by
    cases hkind : tok.kind <;> simp_all [isOpener, isContent]
  have hchildren : tok.isChildless = false := by
    cases hkind : tok.kind <;> simp_all [isOpener, opensBlock, isChildless]
  simp [p.alone_of_not_content st before hcontent, stepBlock, hcloses, hopens, hchildren,
    writeLine]

/-- A closer ends a level, and is written at the depth it leaves. -/
theorem alone_closer (p : Printer) (st : State) (before : List Token) {closer : Token}
    (hcloses : closer.closesBlock = true) (hcontent : closer.isContent = false) :
    (p.alone st before closer).depth = st.depth - 1 ∧
      (p.alone st before closer).lines =
        (p.indentation (st.depth - 1) ++ closer.literal) :: st.lines := by
  simp [p.alone_of_not_content st before hcontent, stepBlock, hcloses,
    opensBlock_of_closesBlock hcloses, writeLine]

/-- Only start tags with children are merged. -/
theorem merge?_of_not_opener (p : Printer) (memo : SourceIndex.Memo) {tok : Token}
    (h : tok.isOpener = false) (after : List Token) : p.merge? memo tok after = none := by
  have hstart : (p.options.inlineShort && tok.isStartTag && !tok.isChildless) = false := by
    cases hkind : tok.kind <;> simp_all [isOpener, isStartTag, opensBlock]
  simp [merge?, hstart]

/-- A merge takes the tokens up to the closing tag that the search by name finds. -/
theorem absorbed_of_merge? {p : Printer} {memo : SourceIndex.Memo} {tok : Token}
    {after : List Token} {merged : Merged} (h : p.merge? memo tok after = some merged) :
    ∃ n, closerIndex? tok.name 0 0 after = some n ∧ merged.absorbed = n + 1 := by
  rw [merge?] at h
  split at h
  · split at h
    · next hcontent =>
        cases h
        exact absorbed_of_contentMerge (congrArg Prod.fst hcontent)
    · exact absorbed_of_tightMerge h
  · cases h

/-- A step takes other tokens than its own exactly if it merges. -/
theorem merge?_eq_none_iff {p : Printer} {st : State} {before after : List Token} {tok : Token} :
    p.merge? st.memo tok after = none ↔ (p.step st before tok after).1 = 0 := by
  cases hmerge : p.merge? st.memo tok after with
  | none =>
      obtain ⟨memo, hstep⟩ := step_of_merge?_none before hmerge
      simp [hstep]
  | some merged =>
      obtain ⟨memo, hstep⟩ := step_of_merge?_some before hmerge
      obtain ⟨n, -, habsorbed⟩ := absorbed_of_merge? hmerge
      simp [hstep, habsorbed]

/-- **A merge takes a block** where its start tag opens one. -/
theorem absorbed_block {p : Printer} {memo : SourceIndex.Memo} {tok closer : Token}
    {after inner rest : List Token} {merged : Merged}
    (h : p.merge? memo tok after = some merged) (hblock : Block tok after inner closer rest) :
    merged.absorbed = inner.length + 1 := by
  obtain ⟨n, hfound, habsorbed⟩ := absorbed_of_merge? h
  rw [closerIndex?_block (merges_of_merge? h).1 hblock, Option.some.injEq] at hfound
  rw [habsorbed, hfound]

/-! ## A run over tokens -/

/-- The printer goes from `st`, before `tokens`, to `st'` behind them, by steps that
take these tokens and none of `rest`. -/
structure Passes (p : Printer) (st : State) (before tokens rest : List Token) (st' : State) :
    Prop where
  run : p.run 0 st before (tokens ++ rest) = p.run 0 st' (tokens.reverse ++ before) rest
  steps : ∀ index, ∃ front later, p.stepsFrom index 0 st before (tokens ++ rest) =
    front ++ p.stepsFrom later 0 st' (tokens.reverse ++ before) rest

/-- Nothing is passed without a step. -/
theorem Passes.nil (p : Printer) (st : State) (before rest : List Token) :
    p.Passes st before [] rest st :=
  ⟨rfl, fun index => ⟨[], index, rfl⟩⟩

/-- What is passed one part after the other is passed as a whole. -/
theorem Passes.append {p : Printer} {st st' st'' : State} {before a b rest : List Token}
    (ha : p.Passes st before a (b ++ rest) st')
    (hb : p.Passes st' (a.reverse ++ before) b rest st'') :
    p.Passes st before (a ++ b) rest st'' := by
  constructor
  · rw [List.append_assoc, ha.run, hb.run, List.reverse_append, List.append_assoc]
  · intro index
    obtain ⟨front, later, hfront⟩ := ha.steps index
    obtain ⟨front', later', hfront'⟩ := hb.steps later
    refine ⟨front ++ front', later', ?_⟩
    rw [List.append_assoc, hfront, hfront', List.reverse_append, List.append_assoc,
      List.append_assoc]

/-- A step passes the tokens that it takes. -/
theorem Passes.step {p : Printer} {st finish : State} {before tokens rest : List Token}
    {tok : Token}
    (h : p.step st before tok (tokens ++ rest) = (tokens.length, finish)) :
    p.Passes st before (tok :: tokens) rest finish := by
  have hbefore : (tok :: tokens).reverse ++ before = tokens.reverse ++ tok :: before := by simp
  constructor
  · rw [List.cons_append, run_of_step h, List.take_left, List.drop_left, hbefore]
  · intro index
    obtain ⟨later, hsteps⟩ := stepsFrom_of_step h index
    rw [List.take_left, List.drop_left] at hsteps
    exact ⟨[_], later, by rw [List.cons_append, hsteps, hbefore]; rfl⟩

/-- A step that takes no other token passes its own. -/
theorem Passes.alone {p : Printer} {st finish : State} {before rest : List Token} {tok : Token}
    (h : p.step st before tok rest = (0, finish)) : p.Passes st before [tok] rest finish :=
  Passes.step h

/-- A run comes back to its depth over these tokens, wherever they stand. -/
def KeepsDepth (p : Printer) (tokens : List Token) : Prop :=
  ∀ (st : State) (before rest : List Token),
    ∃ st', p.Passes st before tokens rest st' ∧ st'.depth = st.depth

/-- A run comes down by `n` levels over these tokens, wherever they stand, but not below
the outermost. -/
def Lowers (p : Printer) (n : Nat) (tokens : List Token) : Prop :=
  ∀ (st : State) (before rest : List Token),
    ∃ st', p.Passes st before tokens rest st' ∧ st'.depth = st.depth - n

/-- To keep the depth is to come down by no level. -/
theorem keepsDepth_iff {p : Printer} {tokens : List Token} :
    p.KeepsDepth tokens ↔ p.Lowers 0 tokens :=
  Iff.rfl

/-- Over one part after the other a run comes down by the levels of both. -/
theorem Lowers.append {p : Printer} {m n : Nat} {a b : List Token} (ha : p.Lowers m a)
    (hb : p.Lowers n b) : p.Lowers (m + n) (a ++ b) := by
  intro st before rest
  obtain ⟨mid, hmid, hdepth⟩ := ha st before (b ++ rest)
  obtain ⟨st', hpass, hdepth'⟩ := hb mid (a.reverse ++ before) rest
  refine ⟨st', hmid.append hpass, ?_⟩
  rw [hdepth', hdepth, Nat.sub_sub]

/-- Parts that keep the depth keep it together. -/
theorem KeepsDepth.append {p : Printer} {a b : List Token} (ha : p.KeepsDepth a)
    (hb : p.KeepsDepth b) : p.KeepsDepth (a ++ b) :=
  keepsDepth_iff.mpr ((keepsDepth_iff.mp ha).append (keepsDepth_iff.mp hb))

/-- A leaf keeps the depth. -/
theorem keepsDepth_leaf (p : Printer) {tok : Token} (hleaf : tok.isLeaf = true) :
    p.KeepsDepth [tok] := by
  intro st before rest
  obtain ⟨memo, hstep⟩ := step_of_merge?_none before
    (p.merge?_of_not_opener st.memo (isOpener_of_isLeaf hleaf) rest)
  exact ⟨_, .alone hstep, p.depth_alone_leaf _ before hleaf⟩

/-- Behind an opener that is written alone, what comes down by `n` levels starts one
level higher. -/
theorem passes_opener {p : Printer} {st : State} {opener : Token} {inner rest : List Token}
    {n : Nat} (before : List Token) (hopener : opener.isOpener = true) (hinner : p.Lowers n inner)
    (hmerge : p.merge? st.memo opener (inner ++ rest) = none) :
    ∃ mid, p.Passes st before (opener :: inner) rest mid ∧ mid.depth = st.depth + 1 - n := by
  obtain ⟨memo, hstep⟩ := step_of_merge?_none before hmerge
  obtain ⟨mid, hpass, hdepth⟩ :=
    hinner (p.alone { st with memo } before opener) (opener :: before) rest
  refine ⟨mid, (Passes.alone hstep).append hpass, ?_⟩
  rw [hdepth, (p.alone_opener _ before hopener).1]

/-- A closer is always written alone. -/
theorem step_closer {p : Printer} (st : State) (before rest : List Token) {closer : Token}
    (h : closer.closesBlock = true) :
    ∃ memo, p.step st before closer rest = (0, p.alone { st with memo } before closer) :=
  step_of_merge?_none before
    (p.merge?_of_not_opener st.memo (isOpener_of_closesBlock h) rest)

/-- Over a block that is written alone a run comes down by the levels of what it encloses. -/
theorem passes_alone {p : Printer} {st : State} {opener closer : Token} {inner rest : List Token}
    {n : Nat} (before : List Token) (hencloses : opener.encloses closer = true)
    (hinner : p.Lowers n inner)
    (hmerge : p.merge? st.memo opener (inner ++ closer :: rest) = none) :
    ∃ st', p.Passes st before (opener :: (inner ++ [closer])) rest st' ∧
      st'.depth = st.depth - n := by
  obtain ⟨mid, hmid, hdepth⟩ :=
    passes_opener before (isOpener_of_encloses hencloses) hinner hmerge
  obtain ⟨hcloses, -, hcontent⟩ := closer_blocks hencloses
  obtain ⟨memo, hstep⟩ := step_closer mid ((opener :: inner).reverse ++ before) rest hcloses
  refine ⟨_, hmid.append (.alone hstep), ?_⟩
  rw [(p.alone_closer _ _ hcloses hcontent).1, hdepth]
  omega

/-- A block is passed by one merge, or by its tokens one after the other. -/
theorem passes_block {p : Printer} {opener closer : Token} {inner : List Token}
    (hencloses : opener.encloses closer = true) (hwell : WellNested inner)
    (hinner : p.KeepsDepth inner) : p.KeepsDepth (opener :: (inner ++ [closer])) := by
  intro st before rest
  have hblock : Block opener (inner ++ closer :: rest) inner closer rest :=
    ⟨rfl, hwell, hencloses⟩
  cases hmerge : p.merge? st.memo opener (inner ++ closer :: rest) with
  | some merged =>
      obtain ⟨memo, hstep⟩ := step_of_merge?_some before hmerge
      rw [absorbed_block hmerge hblock] at hstep
      have hpass : p.Passes st before (opener :: (inner ++ [closer])) rest
          (p.writeLine { st with memo } merged.line) := by
        apply Passes.step
        simpa using hstep
      exact ⟨_, hpass, rfl⟩
  | none => exact passes_alone before hencloses (keepsDepth_iff.mp hinner) hmerge

/-- **A run over well-nested tokens** comes back to the depth it started at. -/
theorem keepsDepth_wellNested (p : Printer) {tokens : List Token} (h : WellNested tokens) :
    p.KeepsDepth tokens := by
  induction h with
  | nil => exact fun st before rest => ⟨st, .nil p st before rest, rfl⟩
  | leaf hleaf _ ih => exact (p.keepsDepth_leaf hleaf).append ih
  | block hencloses hwell _ ihinner ihtokens =>
      have hblock := (passes_block hencloses hwell ihinner).append ihtokens
      simpa using hblock

/-! ## The layout of a well-nested source -/

section Places

variable {p : Printer} {st : State} {before tokens : List Token} {index skip : Nat} {s : Step}

/-- A step of a run stands at its place in the tokens, and the steps from it on are
those of the run that starts there. -/
theorem mem_stepsFrom (h : s ∈ p.stepsFrom index skip st before tokens) :
    s.before.reverse ++ s.token :: s.after = before.reverse ++ tokens ∧
      (p.step s.start s.before s.token s.after).2 = s.finish ∧
      p.stepsFrom s.index 0 s.start s.before (s.token :: s.after) <:+
        p.stepsFrom index skip st before tokens := by
  induction tokens generalizing index skip st before with
  | nil => cases skip <;> cases h
  | cons tok after ih =>
      have hplace : (tok :: before).reverse ++ after = before.reverse ++ tok :: after := by simp
      cases skip with
      | succ skip =>
          obtain ⟨hplace', hfinish, hsuffix⟩ := ih h
          exact ⟨hplace'.trans hplace, hfinish, hsuffix⟩
      | zero =>
          rw [stepsFrom_cons] at h ⊢
          rcases List.mem_cons.mp h with rfl | h
          · exact ⟨rfl, rfl, List.suffix_refl _⟩
          · obtain ⟨hplace', hfinish, hsuffix⟩ := ih h
            exact ⟨hplace'.trans hplace, hfinish, hsuffix.trans (List.suffix_cons _ _)⟩

/-- The steps of a run stand at its start or behind it. -/
theorem length_before_le (h : s ∈ p.stepsFrom index skip st before tokens) :
    before.length ≤ s.before.length := by
  induction tokens generalizing index skip st before with
  | nil => cases skip <;> cases h
  | cons tok after ih =>
      cases skip with
      | succ skip => exact Nat.le_of_succ_le (ih h)
      | zero =>
          rw [stepsFrom_cons] at h
          rcases List.mem_cons.mp h with rfl | h
          · exact Nat.le_refl _
          · exact Nat.le_of_succ_le (ih h)

/-- **A place has one step.** -/
theorem eq_of_before {t : Step} (hs : s ∈ p.stepsFrom index skip st before tokens)
    (ht : t ∈ p.stepsFrom index skip st before tokens) (h : s.before = t.before) : s = t := by
  induction tokens generalizing index skip st before with
  | nil => cases skip <;> cases hs
  | cons tok after ih =>
      cases skip with
      | succ skip => exact ih hs ht
      | zero =>
          -- the steps behind the first one stand behind its token
          have hlater : ∀ {u : Step}, u.before = before → u ∉ p.stepsFrom (index + 1)
              (p.step st before tok after).1 (p.step st before tok after).2
              (tok :: before) after := by
            intro u hu hmem
            have hlt := length_before_le hmem
            rw [hu, List.length_cons] at hlt
            omega
          rw [stepsFrom_cons] at hs ht
          rcases List.mem_cons.mp hs with rfl | hs'
          · exact ((List.mem_cons.mp ht).resolve_right (hlater h.symm)).symm
          · rcases List.mem_cons.mp ht with rfl | ht'
            · exact absurd hs' (hlater h)
            · exact ih hs' ht'

end Places

/-- How many of the tokens behind its own a step takes. -/
def absorbed (p : Printer) (s : Step) : Nat := (p.step s.start s.before s.token s.after).1

/-- The layout of blocks. -/
structure Balanced (p : Printer) : Prop where
  /-- The layout ends at the outermost level. -/
  final : p.final.depth = 0
  /-- An opener has one closer. -/
  block : ∀ s ∈ p.steps, s.token.isOpener = true →
    ∃ inner closer rest, Block s.token s.after inner closer rest ∧
      ∀ inner' closer' rest', Block s.token s.after inner' closer' rest' →
        inner' = inner ∧ closer' = closer ∧ rest' = rest
  /-- An opener on a line of its own is indented as its closer is, which stands on
  a line of its own, too. -/
  alone : ∀ s ∈ p.steps, s.token.isOpener = true → p.absorbed s = 0 →
    ∀ inner closer rest, Block s.token s.after inner closer rest →
      s.finish.lines = (p.indentation s.start.depth ++ s.token.literal) :: s.start.lines ∧
      ∃ t ∈ p.steps, t.before = inner.reverse ++ s.token :: s.before ∧ t.token = closer ∧
        t.after = rest ∧ p.absorbed t = 0 ∧ t.start.depth = s.start.depth + 1 ∧
        t.finish.lines = (p.indentation s.start.depth ++ closer.literal) :: t.start.lines
  /-- A merge takes the block of its start tag, at whatever start tag it is tried. -/
  merge : ∀ before tok after memo merged, p.tokens = before ++ tok :: after →
    tok.isStartTag = true → tok.isChildless = false →
    ((contentMerge p.options p.index tok after memo).1 = some merged ∨
      (tightMerge p.options p.index tok after memo).1 = some merged) →
    ∃ inner closer rest, Block tok after inner closer rest ∧ merged.absorbed = inner.length + 1
  /-- A step that merges takes the block of its start tag, and leaves the depth as it
  was. -/
  merged : ∀ s ∈ p.steps, p.absorbed s ≠ 0 → s.finish.depth = s.start.depth ∧
    ∃ inner closer rest, Block s.token s.after inner closer rest ∧
      p.absorbed s = inner.length + 1

/-- The layout ends at the depth at which it starts. -/
theorem depth_final {p : Printer} (h : WellNested p.tokens) : p.final.depth = 0 := by
  obtain ⟨st', hpass, hdepth⟩ := p.keepsDepth_wellNested h {} [] []
  have hrun := hpass.run
  rw [List.append_nil] at hrun
  rw [Printer.final, hrun]
  exact hdepth

/-- Every opener at which a step is taken has a block. -/
theorem exists_block_of_mem {p : Printer} (h : WellNested p.tokens) {s : Step} (hs : s ∈ p.steps)
    (hopener : s.token.isOpener = true) :
    ∃ inner closer rest, Block s.token s.after inner closer rest := by
  obtain ⟨hplace, -⟩ := mem_stepsFrom hs
  rw [List.reverse_nil, List.nil_append] at hplace
  exact WellNested.exists_block (hplace ▸ h) hopener

/-- **The closer of an opener** that is written alone: it stands on a line of its own, as
many levels below the opener as a run over what stands between the two comes down. -/
theorem closer_of_lowers {p : Printer} {s : Step} (hs : s ∈ p.steps)
    (hopener : s.token.isOpener = true) (halone : p.absorbed s = 0) {inner rest : List Token}
    {closer : Token} {n : Nat} (hafter : s.after = inner ++ closer :: rest)
    (hencloses : s.token.encloses closer = true) (hinner : p.Lowers n inner) :
    s.finish.lines = (p.indentation s.start.depth ++ s.token.literal) :: s.start.lines ∧
      ∃ t ∈ p.steps, t.before = inner.reverse ++ s.token :: s.before ∧ t.token = closer ∧
        t.after = rest ∧ p.absorbed t = 0 ∧ t.start.depth = s.start.depth + 1 - n ∧
        t.finish.lines =
          (p.indentation (s.start.depth - n) ++ closer.literal) :: t.start.lines := by
  obtain ⟨-, hfinish, hsuffix⟩ := mem_stepsFrom hs
  have hmerge : p.merge? s.start.memo s.token s.after = none := merge?_eq_none_iff.mpr halone
  constructor
  · obtain ⟨memo, hstep⟩ := step_of_merge?_none s.before hmerge
    rw [hstep] at hfinish
    rw [← hfinish]
    exact (p.alone_opener _ s.before hopener).2
  · -- the steps behind the opener pass what it encloses and come to the closer
    rw [hafter] at hmerge hsuffix
    obtain ⟨hcloses, -, hcontent⟩ := closer_blocks hencloses
    obtain ⟨mid, hpass, hdepth⟩ := passes_opener s.before hopener hinner hmerge
    obtain ⟨front, later, hsteps⟩ := hpass.steps s.index
    obtain ⟨memo, hstep⟩ :=
      step_closer mid ((s.token :: inner).reverse ++ s.before) rest hcloses
    obtain ⟨later', hcloser⟩ := stepsFrom_of_alone hstep later
    rw [List.cons_append] at hsteps
    rw [hsteps, hcloser] at hsuffix
    refine ⟨_, hsuffix.subset (List.mem_append_right _ List.mem_cons_self), by simp, rfl, rfl,
      congrArg Prod.fst hstep, hdepth, ?_⟩
    have hlines := (p.alone_closer { mid with memo } ((s.token :: inner).reverse ++ s.before)
      hcloses hcontent).2
    have hlevel : s.start.depth + 1 - n - 1 = s.start.depth - n := by omega
    rw [hlines, hdepth, hlevel]

/-- Over a well-nested block it comes back to the level of its opener. -/
theorem closer_of_alone {p : Printer} {s : Step} (hs : s ∈ p.steps)
    (hopener : s.token.isOpener = true) (halone : p.absorbed s = 0) {inner rest : List Token}
    {closer : Token} (hblock : Block s.token s.after inner closer rest) :
    s.finish.lines = (p.indentation s.start.depth ++ s.token.literal) :: s.start.lines ∧
      ∃ t ∈ p.steps, t.before = inner.reverse ++ s.token :: s.before ∧ t.token = closer ∧
        t.after = rest ∧ p.absorbed t = 0 ∧ t.start.depth = s.start.depth + 1 ∧
        t.finish.lines = (p.indentation s.start.depth ++ closer.literal) :: t.start.lines :=
  closer_of_lowers hs hopener halone hblock.after_eq hblock.encloses
    (keepsDepth_iff.mp (p.keepsDepth_wellNested hblock.wellNested))

/-- **Well-nested tokens** give a balanced layout. -/
theorem balanced_of_wellNested {p : Printer} (h : WellNested p.tokens) : p.Balanced where
  final := depth_final h
  block := by
    intro s hs hopener
    obtain ⟨inner, closer, rest, hblock⟩ := exists_block_of_mem h hs hopener
    exact ⟨inner, closer, rest, hblock, fun _ _ _ hblock' => hblock'.unique hblock⟩
  alone := fun s hs hopener halone inner closer rest hblock =>
    closer_of_alone hs hopener halone hblock
  merge := by
    intro before tok after memo merged htokens hstart hchildren hmerge
    have hopener : tok.isOpener = true := by
      cases hkind : tok.kind <;> simp_all [isStartTag, isOpener, opensBlock]
    obtain ⟨inner, closer, rest, hblock⟩ := WellNested.exists_block (htokens ▸ h) hopener
    refine ⟨inner, closer, rest, hblock, ?_⟩
    have hfound := closerIndex?_block hstart hblock
    rcases hmerge with hmerge | hmerge
    · obtain ⟨n, hn, habsorbed⟩ := absorbed_of_contentMerge hmerge
      rw [hfound, Option.some.injEq] at hn
      rw [habsorbed, hn]
    · obtain ⟨n, hn, habsorbed⟩ := absorbed_of_tightMerge hmerge
      rw [hfound, Option.some.injEq] at hn
      rw [habsorbed, hn]
  merged := by
    intro s hs habsorbed
    obtain ⟨-, hfinish, -⟩ := mem_stepsFrom hs
    cases hmerge : p.merge? s.start.memo s.token s.after with
    | none => exact absurd (merge?_eq_none_iff.mp hmerge) habsorbed
    | some merged =>
        have hopener : s.token.isOpener = true := by
          cases hopener : s.token.isOpener with
          | true => rfl
          | false => simp [p.merge?_of_not_opener s.start.memo hopener] at hmerge
        obtain ⟨memo, hstep⟩ := step_of_merge?_some s.before hmerge
        obtain ⟨inner, closer, rest, hblock⟩ := exists_block_of_mem h hs hopener
        refine ⟨?_, inner, closer, rest, hblock, ?_⟩
        · rw [← hfinish, hstep]
          rfl
        · rw [absorbed, hstep]
          exact absorbed_block hmerge hblock

/-- **The layout of a well-nested source** is balanced, whatever the options. -/
theorem balanced_ofSource (o : Options) (source : Text) (h : WellNested (Token.scan source)) :
    (Printer.ofSource o source).Balanced :=
  balanced_of_wellNested h

/-- An element that is spread, one on a line, and a control block. -/
theorem balanced_ofSource_list :
    let source := text "<ul>\n<li>a<br></li>\n</ul>@if (x) \x7b<img><p></p>@\x7d"
    WellNested (Token.scan source) ∧ (Printer.ofSource {} source).Balanced :=
  ⟨by decide +kernel, balanced_ofSource {} _ (by decide +kernel)⟩

end Printer

end TemplateFormat.Layout
