import TemplateFormat.Proofs.Balance
import TemplateFormat.Proofs.Expanded

/-!
# Braces in text

A `{` in a text is a glyph like others and starts no level, but every `}` is a token of
its own and ends one.  So a pair of braces in a style sheet, or around an element, takes
a level off whatever stands around it, unless there is none left.

* `BraceNested` — blocks whose texts may hold braces, each closed on the level of the
  text; `closesBraces` decides it with a stack;
* `lowers_braceNested` — a run over such tokens comes down by one level for every `{` in
  their texts, at most to the outermost;
* `closer_of_braces` — so a closer stands below its opener by the braces between them;
* `levelWith_iff` — an opener and its closer are indented alike exactly if there are none,
  or the opener is at the outermost level.
-/

namespace TemplateFormat.Markup

namespace Token

/-- The number of `{` in a text; those of other tokens belong to their syntax. -/
def openBraces (tok : Token) : Nat :=
  match tok.kind with
  | .text => tok.literal.count (.char '\x7b')
  | _ => 0

/-- Whether the token is a `}`. -/
def isBrace (tok : Token) : Bool := tok.kind == .closeBrace && tok.literal == text "\x7d"

end Token

/-- The number of `{` in the texts of a token list. -/
def openBraces : List Token → Nat
  | [] => 0
  | tok :: rest => tok.openBraces + openBraces rest

/-- Leaves and blocks in which every `{` of a text has its `}` later on the same level,
and `waiting` more `}` close what was open before. -/
inductive BraceNested : (waiting : Nat) → List Token → Prop
  | nil : BraceNested 0 []
  | leaf {waiting : Nat} {tok : Token} {rest : List Token} :
      tok.isLeaf = true → BraceNested (waiting + tok.openBraces) rest →
      BraceNested waiting (tok :: rest)
  | brace {waiting : Nat} {tok : Token} {rest : List Token} :
      tok.isBrace = true → BraceNested waiting rest → BraceNested (waiting + 1) (tok :: rest)
  | block {waiting : Nat} {opener closer : Token} {inner rest : List Token} :
      opener.encloses closer = true → BraceNested 0 inner → BraceNested waiting rest →
      BraceNested waiting (opener :: (inner ++ closer :: rest))

/-- Whether the tokens close the `waiting` braces and the openers in `unclosed`, the latest
first, each with the braces that wait around it. -/
def closesBraces : (waiting : Nat) → (unclosed : List (Token × Nat)) → List Token → Bool
  | waiting, unclosed, [] => waiting == 0 && unclosed.isEmpty
  | waiting, unclosed, tok :: rest =>
    if tok.isLeaf then closesBraces (waiting + tok.openBraces) unclosed rest
    else if tok.isOpener then closesBraces 0 ((tok, waiting) :: unclosed) rest
    else
      match waiting, unclosed with
      | waiting + 1, _ => tok.isBrace && closesBraces waiting unclosed rest
      | 0, (opener, outer) :: unclosed =>
        opener.encloses tok && closesBraces outer unclosed rest
      | 0, [] => false

@[simp] theorem openBraces_nil : openBraces [] = 0 := rfl

@[simp] theorem openBraces_cons (tok : Token) (tokens : List Token) :
    openBraces (tok :: tokens) = tok.openBraces + openBraces tokens := rfl

@[simp] theorem openBraces_append (a b : List Token) :
    openBraces (a ++ b) = openBraces a + openBraces b := by
  induction a with
  | nil => simp
  | cons tok a ih => simp [ih, Nat.add_assoc]

namespace Token

/-- Only text holds braces. -/
theorem openBraces_of_not_content {tok : Token} (h : tok.isContent = false) :
    tok.openBraces = 0 := by
  cases hkind : tok.kind <;> simp_all [isContent, openBraces]

theorem not_isContent_of_isOpener {tok : Token} (h : tok.isOpener = true) :
    tok.isContent = false := by
  cases hkind : tok.kind <;> simp_all [isOpener, isContent]

/-- A `}` ends a level, and is neither a leaf nor an opener. -/
theorem isBrace_blocks {tok : Token} (h : tok.isBrace = true) :
    tok.closesBlock = true ∧ tok.isContent = false ∧ tok.isLeaf = false ∧
      tok.isOpener = false := by
  obtain ⟨hkind, hliteral⟩ := Bool.and_eq_true_iff.mp h
  have hends : tok.endsControl = true := by
    simp only [endsControl, beq_iff_eq.mp hkind, hliteral, Bool.or_true]
  obtain ⟨hcloses, htag, hcontent⟩ := endsControl_blocks hends
  exact ⟨hcloses, hcontent, by simp [isLeaf, htag, hcontent], isOpener_of_closesBlock hcloses⟩

end Token

open Token

/-! ## The stack of open blocks -/

section Stack

variable {tok : Token} (waiting : Nat) (unclosed : List (Token × Nat)) (rest : List Token)

theorem closesBraces_leaf (h : tok.isLeaf = true) :
    closesBraces waiting unclosed (tok :: rest) =
      closesBraces (waiting + tok.openBraces) unclosed rest := by
  simp [closesBraces, h]

theorem closesBraces_opener (h : tok.isOpener = true) :
    closesBraces waiting unclosed (tok :: rest) =
      closesBraces 0 ((tok, waiting) :: unclosed) rest := by
  simp [closesBraces, h, not_isLeaf_of_isOpener h]

theorem closesBraces_brace (h : tok.isBrace = true) :
    closesBraces (waiting + 1) unclosed (tok :: rest) = closesBraces waiting unclosed rest := by
  obtain ⟨-, -, hleaf, hopener⟩ := isBrace_blocks h
  simp [closesBraces, h, hleaf, hopener]

theorem closesBraces_closer {opener : Token} (h : opener.encloses tok = true) :
    closesBraces 0 ((opener, waiting) :: unclosed) (tok :: rest) =
      closesBraces waiting unclosed rest := by
  obtain ⟨hcloses, hleaf, -⟩ := closer_blocks h
  simp [closesBraces, h, hleaf, isOpener_of_closesBlock hcloses]

end Stack

/-- Tokens with closed braces leave the stack as it was. -/
theorem closesBraces_append {waiting : Nat} {tokens : List Token}
    (h : BraceNested waiting tokens) (unclosed : List (Token × Nat)) (rest : List Token) :
    closesBraces waiting unclosed (tokens ++ rest) = closesBraces 0 unclosed rest := by
  induction h generalizing unclosed rest with
  | nil => rfl
  | leaf hleaf _ ih => rw [List.cons_append, closesBraces_leaf _ _ _ hleaf, ih]
  | brace hbrace _ ih => rw [List.cons_append, closesBraces_brace _ _ _ hbrace, ih]
  | block hencloses _ _ ihinner ihtokens =>
      rw [List.cons_append, List.append_assoc, List.cons_append,
        closesBraces_opener _ _ _ (isOpener_of_encloses hencloses), ihinner,
        closesBraces_closer _ _ _ hencloses, ihtokens]

/-- What it takes to close the `waiting` braces and the openers in `unclosed`. -/
def ClosesBraces : (waiting : Nat) → (unclosed : List (Token × Nat)) → List Token → Prop
  | waiting, [], tokens => BraceNested waiting tokens
  | waiting, (opener, outer) :: unclosed, tokens => ∃ inner closer rest,
      tokens = inner ++ closer :: rest ∧ BraceNested waiting inner ∧
        opener.encloses closer = true ∧ ClosesBraces outer unclosed rest

/-- What may stand before tokens with closed braces may stand before what closes a stack. -/
theorem ClosesBraces.prepend {waiting waiting' : Nat} {tokens : List Token}
    {unclosed : List (Token × Nat)} (front : List Token)
    (hfront : ∀ {rest}, BraceNested waiting' rest → BraceNested waiting (front ++ rest))
    (h : ClosesBraces waiting' unclosed tokens) :
    ClosesBraces waiting unclosed (front ++ tokens) := by
  cases unclosed with
  | nil => exact hfront h
  | cons entry unclosed =>
      obtain ⟨inner, closer, rest, rfl, hinner, hclose⟩ := h
      exact ⟨front ++ inner, closer, rest, by simp, hfront hinner, hclose⟩

/-- The stack accepts nothing but what closes it. -/
theorem closesBraces_sound {waiting : Nat} {unclosed : List (Token × Nat)}
    {tokens : List Token} (h : closesBraces waiting unclosed tokens = true) :
    ClosesBraces waiting unclosed tokens := by
  induction tokens generalizing waiting unclosed with
  | nil =>
      simp only [closesBraces, Bool.and_eq_true, beq_iff_eq, List.isEmpty_iff] at h
      obtain ⟨rfl, rfl⟩ := h
      exact .nil
  | cons tok tokens ih =>
      rw [closesBraces.eq_def] at h
      dsimp only at h
      split at h
      · next hleaf => exact (ih h).prepend [tok] (.leaf hleaf)
      · split at h
        · -- behind the opener, its block and then what closes the stack
          obtain ⟨inner, closer, rest, rfl, hinner, hencloses, hrest⟩ := ih h
          have hblock := hrest.prepend (tok :: (inner ++ [closer]))
            (fun {rest} hrest => by simpa using BraceNested.block hencloses hinner hrest)
          simpa using hblock
        · split at h
          · obtain ⟨hbrace, hrest⟩ := Bool.and_eq_true_iff.mp h
            exact (ih hrest).prepend [tok] (.brace hbrace)
          · obtain ⟨hencloses, hrest⟩ := Bool.and_eq_true_iff.mp h
            exact ⟨[], tok, tokens, rfl, .nil, hencloses, ih hrest⟩
          · cases h

/-- **The stack decides the grammar.** -/
theorem closesBraces_iff {tokens : List Token} :
    closesBraces 0 [] tokens = true ↔ BraceNested 0 tokens := by
  constructor
  · exact closesBraces_sound
  · intro h
    have hcloses := closesBraces_append h [] []
    rwa [List.append_nil] at hcloses

instance (tokens : List Token) : Decidable (BraceNested 0 tokens) :=
  decidable_of_iff (closesBraces 0 [] tokens = true) closesBraces_iff

/-- **Every opener has a closer**, wherever it stands. -/
theorem BraceNested.exists_closer {waiting : Nat} {tokens front after : List Token}
    {opener : Token} (h : BraceNested waiting tokens) (hsplit : tokens = front ++ opener :: after)
    (hopener : opener.isOpener = true) :
    ∃ inner closer rest, after = inner ++ closer :: rest ∧ BraceNested 0 inner ∧
      opener.encloses closer = true := by
  have htail : ∀ {tok : Token} {rest front after : List Token}, tok.isOpener = false →
      tok :: rest = front ++ opener :: after → ∃ front', rest = front' ++ opener :: after := by
    intro tok rest front after htok heq
    cases front with
    | nil =>
        obtain ⟨rfl, -⟩ := List.cons.inj heq
        simp [htok] at hopener
    | cons first front => exact ⟨front, (List.cons.inj heq).2⟩
  induction h generalizing front after with
  | nil => simp at hsplit
  | leaf hleaf _ ih =>
      obtain ⟨front', hsplit'⟩ := htail (isOpener_of_isLeaf hleaf) hsplit
      exact ih hsplit'
  | brace hbrace _ ih =>
      obtain ⟨front', hsplit'⟩ := htail (isBrace_blocks hbrace).2.2.2 hsplit
      exact ih hsplit'
  | @block waiting first closer inner rest hencloses hinner _ ihinner ihrest =>
      have hcloser := isOpener_of_closesBlock (closer_blocks hencloses).1
      cases front with
      | nil =>
          obtain ⟨rfl, rfl⟩ := List.cons.inj hsplit
          exact ⟨inner, closer, rest, rfl, hinner, hencloses⟩
      | cons first' front =>
          rcases List.append_eq_append_iff.mp (List.cons.inj hsplit).2 with
            ⟨more, -, hmore⟩ | ⟨more, hmore, hrest⟩
          · obtain ⟨front', hsplit'⟩ := htail hcloser hmore
            exact ihrest hsplit'
          · cases more with
            | nil =>
                obtain ⟨rfl, -⟩ := List.cons.inj hrest
                simp [hcloser] at hopener
            | cons opener' more =>
                obtain ⟨rfl, rfl⟩ := List.cons.inj hrest
                obtain ⟨inner', closer', rest', rfl, hblock⟩ := ihinner hmore
                exact ⟨inner', closer', rest' ++ closer :: rest, by simp, hblock⟩

end TemplateFormat.Markup

namespace TemplateFormat.Layout

open Markup Token

namespace Printer

/-! ## The run over a source with braces -/

/-- **A run over tokens with closed braces** comes down by one level for every `}` in
them that ends no block, at most to the outermost. -/
theorem lowers_braceNested {p : Printer} (hoff : p.options.inlineShort = false) {waiting : Nat}
    {tokens : List Token} (h : BraceNested waiting tokens) :
    p.Lowers (waiting + openBraces tokens) tokens := by
  induction h with
  | nil => exact fun st before rest => ⟨st, .nil p st before rest, rfl⟩
  | leaf hleaf _ ih =>
      have hrest := (keepsDepth_iff.mp (p.keepsDepth_leaf hleaf)).append ih
      simpa [Nat.add_assoc] using hrest
  | @brace waiting tok tokens hbrace _ ih =>
      obtain ⟨hcloses, hcontent, -⟩ := isBrace_blocks hbrace
      have hone : p.Lowers 1 [tok] := by
        intro st before rest
        obtain ⟨memo, hstep⟩ := step_closer st before rest hcloses
        exact ⟨_, .alone hstep, (p.alone_closer _ before hcloses hcontent).1⟩
      have hsum : waiting + 1 + openBraces (tok :: tokens) =
          1 + (waiting + openBraces tokens) := by
        rw [openBraces_cons, openBraces_of_not_content hcontent]
        omega
      rw [hsum]
      exact hone.append ih
  | @block waiting opener closer inner tokens hencloses _ _ ihinner ihtokens =>
      have hblock : p.Lowers (openBraces inner) (opener :: (inner ++ [closer])) := by
        intro st before rest
        rw [Nat.zero_add] at ihinner
        exact passes_alone before hencloses ihinner (merge?_expanded hoff _ _ _)
      have hsum : waiting + openBraces (opener :: (inner ++ closer :: tokens)) =
          openBraces inner + (waiting + openBraces tokens) := by
        have hopener := not_isContent_of_isOpener (isOpener_of_encloses hencloses)
        obtain ⟨-, -, hcloser⟩ := closer_blocks hencloses
        rw [openBraces_cons, openBraces_append, openBraces_cons,
          openBraces_of_not_content hopener, openBraces_of_not_content hcloser]
        omega
      rw [hsum]
      simpa using hblock.append ihtokens

/-- What an opener and its closer, each written by a step, have between them. -/
structure Step.ClosedBy (s : Step) (inner : List Token) (t : Step) : Prop where
  before_eq : t.before = inner.reverse ++ s.token :: s.before
  after_eq : s.after = inner ++ t.token :: t.after
  nested : BraceNested 0 inner
  encloses : s.token.encloses t.token = true

/-- Each of two steps writes its token on a line of its own, with the same indentation. -/
def Step.LevelWith (s t : Step) : Prop :=
  ∃ indent, s.finish.lines = (indent ++ s.token.literal) :: s.start.lines ∧
    t.finish.lines = (indent ++ t.token.literal) :: t.start.lines

/-- Levels are told apart by their indentation. -/
theorem indentation_inj {p : Printer} (hindent : 0 < p.options.indentSize) {m n : Nat}
    (h : p.indentation m = p.indentation n) : m = n := by
  have hunit : 0 < p.options.unit.length := by
    rw [Options.unit]
    split
    · rw [List.length_replicate]
      omega
    · decide
  have hlength := congrArg List.length h
  simp only [indentation, List.length_flatten, List.map_replicate, List.sum_replicate_nat]
    at hlength
  exact Nat.eq_of_mul_eq_mul_right hunit hlength

section Expanded

variable {p : Printer} (hoff : p.options.inlineShort = false)

include hoff

/-- The lines of an opener and of the closer behind it: the closer stands below the opener
by the braces in the texts between them. -/
theorem lines_of_closed {s : Step} (hs : s ∈ p.steps) {inner rest : List Token}
    {closer : Token} (hafter : s.after = inner ++ closer :: rest)
    (hnested : BraceNested 0 inner) (hencloses : s.token.encloses closer = true) :
    s.finish.lines = (p.indentation s.start.depth ++ s.token.literal) :: s.start.lines ∧
      ∃ t ∈ p.steps, s.ClosedBy inner t ∧ t.finish.lines =
        (p.indentation (s.start.depth - openBraces inner) ++ t.token.literal) ::
          t.start.lines := by
  have hinner := lowers_braceNested hoff hnested
  rw [Nat.zero_add] at hinner
  obtain ⟨hline, t, ht, hbefore, rfl, rfl, -, -, hline'⟩ := closer_of_lowers hs
    (isOpener_of_encloses hencloses) (merge?_eq_none_iff.mp (merge?_expanded hoff _ _ _))
    hafter hencloses hinner
  exact ⟨hline, t, ht, ⟨hbefore, hafter, hnested, hencloses⟩, hline'⟩

/-- **The closer of an opener** stands below it by the braces in the texts between them. -/
theorem closer_of_braces {s t : Step} (hs : s ∈ p.steps) (ht : t ∈ p.steps)
    {inner : List Token} (hclosed : s.ClosedBy inner t) :
    s.finish.lines = (p.indentation s.start.depth ++ s.token.literal) :: s.start.lines ∧
      t.finish.lines = (p.indentation (s.start.depth - openBraces inner) ++ t.token.literal) ::
        t.start.lines := by
  obtain ⟨hline, u, hu, hclosed', hline'⟩ :=
    lines_of_closed hoff hs hclosed.after_eq hclosed.nested hclosed.encloses
  obtain rfl : t = u :=
    eq_of_before ht hu (hclosed.before_eq.trans hclosed'.before_eq.symm)
  exact ⟨hline, hline'⟩

/-- An opener and its closer are indented alike exactly if nothing can be taken off the level
of the opener, or nothing is. -/
theorem levelWith_of_closed (hindent : 0 < p.options.indentSize) {s t : Step}
    (hs : s ∈ p.steps) (ht : t ∈ p.steps) {inner : List Token} (hclosed : s.ClosedBy inner t) :
    s.LevelWith t ↔ s.start.depth = 0 ∨ openBraces inner = 0 := by
  obtain ⟨hline, hline'⟩ := closer_of_braces hoff hs ht hclosed
  constructor
  · rintro ⟨indent, hindented, hindented'⟩
    rw [hline, List.cons.injEq] at hindented
    rw [hline', List.cons.injEq] at hindented'
    have hsame : p.indentation (s.start.depth - openBraces inner) =
        p.indentation s.start.depth := by
      rw [List.append_cancel_right hindented.1, List.append_cancel_right hindented'.1]
    have hlevel := indentation_inj hindent hsame
    omega
  · intro hcases
    have hlevel : s.start.depth - openBraces inner = s.start.depth := by omega
    rw [hlevel] at hline'
    exact ⟨_, hline, hline'⟩

/-- Every opener at which a step is taken has a closer at which one is taken. -/
theorem exists_closedBy (h : BraceNested 0 p.tokens) {s : Step} (hs : s ∈ p.steps)
    (hopener : s.token.isOpener = true) : ∃ inner, ∃ t ∈ p.steps, s.ClosedBy inner t := by
  obtain ⟨hplace, -⟩ := mem_stepsFrom hs
  obtain ⟨inner, closer, rest, hafter, hnested, hencloses⟩ :=
    h.exists_closer hplace.symm hopener
  obtain ⟨-, t, ht, hclosed, -⟩ := lines_of_closed hoff hs hafter hnested hencloses
  exact ⟨inner, t, ht, hclosed⟩

/-- The layout ends at the outermost level. -/
theorem depth_final_of_braces (h : BraceNested 0 p.tokens) : p.final.depth = 0 := by
  obtain ⟨st', hpass, hdepth⟩ := lowers_braceNested hoff h {} [] []
  have hrun := hpass.run
  rw [List.append_nil] at hrun
  rw [Printer.final, hrun, ← Nat.zero_sub (0 + openBraces p.tokens)]
  exact hdepth

end Expanded

/-- **Braces in text.**  Where every `{` of a text has its `}` on the same level, the layout
without merges ends at the outermost level, and every opener has its closer on a line of its
own.  The two are indented alike exactly if the opener is at the outermost level, or no text
between them holds a brace. -/
theorem levelWith_iff {o : Options} {source : Text} (hindent : 0 < o.indentSize)
    (hoff : o.inlineShort = false) (h : BraceNested 0 (Token.scan source)) :
    let p := Printer.ofSource o source
    p.final.depth = 0 ∧ ∀ s ∈ p.steps, s.token.isOpener = true →
      (∃ inner, ∃ t ∈ p.steps, s.ClosedBy inner t) ∧
      ∀ inner, ∀ t ∈ p.steps, s.ClosedBy inner t →
        (s.LevelWith t ↔ s.start.depth = 0 ∨ openBraces inner = 0) := by
  intro p
  refine ⟨depth_final_of_braces hoff h, fun s hs hopener => ⟨?_, fun inner t ht hclosed => ?_⟩⟩
  · exact exists_closedBy (p := p) hoff h hs hopener
  · exact levelWith_of_closed (p := p) hoff hindent hs ht hclosed

/-- A style sheet at the outermost level, and an element in a block behind it. -/
theorem levelWith_iff_style :
    let o : Options := { inlineShort := false }
    let source := text "<style>a { b }</style>@if (x) {<p>c</p>}"
    let p := Printer.ofSource o source
    (0 < o.indentSize ∧ o.inlineShort = false ∧ BraceNested 0 (Token.scan source)) ∧
    p.final.depth = 0 ∧ ∀ s ∈ p.steps, s.token.isOpener = true →
      (∃ inner, ∃ t ∈ p.steps, s.ClosedBy inner t) ∧
      ∀ inner, ∀ t ∈ p.steps, s.ClosedBy inner t →
        (s.LevelWith t ↔ s.start.depth = 0 ∨ openBraces inner = 0) :=
  ⟨⟨by decide, rfl, by decide +kernel⟩, levelWith_iff (by decide) rfl (by decide +kernel)⟩

/-- The braces around an element: the paragraph in a block ends one level below its
start. -/
theorem not_levelWith_paragraph :
    let p := Printer.ofSource { inlineShort := false }
      (text "<div><p>{<b>x</b>}</p></div>")
    BraceNested 0 p.tokens ∧
      ∃ s ∈ p.steps, ∃ t ∈ p.steps, ∃ inner, s.token.isStartTag = true ∧
        s.ClosedBy inner t ∧ ¬s.LevelWith t := by
  intro p
  let s := p.steps.get ⟨1, by decide +kernel⟩
  let t := p.steps.get ⟨7, by decide +kernel⟩
  have hclosed : s.ClosedBy ((p.tokens.drop 2).take 5) t :=
    ⟨by decide +kernel, by decide +kernel, by decide +kernel, by decide +kernel⟩
  have hdepth : s.start.depth = 1 := by decide +kernel
  have hbraces : openBraces ((p.tokens.drop 2).take 5) = 1 := by decide +kernel
  refine ⟨by decide +kernel, s, List.get_mem _ _, t, List.get_mem _ _, _, by decide +kernel,
    hclosed, ?_⟩
  rw [levelWith_of_closed (p := p) rfl (by decide) (List.get_mem _ _) (List.get_mem _ _) hclosed,
    hdepth, hbraces]
  decide

end Printer

end TemplateFormat.Layout
