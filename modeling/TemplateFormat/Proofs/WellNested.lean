import TemplateFormat.Proofs.Closers

/-!
# Well-nested tokens

In a well-nested token list every opener has its closer: a start tag the closing
tag of its name, a control header a `}` or `@}`, and what stands between the two
is well nested again.  `WellNested` is that grammar, and `nests` decides it with
a stack of the openers that wait for their closers.

* `nests_append`, `nests_iff` — the stack follows the grammar;
* `exists_block`, `Block.unique` — every opener in a well-nested list has a closer,
  and only one;
* `closerIndex?_wellNested` — the search for a closing tag by name alone passes over
  a well-nested list, so (`closerIndex?_block`) it finds the closer of the start tag it
  began at.
-/

namespace TemplateFormat.Markup

namespace Token

/-- Whether the token stands for itself: text, an interpolation, or a tag that
neither opens nor closes a block. -/
def isLeaf (tok : Token) : Bool :=
  tok.isContent || (tok.isTag && !tok.isClosingTag && !tok.opensBlock)

/-- Whether the token is a `}` or `@}`. -/
def endsControl (tok : Token) : Bool :=
  match tok.kind with
  | .control _ | .closeBrace => tok.literal == blockClose || tok.literal == text "\x7d"
  | _ => false

/-- Whether the token opens a block that needs a closer: a start tag or a control
header.  Text that ends in a brace does not. -/
def isOpener (tok : Token) : Bool :=
  match tok.kind with
  | .tag .. | .control _ => tok.opensBlock
  | _ => false

/-- Whether the second token closes what the first opens. -/
def encloses (opener closer : Token) : Bool :=
  opener.isOpener &&
    match opener.kind with
    | .tag name _ _ => closer.isClosingTag && closer.name == name && closer.closesBlock
    | _ => closer.endsControl

end Token

/-- A sequence of leaves and of blocks, each an opener, a well-nested list and
the closer of the opener. -/
inductive WellNested : List Token → Prop
  | nil : WellNested []
  | leaf {tok : Token} {rest : List Token} :
      tok.isLeaf = true → WellNested rest → WellNested (tok :: rest)
  | block {opener closer : Token} {inner rest : List Token} :
      opener.encloses closer = true → WellNested inner → WellNested rest →
      WellNested (opener :: (inner ++ closer :: rest))

/-- Whether the tokens close the openers in `unclosed`, the latest first, and
are well nested around them. -/
def nests : (unclosed : List Token) → List Token → Bool
  | unclosed, [] => unclosed.isEmpty
  | unclosed, tok :: rest =>
    if tok.isLeaf then nests unclosed rest
    else if tok.isOpener then nests (tok :: unclosed) rest
    else unclosed.head?.any (·.encloses tok) && nests unclosed.tail rest

/-- What an opener opens in the tokens behind it: a well-nested list, and its
closer. -/
structure Block (opener : Token) (after inner : List Token) (closer : Token) (rest : List Token) :
    Prop where
  after_eq : after = inner ++ closer :: rest
  wellNested : WellNested inner
  encloses : opener.encloses closer = true

namespace Token

/-! ## Leaves, openers and closers -/

theorem isOpener_of_encloses {opener closer : Token} (h : opener.encloses closer = true) :
    opener.isOpener = true :=
  (Bool.and_eq_true_iff.mp h).1

theorem opensBlock_of_isOpener {tok : Token} (h : tok.isOpener = true) :
    tok.opensBlock = true := by
  rw [isOpener] at h
  split at h
  · exact h
  · exact h
  · cases h

/-- An opener is no leaf. -/
theorem not_isLeaf_of_isOpener {tok : Token} (h : tok.isOpener = true) : tok.isLeaf = false := by
  have hopens := opensBlock_of_isOpener h
  have hcontent : tok.isContent = false := by
    cases hkind : tok.kind <;> simp_all [isOpener, isContent]
  simp [isLeaf, hcontent, hopens]

theorem isOpener_of_isLeaf {tok : Token} (h : tok.isLeaf = true) : tok.isOpener = false := by
  cases hopener : tok.isOpener with
  | false => rfl
  | true => simp [not_isLeaf_of_isOpener hopener] at h

/-- A closer is the closing tag of a start tag with children, or the end of a control
block. -/
theorem closer_cases {opener closer : Token} (h : opener.encloses closer = true) :
    (closer.isClosingTag = true ∧ closer.name = opener.name ∧ closer.closesBlock = true ∧
      opener.isStartTag = true ∧ opener.isChildless = false) ∨
    (closer.endsControl = true ∧ opener.isTag = false) := by
  obtain ⟨hopener, h⟩ := Bool.and_eq_true_iff.mp h
  cases hkind : opener.kind with
  | tag name closing selfClosing =>
      have hopens := opensBlock_of_isOpener hopener
      simp only [hkind, Bool.and_eq_true, beq_iff_eq] at h
      simp only [opensBlock, hkind, Bool.and_eq_true, Bool.not_eq_true'] at hopens
      have hname : closer.name = opener.name := by rw [h.1.2, Token.name, hkind]
      exact .inl ⟨h.1.1, hname, h.2, by simp [isStartTag, hkind, hopens.1], hopens.2⟩
  | control word => exact .inr ⟨by simpa [hkind] using h, by simp [isTag, hkind]⟩
  | text => simp [isOpener, hkind] at hopener
  | closeBrace => simp [isOpener, hkind] at hopener
  | interpolation => simp [isOpener, hkind] at hopener

/-- A token that closes a level opens none. -/
theorem opensBlock_of_closesBlock {tok : Token} (h : tok.closesBlock = true) :
    tok.opensBlock = false := by
  have hbrace : ∀ s : Text, (s == blockClose || s == text "\x7d") = true →
      (holdsHeader s || (s.endsWith (text "\x7b") && !occursIn blockClose s)) = false := by
    intro s hs
    rcases Bool.or_eq_true_iff.mp hs with hs | hs <;> rw [beq_iff_eq.mp hs] <;> decide
  unfold closesBlock at h
  unfold opensBlock
  split at h
  · simp [(Bool.and_eq_true_iff.mp h).1]
  · dsimp only
    rw [hbrace _ (Bool.and_eq_true_iff.mp h).2, Bool.and_false]

/-- A `}` or `@}` closes a level. -/
theorem endsControl_blocks {tok : Token} (h : tok.endsControl = true) :
    tok.closesBlock = true ∧ tok.isTag = false ∧ tok.isContent = false := by
  have hcloses : ∀ s : Text, s = blockClose ∨ s = text "\x7d" →
      (!(occursIn interpolationOpen s && occursIn interpolationClose s) &&
        (s.trim == blockClose || s.trim == text "\x7d")) = true := by
    intro s hs
    rcases hs with rfl | rfl <;> decide
  rw [endsControl] at h
  split at h
  · next hkind =>
      simp only [closesBlock, isTag, isContent, hkind, holdsInterpolation]
      exact ⟨hcloses _ (by simpa using h), trivial, trivial⟩
  · next hkind =>
      simp only [closesBlock, isTag, isContent, hkind, holdsInterpolation]
      exact ⟨hcloses _ (by simpa using h), trivial, trivial⟩
  · cases h

/-- A closer closes a level and is no leaf. -/
theorem closer_blocks {opener closer : Token} (h : opener.encloses closer = true) :
    closer.closesBlock = true ∧ closer.isLeaf = false ∧ closer.isContent = false := by
  rcases closer_cases h with ⟨hclosing, -, hcloses, -⟩ | ⟨hends, -⟩
  · have hcontent : closer.isContent = false := by
      cases hkind : closer.kind <;> simp_all [isClosingTag, isContent]
    exact ⟨hcloses, by simp [isLeaf, hcontent, hclosing], hcontent⟩
  · obtain ⟨hcloses, htag, hcontent⟩ := endsControl_blocks hends
    exact ⟨hcloses, by simp [isLeaf, htag, hcontent], hcontent⟩

/-- A token that closes a level is no opener. -/
theorem isOpener_of_closesBlock {tok : Token} (h : tok.closesBlock = true) :
    tok.isOpener = false := by
  have hopens := opensBlock_of_closesBlock h
  cases hopener : tok.isOpener with
  | false => rfl
  | true => simp [opensBlock_of_isOpener hopener] at hopens

end Token

/-! ## The stack of open blocks -/

open Token

/-- A well-nested list leaves the stack as it was. -/
theorem nests_append {tokens : List Token} (h : WellNested tokens) (unclosed rest : List Token) :
    nests unclosed (tokens ++ rest) = nests unclosed rest := by
  induction h generalizing unclosed rest with
  | nil => rfl
  | leaf hleaf _ ih => rw [List.cons_append, nests, if_pos hleaf, ih]
  | @block opener closer inner _ hencloses _ _ ihinner ihrest =>
      have hopener := isOpener_of_encloses hencloses
      have hopen : ∀ tokens, nests unclosed (opener :: tokens) =
          nests (opener :: unclosed) tokens := by
        intro tokens
        rw [nests, if_neg (by simp [not_isLeaf_of_isOpener hopener]), if_pos hopener]
      have hclose : ∀ tokens, nests (opener :: unclosed) (closer :: tokens) =
          nests unclosed tokens := by
        intro tokens
        rw [nests, if_neg (by simp [(closer_blocks hencloses).2.1]),
          if_neg (by simp [isOpener_of_closesBlock (closer_blocks hencloses).1])]
        simp [hencloses]
      rw [List.cons_append, List.append_assoc, List.cons_append, hopen, ihinner, hclose, ihrest]

/-- Well-nested lists side by side are well nested. -/
theorem WellNested.append {a b : List Token} (ha : WellNested a) (hb : WellNested b) :
    WellNested (a ++ b) := by
  induction ha with
  | nil => exact hb
  | leaf hleaf _ ih => exact .leaf hleaf ih
  | block hencloses hinner _ _ ih =>
      rw [List.cons_append, List.append_assoc, List.cons_append]
      exact .block hencloses hinner ih

/-- What it takes to close the openers in `unclosed`: behind a well-nested list
the closer of the latest, and behind it what closes the others. -/
def Closes : (unclosed tokens : List Token) → Prop
  | [], tokens => WellNested tokens
  | opener :: outer, tokens => ∃ inner closer rest, tokens = inner ++ closer :: rest ∧
      WellNested inner ∧ opener.encloses closer = true ∧ Closes outer rest

/-- A well-nested list may stand before what closes the openers. -/
theorem Closes.prepend {front unclosed tokens : List Token} (hfront : WellNested front)
    (h : Closes unclosed tokens) : Closes unclosed (front ++ tokens) := by
  cases unclosed with
  | nil => exact hfront.append h
  | cons opener outer =>
      obtain ⟨inner, closer, rest, rfl, hinner, hclose⟩ := h
      exact ⟨front ++ inner, closer, rest, by simp, hfront.append hinner, hclose⟩

/-- The stack accepts nothing but what closes its openers. -/
theorem closes_of_nests {unclosed tokens : List Token} (h : nests unclosed tokens = true) :
    Closes unclosed tokens := by
  induction tokens generalizing unclosed with
  | nil =>
      obtain rfl : unclosed = [] := by simpa [nests] using h
      exact .nil
  | cons tok tokens ih =>
      rw [nests] at h
      split at h
      · next hleaf => exact (ih h).prepend (.leaf hleaf .nil)
      · split at h
        · -- the block of the opener is one more well-nested list
          obtain ⟨inner, closer, rest, rfl, hinner, hencloses, hrest⟩ := ih h
          have hblock := hrest.prepend (.block hencloses hinner .nil)
          simpa using hblock
        · cases unclosed with
          | nil => cases h
          | cons opener outer =>
              obtain ⟨hencloses, hrest⟩ := Bool.and_eq_true_iff.mp h
              exact ⟨[], tok, tokens, rfl, .nil, hencloses, ih hrest⟩

/-- **The stack decides the grammar.** -/
theorem nests_iff {tokens : List Token} : nests [] tokens = true ↔ WellNested tokens := by
  constructor
  · exact closes_of_nests
  · intro h
    have hnests := nests_append h [] []
    rwa [List.append_nil] at hnests

instance (tokens : List Token) : Decidable (WellNested tokens) :=
  decidable_of_iff (nests [] tokens = true) nests_iff

/-- Behind the first tokens of a well-nested list, some openers are left to close. -/
theorem exists_nests_of_append {unclosed front tokens : List Token}
    (h : nests unclosed (front ++ tokens) = true) : ∃ left, nests left tokens = true := by
  induction front generalizing unclosed with
  | nil => exact ⟨unclosed, h⟩
  | cons tok front ih =>
      rw [List.cons_append, nests] at h
      split at h
      · exact ih h
      · split at h
        · exact ih h
        · cases unclosed with
          | nil => cases h
          | cons opener outer => exact ih (Bool.and_eq_true_iff.mp h).2

/-- **Every opener has a closer.** -/
theorem WellNested.exists_block {front after : List Token} {opener : Token}
    (h : WellNested (front ++ opener :: after)) (hopener : opener.isOpener = true) :
    ∃ inner closer rest, Block opener after inner closer rest := by
  obtain ⟨left, hleft⟩ := exists_nests_of_append (nests_iff.mpr h)
  rw [nests, if_neg (by simp [not_isLeaf_of_isOpener hopener]), if_pos hopener] at hleft
  obtain ⟨inner, closer, rest, hafter, hinner, hencloses, -⟩ := closes_of_nests hleft
  exact ⟨inner, closer, rest, hafter, hinner, hencloses⟩

/-- No well-nested list goes on with a closer that nothing before it waits for. -/
theorem WellNested.not_closer {inner more : List Token} {opener closer : Token}
    (hinner : WellNested inner) (hencloses : opener.encloses closer = true) :
    ¬WellNested (inner ++ closer :: more) := by
  intro h
  have hnests := nests_iff.mpr h
  rw [nests_append hinner, nests, if_neg (by simp [(closer_blocks hencloses).2.1]),
    if_neg (by simp [isOpener_of_closesBlock (closer_blocks hencloses).1])] at hnests
  cases hnests

/-- **It has only one.** -/
theorem Block.unique {opener closer closer' : Token} {after inner inner' rest rest' : List Token}
    (h : Block opener after inner closer rest) (h' : Block opener after inner' closer' rest') :
    inner = inner' ∧ closer = closer' ∧ rest = rest' := by
  have heq := h.after_eq.symm.trans h'.after_eq
  rcases List.append_eq_append_iff.mp heq with ⟨more, hsplit, htail⟩ | ⟨more, hsplit, htail⟩
  · cases more with
    | nil =>
        rw [List.append_nil] at hsplit
        rw [List.nil_append, List.cons.injEq] at htail
        exact ⟨hsplit.symm, htail⟩
    | cons tok more =>
        obtain ⟨rfl, -⟩ := List.cons.inj htail
        exact absurd (hsplit ▸ h'.wellNested) (h.wellNested.not_closer h.encloses)
  · cases more with
    | nil =>
        rw [List.append_nil] at hsplit
        rw [List.nil_append, List.cons.injEq] at htail
        exact ⟨hsplit, htail.1.symm, htail.2.symm⟩
    | cons tok more =>
        obtain ⟨rfl, -⟩ := List.cons.inj htail
        exact absurd (hsplit ▸ h.wellNested) (h'.wellNested.not_closer h'.encloses)

end TemplateFormat.Markup

namespace TemplateFormat.Layout

open Markup Token

/-! ## The search for a closing tag -/

/-- A leaf is passed over: a tag of an element that opens no block is childless. -/
theorem closerIndex?_leaf {name : Text} (hname : isElementName name = true) {tok : Token}
    (h : tok.isLeaf = true) (nest n : Nat) (rest : List Token) :
    closerIndex? name nest n (tok :: rest) = closerIndex? name nest (n + 1) rest := by
  cases hsame : tok.isTag && tok.name == name with
  | false => exact closerIndex?_other hsame nest n rest
  | true =>
      obtain ⟨htag, hequal⟩ := Bool.and_eq_true_iff.mp hsame
      have hcontent : tok.isContent = false := by
        cases hkind : tok.kind <;> simp_all [isTag, isContent]
      simp only [isLeaf, hcontent, htag, Bool.false_or, Bool.true_and, Bool.and_eq_true,
        Bool.not_eq_true'] at h
      obtain ⟨hopening, hopens⟩ := h
      have hchildless : tok.isChildless = true := by
        cases hkind : tok.kind with
        | tag =>
            simp_all [opensBlock, Token.name, isClosingTag]
        | _ => simp [isTag, hkind] at htag
      exact closerIndex?_childless hopening hchildless nest n rest

/-- **A well-nested list is passed over**, whatever elements of the name it holds. -/
theorem closerIndex?_wellNested {name : Text} (hname : isElementName name = true)
    {tokens : List Token} (h : WellNested tokens) (nest n : Nat) (rest : List Token) :
    closerIndex? name nest n (tokens ++ rest) =
      closerIndex? name nest (n + tokens.length) rest := by
  induction h generalizing nest n rest with
  | nil => rfl
  | leaf hleaf _ ih =>
      rw [List.cons_append, closerIndex?_leaf hname hleaf, ih, List.length_cons]
      congr 1
      omega
  | @block opener closer inner tokens hencloses hinner htokens ihinner ihrest =>
      have hlength : n + (opener :: (inner ++ closer :: tokens)).length =
          n + 1 + inner.length + 1 + tokens.length := by
        simp only [List.length_cons, List.length_append]
        omega
      rw [List.cons_append, List.append_assoc, List.cons_append, hlength]
      cases hsame : opener.isTag && opener.name == name with
      | true =>
          -- the opener is counted, and its closer takes it off the count
          obtain ⟨htag, hequal⟩ := Bool.and_eq_true_iff.mp hsame
          rcases closer_cases hencloses with
            ⟨hclosing, hcloser, -, hstart, hchildren⟩ | ⟨-, hnot⟩
          · have hopener : opener.name = name := beq_iff_eq.mp hequal
            rw [closerIndex?_opening hstart hchildren hopener, ihinner,
              closerIndex?_closing hclosing (hcloser.trans hopener), if_neg (by omega),
              Nat.add_sub_cancel, ihrest]
          · rw [hnot] at htag
            cases htag
      | false =>
          have hother : (closer.isTag && closer.name == name) = false := by
            rcases closer_cases hencloses with ⟨-, hcloser, -, hstart, -⟩ | ⟨hends, -⟩
            · have htag := Printer.isTag_of_isStartTag hstart
              rw [htag, Bool.true_and] at hsame
              rw [hcloser, hsame, Bool.and_false]
            · rw [(endsControl_blocks hends).2.1, Bool.false_and]
          rw [closerIndex?_other hsame, ihinner, closerIndex?_other hother, ihrest]

/-- **The search finds the closer** of the start tag it began at. -/
theorem closerIndex?_block {opener closer : Token} {after inner rest : List Token}
    (hstart : opener.isStartTag = true) (h : Block opener after inner closer rest) :
    closerIndex? opener.name 0 0 after = some inner.length := by
  have hname : isElementName opener.name = true := by
    cases hkind : opener.kind <;> simp_all [isStartTag, Token.name]
  rcases closer_cases h.encloses with ⟨hclosing, hcloser, -⟩ | ⟨-, hnot⟩
  · rw [h.after_eq, closerIndex?_wellNested hname h.wellNested,
      closerIndex?_closing hclosing hcloser, if_pos rfl, Nat.zero_add]
  · rw [Printer.isTag_of_isStartTag hstart] at hnot
    cases hnot

end TemplateFormat.Layout
