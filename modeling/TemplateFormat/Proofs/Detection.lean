import Mathlib.Logic.Relation
import TemplateFormat.Indentation
import TemplateFormat.Proofs.Offsets

/-!
# What the detected indentation depends on

The indentation of a document is voted by its lines: those that are not blank, the first
thousand of them at most.  A line that is led by a tab counts for tabs, one that is led by
spaces for spaces and for the width of its lead.  Only the numbers of votes matter, so the
order of the lines does not, nor do blank lines and the lines that come later.

* `tabLed`, `spaceLed`, `widthVotes` — the votes;
* `detect_eq` — the indentation, told by the numbers of votes;
* `detect_of_perm` — the order of the voters leaves the numbers alone;
* `Retouched`, `retouched_iff` — the changes of the lines that do not matter: any number of them
  leads exactly to the documents that have the same voters in some order;
* `Leading`, `leading_foldl` — the scan over the candidate widths holds the smallest of those
  with the most votes;
* `detect_spec` — all of it together.
-/

namespace TemplateFormat.Indentation

open Text

/-! ## Votes -/

/-- The lines of a document. -/
def linesOf (source : Text) : List Text := source.splitOn (.char '\n')

/-- The lines that vote: the first ones that are not blank. -/
def voters (source : Text) : List Text :=
  ((linesOf source).filter (!Text.isBlank ·)).take lineLimit

/-- The glyphs that may lead a line. -/
def leadGlyphs : List Glyph :=
  [.char ' ', .char '\t', .char '\r', .char '\x0C', .char '\x0B']

/-- The spaces, tabs, carriage returns, form feeds and vertical tabs at the start of a line. -/
def leadOf (line : Text) : Text := line.takeWhile (leadGlyphs.contains ·)

/-- Whether there is a tab in the lead of a line. -/
def tabLed (line : Text) : Bool := (leadOf line).contains (.char '\t')

/-- Whether there is a space in the lead of a line, and no tab. -/
def spaceLed (line : Text) : Bool := (leadOf line).contains (.char ' ') && !tabLed line

/-- The number of lines led by tabs. -/
def tabVotes (source : Text) : Nat := (voters source).countP tabLed

/-- The number of lines led by spaces. -/
def spaceVotes (source : Text) : Nat := (voters source).countP spaceLed

/-- The number of lines led by spaces whose leads are `n` bytes wide. -/
def widthVotes (source : Text) (n : Nat) : Nat :=
  (voters source).countP fun line => spaceLed line && width (leadOf line) == n

/-- The glyphs that lead a line: the space characters that do not end it. -/
theorem isLead_eq (r : Glyph) : isLead r = leadGlyphs.contains r := by
  cases r with
  | stray b => rfl
  | char c =>
      rw [Bool.eq_iff_iff]
      simp only [isLead, Glyph.isSpace, leadGlyphs, Bool.and_eq_true, Bool.or_eq_true, beq_iff_eq,
        bne_iff_ne, ne_eq, Glyph.char.injEq, List.contains_iff_mem, List.mem_cons, List.not_mem_nil,
        or_false]
      constructor
      · intro h
        obtain ⟨hspace, hline⟩ := h
        rcases hspace with ((((h | h) | h) | h) | h) | h
        all_goals simp_all
      · intro h
        rcases h with rfl | rfl | rfl | rfl | rfl
        all_goals decide

/-- A lead has as many bytes as glyphs. -/
theorem width_leadOf (line : Text) : width (leadOf line) = (leadOf line).length := by
  have hbytes : ∀ r ∈ leadGlyphs, r.width = 1 := by decide
  refine width_eq_length fun r hr => hbytes r ?_
  exact List.contains_iff_mem.mp (List.all_eq_true.mp List.all_takeWhile r hr)

/-- How a line votes. -/
theorem ofLine_eq (line : Text) :
    Lead.ofLine line = if tabLed line then .tabs
      else if spaceLed line then .spaces (width (leadOf line)) else .none := by
  have hlead : line.takeWhile isLead = leadOf line := by
    rw [leadOf, funext isLead_eq]
  rw [Lead.ofLine, hlead, width_leadOf, spaceLed]
  show (if tabLed line = true then _ else _) = _
  cases tabLed line with
  | true => rfl
  | false => rw [Bool.not_false, Bool.and_true]

/-- The width that a line votes for. -/
def Lead.width? : Lead → Option Nat
  | .spaces width => some width
  | _ => Option.none

/-- A line votes for tabs if it is led by them. -/
theorem ofLine_eq_tabs (line : Text) : (Lead.ofLine line == .tabs) = tabLed line := by
  rw [ofLine_eq]
  cases tabLed line with
  | true => rfl
  | false => cases spaceLed line <;> rfl

/-- A line votes for the width of its lead if it is led by spaces. -/
theorem width?_ofLine (line : Text) :
    (Lead.ofLine line).width? = if spaceLed line then some (width (leadOf line)) else none := by
  rw [ofLine_eq, spaceLed]
  cases tabLed line with
  | true => simp [Lead.width?]
  | false =>
    simp only [Bool.not_false, Bool.and_true, Bool.false_eq_true, if_false]
    split <;> rfl

/-- What the voters vote. -/
theorem leads_eq (source : Text) : leads source = (voters source).map Lead.ofLine := rfl

/-- The votes for tabs. -/
theorem tabVotes_eq (source : Text) : tabVotes source = (leads source).count .tabs := by
  rw [leads_eq, List.count, List.countP_map]
  exact List.countP_congr fun line _ => by rw [Function.comp_apply, ofLine_eq_tabs]

/-- The votes for spaces. -/
theorem spaceVotes_eq (source : Text) :
    spaceVotes source = (leads source).countP (·.width?.isSome) := by
  rw [leads_eq, List.countP_map]
  refine List.countP_congr fun line _ => ?_
  rw [Function.comp_apply, width?_ofLine]
  cases spaceLed line <;> simp

/-- The votes for a width. -/
theorem widthVotes_eq (source : Text) (n : Nat) :
    widthVotes source n = (leads source).count (.spaces n) := by
  rw [leads_eq, List.count, List.countP_map]
  refine List.countP_congr fun line _ => ?_
  rw [Function.comp_apply, ofLine_eq, spaceLed]
  cases tabLed line with
  | true => simp
  | false => cases (leadOf line).contains (.char ' ') <;> simp

/-- **The indentation, told by the numbers of votes.** -/
theorem detect_eq (source : Text) :
    detect source =
      if tabVotes source + spaceVotes source = 0 then none
      else some {
        useSpaces := decide (tabVotes source ≤ spaceVotes source)
        size := if tabVotes source ≤ spaceVotes source then pickSize (widthVotes source)
          else defaultSize } := by
  have hspaces : ((leads source).filterMap Lead.width?).length = spaceVotes source := by
    rw [List.length_filterMap_eq_countP, spaceVotes_eq]
  have hwidths : ((leads source).filterMap Lead.width?).count = widthVotes source := by
    funext n
    rw [List.count_filterMap, widthVotes_eq, List.count]
    refine List.countP_congr fun lead _ => ?_
    cases lead <;> simp [Lead.width?]
  have hdetect : detect source =
      if (leads source).count .tabs + ((leads source).filterMap Lead.width?).length = 0 then
        none
      else some {
        useSpaces := decide ((leads source).count .tabs ≤
          ((leads source).filterMap Lead.width?).length)
        size := if decide ((leads source).count .tabs ≤
            ((leads source).filterMap Lead.width?).length) = true then
          pickSize ((leads source).filterMap Lead.width?).count
        else defaultSize } := rfl
  simp only [hdetect, ← tabVotes_eq, hspaces, hwidths, decide_eq_true_eq]

/-! ## Changes that do not matter -/

/-- The indentation depends on the voters only, and not on their order. -/
theorem detect_of_perm {source other : Text} (h : (voters other).Perm (voters source)) :
    detect other = detect source := by
  have htabs : tabVotes other = tabVotes source := h.countP_eq _
  have hspaces : spaceVotes other = spaceVotes source := h.countP_eq _
  have hwidths : widthVotes other = widthVotes source := by
    funext n
    exact h.countP_eq _
  rw [detect_eq, detect_eq, htabs, hspaces, hwidths]

/-- A change of the lines of a document that leaves the voters the same but for their order. -/
inductive Retouched (source other : Text) : Prop
  /-- A blank line more. -/
  | inserted (before after : List Text) (line : Text) (blank : line.isBlank = true)
      (old : linesOf source = before ++ after) (new : linesOf other = before ++ line :: after)
  /-- A blank line less. -/
  | removed (before after : List Text) (line : Text) (blank : line.isBlank = true)
      (old : linesOf source = before ++ line :: after) (new : linesOf other = before ++ after)
  /-- The first lines in another order, if all of them that are not blank vote. -/
  | reordered (before before' after : List Text) (perm : before'.Perm before)
      (few : before.countP (!Text.isBlank ·) ≤ lineLimit)
      (old : linesOf source = before ++ after) (new : linesOf other = before' ++ after)
  /-- Other lines behind all that vote. -/
  | continued (before after after' : List Text)
      (full : lineLimit ≤ before.countP (!Text.isBlank ·))
      (old : linesOf source = before ++ after) (new : linesOf other = before ++ after')

/-- A blank line does not vote. -/
theorem voters_of_blank {source other : Text} {before after : List Text} {line : Text}
    (hblank : line.isBlank = true) (hwithout : linesOf source = before ++ after)
    (hwith : linesOf other = before ++ line :: after) : voters other = voters source := by
  rw [voters, voters, hwithout, hwith]
  simp [List.filter_append, hblank]

/-- Lines that all vote, unless they are blank, may stand in any order. -/
theorem voters_perm_of_perm {source other : Text} {before before' after : List Text}
    (hperm : before'.Perm before) (hfew : before.countP (!Text.isBlank ·) ≤ lineLimit)
    (hsource : linesOf source = before ++ after) (hother : linesOf other = before' ++ after) :
    (voters other).Perm (voters source) := by
  have hfilter : (before'.filter (!Text.isBlank ·)).Perm (before.filter (!Text.isBlank ·)) :=
    hperm.filter _
  rw [List.countP_eq_length_filter] at hfew
  rw [voters, voters, hsource, hother, List.filter_append, List.filter_append, List.take_append,
    List.take_append, List.take_of_length_le hfew,
    List.take_of_length_le (hfilter.length_eq ▸ hfew), hfilter.length_eq]
  exact hfilter.append_right _

/-- **A change that does not matter** leaves the voters the same but for their order. -/
theorem Retouched.perm {source other : Text} (h : Retouched source other) :
    (voters other).Perm (voters source) := by
  cases h with
  | inserted before after line blank old new => rw [voters_of_blank blank old new]
  | removed before after line blank old new => rw [voters_of_blank blank new old]
  | reordered before before' after perm few old new => exact voters_perm_of_perm perm few old new
  | continued before after after' full old new =>
      have hfirst : ∀ rest : List Text,
          ((before ++ rest).filter (!Text.isBlank ·)).take lineLimit =
            (before.filter (!Text.isBlank ·)).take lineLimit := by
        intro rest
        rw [List.countP_eq_length_filter] at full
        rw [List.filter_append, List.take_append_of_le_length full]
      rw [voters, voters, old, new, hfirst, hfirst]

/-- Any such change can be taken back. -/
theorem Retouched.symm {source other : Text} (h : Retouched source other) :
    Retouched other source := by
  cases h with
  | inserted before after line blank old new => exact .removed before after line blank new old
  | removed before after line blank old new => exact .inserted before after line blank new old
  | reordered before before' after perm few old new =>
      exact .reordered before' before after perm.symm (by rw [perm.countP_eq]; exact few) new old
  | continued before after after' full old new =>
      exact .continued before after' after full new old

instance : Std.Symm Retouched := ⟨fun _ _ => Retouched.symm⟩

/-- The text of lines. -/
def ofLines (lines : List Text) : Text := join [.char '\n'] lines

/-- A document is the text of its lines. -/
theorem ofLines_linesOf (source : Text) : ofLines (linesOf source) = source :=
  List.intercalate_splitOn (Glyph.char '\n')

/-- A line has the glyphs of its document, and no newline. -/
theorem mem_of_mem_linesOf {source line : Text} (h : line ∈ linesOf source) {r : Glyph}
    (hr : r ∈ line) : r ∈ source ∧ r ≠ .char '\n' := by
  induction source generalizing line with
  | nil =>
      obtain rfl := List.mem_singleton.mp h
      cases hr
  | cons first rest ih =>
      obtain ⟨head, lines, hlines⟩ :=
        List.exists_cons_of_ne_nil (List.splitOnP_ne_nil (· == Glyph.char '\n') rest)
      have hrest : ∀ line ∈ head :: lines, r ∈ line → r ∈ first :: rest ∧ r ≠ .char '\n' := by
        rw [← hlines]
        exact fun line hline hmem => (ih hline hmem).imp_left (List.mem_cons_of_mem first)
      rw [linesOf, splitOn, List.splitOnP_cons_eq_if_modifyHead, hlines] at h
      split at h
      · rcases List.mem_cons.mp h with rfl | h
        · cases hr
        · exact hrest line h hr
      · next hfirst =>
          rw [List.modifyHead_cons] at h
          rcases List.mem_cons.mp h with rfl | h
          · rcases List.mem_cons.mp hr with rfl | hr
            · exact ⟨List.mem_cons_self, fun heq => hfirst (beq_iff_eq.mpr heq)⟩
            · exact hrest head List.mem_cons_self hr
          · exact hrest line (List.mem_cons_of_mem head h) hr

/-- No line holds a newline. -/
theorem newline_notMem_of_mem_linesOf {source line : Text} (h : line ∈ linesOf source) :
    .char '\n' ∉ line := fun hnewline => (mem_of_mem_linesOf h hnewline).2 rfl

/-- A blank document has no voters. -/
theorem voters_of_isBlank {source : Text} (h : source.isBlank = true) : voters source = [] := by
  have hnone : (linesOf source).filter (!Text.isBlank ·) = [] := by
    rw [List.filter_eq_nil_iff]
    intro line hline
    have hblank : line.isBlank = true := List.all_eq_true.mpr fun r hr =>
      List.all_eq_true.mp h r (mem_of_mem_linesOf hline hr).1
    simp [hblank]
  rw [voters, hnone, List.take_nil]

/-- Lines that hold no newline are the lines of their text. -/
theorem linesOf_ofLines {lines : List Text} (hne : lines ≠ [])
    (h : ∀ line ∈ lines, .char '\n' ∉ line) : linesOf (ofLines lines) = lines :=
  List.splitOn_intercalate _ h hne

/-- Blank lines are taken out one after the other. -/
theorem retouched_filter {kept rest : List Text} (hne : kept ≠ [])
    (hlines : linesOf (ofLines (kept ++ rest)) = kept ++ rest) :
    Relation.ReflTransGen Retouched (ofLines (kept ++ rest))
      (ofLines (kept ++ rest.filter (!Text.isBlank ·))) := by
  induction rest generalizing kept with
  | nil => exact .refl
  | cons line rest ih =>
      by_cases hblank : line.isBlank = true
      · have hwithout : linesOf (ofLines (kept ++ rest)) = kept ++ rest := by
          refine linesOf_ofLines (by simp [hne]) fun other hother => ?_
          have hmem : other ∈ linesOf (ofLines (kept ++ line :: rest)) := by
            rw [hlines]
            exact ((List.sublist_cons_self line rest).append_left kept).subset hother
          exact newline_notMem_of_mem_linesOf hmem
        rw [List.filter_cons_of_neg (by simp [hblank])]
        exact .head (.removed kept rest line hblank hlines hwithout) (ih hne hwithout)
      · rw [List.append_cons] at hlines
        rw [List.filter_cons_of_pos (by simpa using hblank), List.append_cons kept line rest,
          List.append_cons kept line (rest.filter _)]
        exact ih (by simp) hlines

/-- Some lines of a document and an empty one before them are the lines of their text. -/
theorem linesOf_ofLines_cons {source : Text} {lines : List Text} (h : lines ⊆ linesOf source) :
    linesOf (ofLines ([] :: lines)) = [] :: lines :=
  linesOf_ofLines (by simp) (List.forall_mem_cons.mpr
    ⟨List.not_mem_nil, fun _ hline => newline_notMem_of_mem_linesOf (h hline)⟩)

/-- The voters are lines. -/
theorem voters_subset (source : Text) : voters source ⊆ linesOf source :=
  ((List.take_sublist _ _).trans List.filter_sublist).subset

/-- No voter is blank. -/
theorem countP_voters (source : Text) :
    ([] :: voters source).countP (!Text.isBlank ·) = (voters source).length := by
  rw [List.countP_cons_of_neg (by decide), List.countP_eq_length]
  intro line hline
  exact (List.mem_filter.mp (List.mem_of_mem_take hline)).2

/-- Changes that do not matter lead from a document to its voters behind an empty line. -/
theorem retouched_voters (source : Text) :
    Relation.ReflTransGen Retouched source (ofLines ([] :: voters source)) := by
  let spoken := (linesOf source).filter (!Text.isBlank ·)
  have hspoken : linesOf (ofLines ([] :: spoken)) = [] :: spoken :=
    linesOf_ofLines_cons List.filter_sublist.subset
  have hlines : linesOf (ofLines ([] :: linesOf source)) = [] :: linesOf source :=
    linesOf_ofLines_cons (List.Subset.refl _)
  have hempty : Retouched source (ofLines ([] :: linesOf source)) :=
    .inserted [] (linesOf source) [] rfl rfl hlines
  have hdropped : Relation.ReflTransGen Retouched (ofLines ([] :: linesOf source))
      (ofLines ([] :: spoken)) := @retouched_filter [[]] (linesOf source) (by simp) hlines
  have hfiltered : Relation.ReflTransGen Retouched source (ofLines ([] :: spoken)) :=
    .head hempty hdropped
  rcases Nat.le_total spoken.length lineLimit with hfew | hmany
  · have hall : voters source = spoken := List.take_of_length_le hfew
    rw [hall]
    exact hfiltered
  · -- the lines behind the limit go
    have hlength : (voters source).length = lineLimit := List.length_take_of_le hmany
    have hfull : lineLimit ≤ ([] :: voters source).countP (!Text.isBlank ·) :=
      Nat.le_of_eq (hlength.symm.trans (countP_voters source).symm)
    refine hfiltered.tail (.continued ([] :: voters source) (spoken.drop lineLimit) [] hfull ?_ ?_)
    · rw [hspoken, List.cons_append, voters, List.take_append_drop]
    · rw [linesOf_ofLines_cons (voters_subset source), List.append_nil]

/-- **The changes are all that leave the voters the same** but for their order. -/
theorem retouched_iff {source other : Text} :
    Relation.ReflTransGen Retouched source other ↔ (voters other).Perm (voters source) := by
  constructor
  · intro h
    induction h with
    | refl => exact .refl _
    | tail _ hlast ih => exact hlast.perm.trans ih
  · intro hperm
    have hback : Relation.ReflTransGen Retouched (ofLines ([] :: voters other)) other :=
      Std.Symm.symm _ _ (retouched_voters other)
    have hfew : ([] :: voters source).countP (!Text.isBlank ·) ≤ lineLimit := by
      rw [countP_voters]
      exact List.length_take_le _ _
    have hstep : Retouched (ofLines ([] :: voters source)) (ofLines ([] :: voters other)) :=
      .reordered ([] :: voters source) ([] :: voters other) [] (hperm.cons []) hfew
        (by rw [linesOf_ofLines_cons (voters_subset source), List.append_nil])
        (by rw [linesOf_ofLines_cons (voters_subset other), List.append_nil])
    exact (retouched_voters source).trans (.head hstep hback)

/-! ## The most common width -/

/-- What the scan over the candidate widths `seen` holds: the smallest of those with the most
votes, and how many it has; the default as long as none has any. -/
structure Leading (count : Nat → Nat) (seen : List Nat) (held : Nat × Nat) : Prop where
  most : ∀ size ∈ seen, count size ≤ held.2
  unvoted : held.2 = 0 → held.1 = defaultSize
  voted : 0 < held.2 → held.1 ∈ seen ∧ count held.1 = held.2 ∧
    ∀ size ∈ seen, count size = held.2 → held.1 ≤ size

/-- One more candidate, if it has more votes than the one that is held. -/
def holdMore (count : Nat → Nat) (held : Nat × Nat) (size : Nat) : Nat × Nat :=
  if held.2 < count size then (size, count size) else held

/-- **One more candidate**, greater than all before. -/
theorem Leading.next {count : Nat → Nat} {seen : List Nat} {held : Nat × Nat} {size : Nat}
    (h : Leading count seen held) (hgreater : ∀ s ∈ seen, s < size) :
    Leading count (seen ++ [size]) (holdMore count held size) := by
  unfold holdMore
  split
  · next hmore =>
      refine ⟨?_, ?_, ?_⟩
      · intro s hs
        rcases List.mem_append.mp hs with hs | hs
        · have := h.most s hs
          dsimp only
          omega
        · exact Nat.le_of_eq (congrArg count (List.mem_singleton.mp hs))
      · intro hzero
        dsimp only at hzero
        omega
      · intro _
        refine ⟨by simp, rfl, ?_⟩
        intro s hs hsame
        rcases List.mem_append.mp hs with hs | hs
        · have := h.most s hs
          dsimp only at hsame
          omega
        · exact Nat.le_of_eq (List.mem_singleton.mp hs).symm
  · next hless =>
      refine ⟨?_, h.unvoted, ?_⟩
      · intro s hs
        rcases List.mem_append.mp hs with hs | hs
        · exact h.most s hs
        · rw [List.mem_singleton.mp hs]
          omega
      · intro hpos
        obtain ⟨hmem, hcount, hsmallest⟩ := h.voted hpos
        refine ⟨List.mem_append_left _ hmem, hcount, ?_⟩
        intro s hs hsame
        rcases List.mem_append.mp hs with hs | hs
        · exact hsmallest s hs hsame
        · have := hgreater held.1 hmem
          rw [List.mem_singleton.mp hs]
          omega

/-- **All candidates**, in ascending order. -/
theorem leading_foldl {count : Nat → Nat} {seen rest : List Nat} {held : Nat × Nat}
    (h : Leading count seen held) (hsorted : (seen ++ rest).Pairwise (· < ·)) :
    Leading count (seen ++ rest) (rest.foldl (holdMore count) held) := by
  induction rest generalizing seen held with
  | nil => simpa using h
  | cons size rest ih =>
      have hsplit : seen ++ size :: rest = (seen ++ [size]) ++ rest := by simp
      have hgreater : ∀ s ∈ seen, s < size := fun s hs =>
        (List.pairwise_append.mp hsorted).2.2 s hs size List.mem_cons_self
      rw [hsplit] at hsorted ⊢
      exact ih (h.next hgreater) hsorted

/-- Whether most of the votes for the widths are for this one, and for none that is smaller. -/
def MostVoted (count : Nat → Nat) (size : Nat) : Prop :=
  size ∈ candidateSizes ∧ ∀ other ∈ candidateSizes,
    count other < count size ∨ count other = count size ∧ size ≤ other

/-- **The size that is picked**: the default where no candidate has a vote, and else the
smallest of those that have the most. -/
theorem pickSize_spec (count : Nat → Nat) :
    ((∀ size ∈ candidateSizes, count size = 0) → pickSize count = defaultSize) ∧
      ((∃ size ∈ candidateSizes, 0 < count size) → MostVoted count (pickSize count)) := by
  have hnone : Leading count [] (defaultSize, 0) := ⟨by simp, fun _ => rfl, by simp⟩
  have hall : Leading count candidateSizes
      (candidateSizes.foldl (holdMore count) (defaultSize, 0)) :=
    leading_foldl hnone (by decide)
  have hpick : pickSize count = (candidateSizes.foldl (holdMore count) (defaultSize, 0)).1 := rfl
  rw [hpick]
  generalize candidateSizes.foldl (holdMore count) (defaultSize, 0) = held at hall ⊢
  constructor
  · intro hzero
    refine hall.unvoted (Nat.eq_zero_of_not_pos fun hpos => ?_)
    obtain ⟨hmem, hcount, -⟩ := hall.voted hpos
    have := hzero held.1 hmem
    omega
  · intro hsome
    obtain ⟨size, hsize, hpos⟩ := hsome
    have hbound := hall.most size hsize
    obtain ⟨hmem, hcount, hsmallest⟩ := hall.voted (by omega)
    refine ⟨hmem, fun other hother => ?_⟩
    have hless := hall.most other hother
    rw [hcount]
    by_cases hsame : count other = held.2
    · exact .inr ⟨hsame, hsmallest other hother hsame⟩
    · left
      omega

/-- A width that has the most votes is picked. -/
theorem pickSize_eq {count : Nat → Nat} {size : Nat} (h : MostVoted count size)
    (hvoted : 0 < count size) : pickSize count = size := by
  have hpicked := (pickSize_spec count).2 ⟨size, h.1, hvoted⟩
  have hmore := h.2 _ hpicked.1
  have hless := hpicked.2 size h.1
  omega

/-- Every candidate is a size of indentation. -/
theorem pickSize_pos (count : Nat → Nat) : 0 < pickSize count := by
  have hcandidates : ∀ size ∈ candidateSizes, 0 < size := by decide
  obtain ⟨hdefault, hvoted⟩ := pickSize_spec count
  by_cases hsome : ∃ size ∈ candidateSizes, 0 < count size
  · exact hcandidates _ (hvoted hsome).1
  · rw [hdefault fun size hsize => Nat.eq_zero_of_not_pos fun hpos => hsome ⟨size, hsize, hpos⟩]
    decide

/-! ## The indentation that is detected -/

/-- **A style that the lines of a document have voted for.** -/
structure Elected (source : Text) (style : Indentation) : Prop where
  spaces : style.useSpaces = true ↔ tabVotes source ≤ spaceVotes source
  voted : style.useSpaces = true → (∃ size ∈ candidateSizes, 0 < widthVotes source size) →
    MostVoted (widthVotes source) style.size
  unvoted : style.useSpaces = true → (∀ size ∈ candidateSizes, widthVotes source size = 0) →
    style.size = 4
  tabs : style.useSpaces = false → style.size = 4
  positive : 0 < style.size

/-- The style that is detected is the one that the lines vote for. -/
theorem elected_of_detect {source : Text} {style : Indentation}
    (h : detect source = some style) : Elected source style := by
  rw [detect_eq] at h
  split at h
  · cases h
  · obtain rfl := Option.some.inj h
    obtain ⟨hunvoted, hvoted⟩ := pickSize_spec (widthVotes source)
    by_cases hspaces : tabVotes source ≤ spaceVotes source
    · simp only [hspaces, decide_true, if_true]
      exact ⟨by simp [hspaces], fun _ => hvoted, fun _ => hunvoted, by simp, pickSize_pos _⟩
    · simp only [hspaces, decide_false, if_false]
      exact ⟨by simp [hspaces], by simp, by simp, fun _ => rfl, by decide⟩

/-- **What the detected indentation depends on.**  Blank lines put in or taken out anywhere, the
voters in another order, and other lines behind them leave it as it is, however many such changes
are made.  There is one exactly if a voter is led by a tab or by spaces, and it is the one that
the voters elect: spaces unless more lines are led by tabs, in the width that most of the
space-led lines have. -/
theorem detect_spec (source : Text) :
    (∀ other, Relation.ReflTransGen Retouched source other → detect other = detect source) ∧
      ((detect source).isSome = true ↔
        ∃ line ∈ voters source, tabLed line = true ∨ spaceLed line = true) ∧
      ∀ style ∈ detect source, Elected source style := by
  refine ⟨fun other hother => detect_of_perm (retouched_iff.mp hother), ?_, ?_⟩
  · have hvotes : tabVotes source + spaceVotes source = 0 ↔
        ∀ line ∈ voters source, ¬(tabLed line = true ∨ spaceLed line = true) := by
      rw [Nat.add_eq_zero_iff, tabVotes, spaceVotes, List.countP_eq_zero, List.countP_eq_zero]
      constructor
      · intro h line hline hled
        obtain ⟨htabs, hspaces⟩ := h
        exact hled.elim (htabs line hline) (hspaces line hline)
      · intro h
        exact ⟨fun line hline htab => h line hline (.inl htab),
          fun line hline hspace => h line hline (.inr hspace)⟩
    rw [detect_eq]
    split
    · next hnone =>
        simp only [Option.isSome_none, Bool.false_eq_true, false_iff]
        intro hled
        obtain ⟨line, hline, hled⟩ := hled
        exact hvotes.mp hnone line hline hled
    · next hsome =>
        simp only [Option.isSome_some, true_iff]
        refine Classical.byContradiction fun hno => ?_
        exact hsome (hvotes.mpr fun line hline hled => hno ⟨line, hline, hled⟩)
  · intro style hstyle
    exact elected_of_detect hstyle

/-- Lines in another order, with a blank one between them: the two widths have a vote each, and
the smaller one wins. -/
theorem detect_spec_shuffled :
    let source := text "\ta\n    b\n  c"
    let other := text "  c\n\n    b\n\ta"
    detect other = detect source ∧ detect source = some { size := 2, useSpaces := true } ∧
      Elected source { size := 2, useSpaces := true } := by
  intro source other
  obtain ⟨hsame, -, helected⟩ := detect_spec source
  have hreordered : Retouched source (text "  c\n    b\n\ta") :=
    .reordered (linesOf source) [text "  c", text "    b", text "\ta"] [] (by decide) (by decide)
      (by decide) (by decide)
  have hinserted : Retouched (text "  c\n    b\n\ta") other :=
    .inserted [text "  c"] [text "    b", text "\ta"] [] rfl (by decide) (by decide)
  have hfound : detect source = some { size := 2, useSpaces := true } := by decide
  exact ⟨hsame other (.tail (.single hreordered) hinserted), hfound, helected _ hfound⟩

end TemplateFormat.Indentation
