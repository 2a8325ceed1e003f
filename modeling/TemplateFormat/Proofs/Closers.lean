import TemplateFormat.Proofs.Steps

/-!
# The closing tag that a merge reaches

The two merges look for a closing tag in different ways: one passes over content
only, the other counts the elements of the same name that open in between, and
each stops at the end of its window.  What they find is the same: where either
reaches a closing tag, `closerIndex?` finds that tag in all the tokens that follow.

* `closerIndex?_append`, `closerIndex?_of_window` — a window only hides closing tags;
* `closerIndex?_other`, `closerIndex?_childless`, `closerIndex?_opening`,
  `closerIndex?_closing` — what one token does to the search;
* `closerIndex?_of_gather` — content merges find what tight merges look for;
* `absorbed_of_contentMerge`, `absorbed_of_tightMerge` — a merge takes the tokens up to
  that tag.
-/

namespace TemplateFormat.Layout

open Text Markup

/-- What is found does not depend on what follows it. -/
theorem closerIndex?_append {name : Text} {nest n found : Nat} {tokens : List Token}
    (h : closerIndex? name nest n tokens = some found) (rest : List Token) :
    closerIndex? name nest n (tokens ++ rest) = some found := by
  induction tokens generalizing nest n with
  | nil => simp [closerIndex?] at h
  | cons tok tokens ih =>
      rw [closerIndex?] at h
      rw [List.cons_append, closerIndex?]
      split at h
      · next hother => rw [if_pos hother, ih h]
      · next hname =>
          rw [if_neg hname]
          split at h
          · next hopen => rw [if_pos hopen, ih h]
          · next hclosing =>
              rw [if_neg hclosing]
              split at h
              · next hzero => rw [if_pos hzero, h]
              · next hnest => rw [if_neg hnest, ih h]

/-- What is found in a window is found without it. -/
theorem closerIndex?_of_window {name : Text} {nest n found window : Nat} {tokens : List Token}
    (h : closerIndex? name nest n (tokens.take window) = some found) :
    closerIndex? name nest n tokens = some found := by
  have hall := closerIndex?_append h (tokens.drop window)
  rwa [List.take_append_drop] at hall

/-! ## The search, token by token -/

/-- A token that is no tag of the name is passed over. -/
theorem closerIndex?_other {name : Text} {tok : Token}
    (h : (tok.isTag && tok.name == name) = false) (nest n : Nat) (rest : List Token) :
    closerIndex? name nest n (tok :: rest) = closerIndex? name nest (n + 1) rest := by
  rw [closerIndex?, if_pos (by rw [h]; rfl)]

/-- A tag without children is passed over, even one of the name. -/
theorem closerIndex?_childless {name : Text} {tok : Token} (hopening : tok.isClosingTag = false)
    (hchildless : tok.isChildless = true) (nest n : Nat) (rest : List Token) :
    closerIndex? name nest n (tok :: rest) = closerIndex? name nest (n + 1) rest := by
  simp [closerIndex?, hopening, hchildless]

/-- A start tag of the name is counted. -/
theorem closerIndex?_opening {name : Text} {tok : Token} (hstart : tok.isStartTag = true)
    (hchildren : tok.isChildless = false) (hname : tok.name = name) (nest n : Nat)
    (rest : List Token) :
    closerIndex? name nest n (tok :: rest) = closerIndex? name (nest + 1) (n + 1) rest := by
  have htag := Printer.isTag_of_isStartTag hstart
  have hopening : tok.isClosingTag = false := by
    cases hkind : tok.kind <;> simp_all [Token.isStartTag, Token.isClosingTag]
  rw [closerIndex?, if_neg (by simp [htag, hname]), if_pos (by simp [hopening]),
    if_neg (by simp [hchildren])]

/-- A closing tag of the name ends the search if nothing is open inside, and else takes
one off the count. -/
theorem closerIndex?_closing {name : Text} {tok : Token} (hclosing : tok.isClosingTag = true)
    (hname : tok.name = name) (nest n : Nat) (rest : List Token) :
    closerIndex? name nest n (tok :: rest) =
      if nest = 0 then some n else closerIndex? name (nest - 1) (n + 1) rest := by
  have htag := Printer.isTag_of_isClosingTag hclosing
  rw [closerIndex?, if_neg (by simp [htag, hname]), if_neg (by simp [hclosing])]

/-- Content is passed over. -/
theorem closerIndex?_content {name : Text} {parts : List Token}
    (hparts : ∀ part ∈ parts, part.isContent = true) (nest n : Nat) (rest : List Token) :
    closerIndex? name nest n (parts ++ rest) = closerIndex? name nest (n + parts.length) rest := by
  induction parts generalizing n with
  | nil => rfl
  | cons part parts ih =>
      have hpart : part.isContent = true := hparts part List.mem_cons_self
      have hother : part.isTag = false := by
        cases hkind : part.kind <;> simp_all [Token.isTag, Token.isContent]
      rw [List.cons_append, closerIndex?_other (by simp [hother]),
        ih fun p hp => hparts p (List.mem_cons_of_mem part hp), List.length_cons]
      congr 1
      omega

/-! ## What the merges find -/

/-- A content merge gathers up to the tag that a tight merge looks for. -/
theorem closerIndex?_of_gather {name : Text} {tokens parts : List Token} {closing : Token}
    (h : gather name [] tokens = some (parts, closing)) :
    closerIndex? name 0 0 tokens = some parts.length := by
  obtain ⟨content, rest, hparts, rfl, hcontent, hclosing, hname⟩ := gather_eq_some h
  obtain rfl : parts = content := by simpa using hparts
  rw [closerIndex?_content hcontent, closerIndex?_closing hclosing hname, if_pos rfl,
    Nat.zero_add]

/-- **A content merge** takes the tokens up to the matching closing tag. -/
theorem absorbed_of_contentMerge {o : Options} {ix : SourceIndex} {tok : Token}
    {after : List Token} {memo : SourceIndex.Memo} {merged : Merged}
    (h : (contentMerge o ix tok after memo).1 = some merged) :
    ∃ n, closerIndex? tok.name 0 0 after = some n ∧ merged.absorbed = n + 1 := by
  rw [contentMerge] at h
  split at h
  · cases h
  · next parts closing hgather =>
      refine ⟨parts.length, closerIndex?_of_window (closerIndex?_of_gather hgather), ?_⟩
      dsimp only at h
      split at h
      · cases h
        rfl
      · cases h

/-- **A tight merge** takes the tokens up to the matching closing tag. -/
theorem absorbed_of_tightMerge {o : Options} {ix : SourceIndex} {tok : Token}
    {after : List Token} {memo : SourceIndex.Memo} {merged : Merged}
    (h : (tightMerge o ix tok after memo).1 = some merged) :
    ∃ n, closerIndex? tok.name 0 0 after = some n ∧ merged.absorbed = n + 1 := by
  rw [tightMerge] at h
  split at h
  · cases h
  · next n hcloser =>
      refine ⟨n, closerIndex?_of_window hcloser, ?_⟩
      dsimp only at h
      split at h
      · cases h
        rfl
      · cases h

end TemplateFormat.Layout
