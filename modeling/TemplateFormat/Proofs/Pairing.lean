import TemplateFormat.Proofs.Closers
import TemplateFormat.Proofs.Spans

/-!
# Elements and the tags that a merge joins

The elements of a source are found with a stack of open start tags over the whole
document; a merge searches forward from one start tag with a counter.  However badly
the tags are nested, both join the same tags: for one name, the counter is the number
of start tags of that name above the one the search began at.

* `Placed.head_eq`, `Element.whole_eq`, `Element.content_eq` — an element is the part of
  the source between the offsets of its tags;
* `mem_pairFrom` — the stack and the counter, step by step;
* `exists_element` — the search ends at the closing tag of an element;
* `strip_between` — the glyphs of an element are those of its tokens.
-/

namespace TemplateFormat.Layout

open Text Markup

/-! ## Tokens in their places -/

namespace Placed

/-- The tokens are placed in order. -/
theorem map_token (index offset : Nat) (s : Text) (tokens : List Token) :
    (allFrom index offset s tokens).map token = tokens := by
  induction tokens generalizing index offset s with
  | nil => rfl
  | cons tok tokens ih => rw [allFrom, List.map_cons, ih]

/-- A token knows how many stand before it. -/
theorem index_eq {index offset : Nat} {s : Text} {tokens : List Token} {a b : List Placed}
    {p : Placed} (h : allFrom index offset s tokens = a ++ p :: b) :
    p.index = index + a.length := by
  induction tokens generalizing index offset s a with
  | nil => simp [allFrom] at h
  | cons tok tokens ih =>
      rw [allFrom] at h
      cases a with
      | nil =>
          obtain ⟨rfl, -⟩ := List.cons.inj h
          rfl
      | cons first a =>
          have hrest := ih (List.cons.inj h).2
          rw [hrest, List.length_cons]
          omega

/-- A placed token comes with the source from its start and from its end. -/
theorem head_eq {pos : Nat} {s : Text} {tokens : List Token} (h : Token.Spans pos s tokens)
    (front : Text) (hfront : front.width = pos) {index : Nat} {p : Placed}
    (hp : p ∈ allFrom index pos s tokens) :
    p.head = (front ++ s).dropWidth p.token.pos ∧ p.tail = (front ++ s).dropWidth p.token.stop := by
  induction h generalizing front index with
  | stop => cases hp
  | @token pos gap span rest tok tokens hgap hspan hpos hstop hliteral hnext tail ih =>
      have hgapwidth : tok.pos - pos = gap.width := by omega
      have hspanwidth : tok.stop - tok.pos = span.width := by omega
      have hhead : (gap ++ span ++ rest).dropWidth (tok.pos - pos) = span ++ rest := by
        rw [hgapwidth, List.append_assoc, dropWidth_width]
      have hbehind : (front ++ gap ++ span).width = tok.stop := by
        rw [width_append, width_append]
        omega
      have hsource : front ++ (gap ++ span ++ rest) = front ++ gap ++ span ++ rest := by
        simp only [List.append_assoc]
      rw [allFrom, hhead, hspanwidth, dropWidth_width] at hp
      rcases List.mem_cons.mp hp with rfl | hp
      · have hstart : tok.pos = (front ++ gap).width := by
          rw [width_append]
          omega
        constructor
        · rw [hsource, hstart, List.append_assoc (front ++ gap), dropWidth_width]
        · rw [hsource, ← hbehind, dropWidth_width]
      · rw [hsource]
        exact ih _ hbehind hp

end Placed

namespace Element

/-- The tags of an element stand in their places. -/
theorem placed_of_mem {unclosed rest : List Placed} {e : Element} (h : e ∈ pairFrom unclosed rest) :
    (e.opening ∈ unclosed ∨ e.opening ∈ rest) ∧ e.closing ∈ rest := by
  induction rest generalizing unclosed with
  | nil => cases h
  | cons p rest ih =>
      rw [pairFrom] at h
      split at h
      · obtain ⟨hopening, hclosing⟩ := ih h
        refine ⟨?_, List.mem_cons_of_mem p hclosing⟩
        rcases hopening with hopening | hopening
        · rcases List.mem_cons.mp hopening with heq | hopening
          · exact .inr (by rw [heq]; exact List.mem_cons_self)
          · exact .inl hopening
        · exact .inr (List.mem_cons_of_mem p hopening)
      · split at h
        · split at h
          · next opening hfind =>
              rcases List.mem_cons.mp h with rfl | h
              · exact ⟨.inl (List.mem_of_find?_eq_some hfind), List.mem_cons_self⟩
              · obtain ⟨hopening, hclosing⟩ := ih h
                exact ⟨hopening.imp List.mem_of_mem_eraseP (List.mem_cons_of_mem p),
                  List.mem_cons_of_mem p hclosing⟩
          · obtain ⟨hopening, hclosing⟩ := ih h
            exact ⟨hopening.imp_right (List.mem_cons_of_mem p), List.mem_cons_of_mem p hclosing⟩
        · obtain ⟨hopening, hclosing⟩ := ih h
          exact ⟨hopening.imp_right (List.mem_cons_of_mem p), List.mem_cons_of_mem p hclosing⟩

/-- **The source of an element** is the part between the ends of its tags, and its content
the part between the tags. -/
theorem whole_eq {source : Text} {e : Element} (h : e ∈ all source (Token.scan source)) :
    e.whole = source.slice e.start e.stop ∧
      e.content = source.slice e.innerStart e.innerStop := by
  obtain ⟨hopening, -⟩ := placed_of_mem h
  have hmem : e.opening ∈ Placed.allFrom 0 0 source (Token.scan source) := by
    rcases hopening with hnil | hmem
    · cases hnil
    · exact hmem
  obtain ⟨hhead, htail⟩ := Placed.head_eq (Token.spans_scan source) [] rfl hmem
  rw [List.nil_append] at hhead htail
  rw [whole, content, hhead, htail]
  exact ⟨rfl, rfl⟩

/-! ## The stack of open tags -/

/-- Closing one of the matching items leaves the others. -/
theorem filter_eraseP {α : Type} (matching : α → Bool) (items : List α) :
    (items.eraseP matching).filter matching = (items.filter matching).tail := by
  induction items with
  | nil => rfl
  | cons a items ih =>
      cases ha : matching a with
      | true => simp [ha]
      | false => simp [ha, ih]

/-- Closing one of the matching items leaves those that do not match. -/
theorem filter_eraseP_of_disjoint {α : Type} {matching other : α → Bool}
    (h : ∀ a, matching a = true → other a = false) (items : List α) :
    (items.eraseP matching).filter other = items.filter other := by
  induction items with
  | nil => rfl
  | cons a items ih =>
      cases ha : matching a with
      | true => simp [ha, h a ha]
      | false => simp [List.eraseP_cons_of_neg, ha, List.filter_cons, ih]

/-- A start tag with children is put on the stack. -/
theorem pairFrom_opening {p : Placed} (hstart : p.token.isStartTag = true)
    (hchildren : p.token.isChildless = false) (unclosed rest : List Placed) :
    pairFrom unclosed (p :: rest) = pairFrom (p :: unclosed) rest := by
  rw [pairFrom, if_pos (by simp [hstart, hchildren])]

/-- A closing tag ends the latest start tag of its name. -/
theorem pairFrom_closing {p opening : Placed} {unclosed : List Placed}
    (hclosing : p.token.isClosingTag = true)
    (hfind : unclosed.find? (·.token.name == p.token.name) = some opening) (rest : List Placed) :
    pairFrom unclosed (p :: rest) =
      ⟨opening, p⟩ :: pairFrom (unclosed.eraseP (·.token.name == p.token.name)) rest := by
  have hstart : p.token.isStartTag = false := by
    cases hkind : p.token.kind <;> simp_all [Token.isStartTag, Token.isClosingTag]
  rw [pairFrom, if_neg (by simp [hstart]), if_pos hclosing, hfind]

/-- Any other token leaves the start tags of a name as they are, unless it is a start tag
or a closing tag of that name. -/
theorem pairFrom_other {name : Text} {p : Placed} (hopening : (p.token.isStartTag &&
      !p.token.isChildless && p.token.name == name) = false)
    (hclosing : (p.token.isClosingTag && p.token.name == name) = false)
    (unclosed rest : List Placed) :
    ∃ unclosed', unclosed'.filter (·.token.name == name) = unclosed.filter (·.token.name == name) ∧
      pairFrom unclosed' rest <:+ pairFrom unclosed (p :: rest) := by
  rw [pairFrom]
  split
  · next hstart =>
      rw [hstart, Bool.true_and] at hopening
      exact ⟨p :: unclosed, by simp [hopening], List.suffix_refl _⟩
  · split
    · next hcloses =>
        rw [hcloses, Bool.true_and] at hclosing
        have hdisjoint : ∀ a : Placed, (a.token.name == p.token.name) = true →
            (a.token.name == name) = false := by
          intro a ha
          rw [beq_iff_eq.mp ha, hclosing]
        split
        · exact ⟨_, filter_eraseP_of_disjoint hdisjoint unclosed, List.suffix_cons _ _⟩
        · exact ⟨unclosed, rfl, List.suffix_refl _⟩
    · exact ⟨unclosed, rfl, List.suffix_refl _⟩

/-- **The stack and the counter agree.**  Where `opens` are the start tags of the name above
`opening`, a search that counts as many finds the closing tag that ends `opening`. -/
theorem mem_pairFrom {name : Text} (hname : isElementName name = true) {opening : Placed}
    {unclosed opens outer rest : List Placed} {n found : Nat}
    (hopen : unclosed.filter (·.token.name == name) = opens ++ opening :: outer)
    (hfound : closerIndex? name opens.length n (rest.map Placed.token) = some found) :
    ∃ inner closing later, rest = inner ++ closing :: later ∧ found = n + inner.length ∧
      ⟨opening, closing⟩ ∈ pairFrom unclosed rest := by
  induction rest generalizing unclosed opens n with
  | nil => cases hfound
  | cons p rest ih =>
      -- what is found behind `p` is found one token later
      have hlater : ∀ unclosed' opens' : List Placed,
          unclosed'.filter (·.token.name == name) = opens' ++ opening :: outer →
          closerIndex? name opens'.length (n + 1) (rest.map Placed.token) = some found →
          pairFrom unclosed' rest <:+ pairFrom unclosed (p :: rest) →
          ∃ inner closing later, p :: rest = inner ++ closing :: later ∧
            found = n + inner.length ∧ ⟨opening, closing⟩ ∈ pairFrom unclosed (p :: rest) := by
        intro unclosed' opens' hopen' hfound' hsuffix
        obtain ⟨inner, closing, later, rfl, hlength, hmem⟩ := ih hopen' hfound'
        refine ⟨p :: inner, closing, later, rfl, ?_, hsuffix.subset hmem⟩
        rw [hlength, List.length_cons]
        omega
      rw [List.map_cons] at hfound
      by_cases hstart : (p.token.isStartTag && !p.token.isChildless && p.token.name == name) = true
      · -- one more start tag of the name, on the stack and in the count
        simp only [Bool.and_eq_true, Bool.not_eq_true', beq_iff_eq] at hstart
        obtain ⟨⟨hstart, hchildren⟩, hsame⟩ := hstart
        rw [closerIndex?_opening hstart hchildren hsame] at hfound
        refine hlater (p :: unclosed) (p :: opens) ?_ hfound ?_
        · simp [hsame, hopen]
        · exact pairFrom_opening hstart hchildren unclosed rest ▸ List.suffix_refl _
      · by_cases hclosing : (p.token.isClosingTag && p.token.name == name) = true
        · -- a closing tag of the name ends the latest start tag
          simp only [Bool.and_eq_true, beq_iff_eq] at hclosing
          obtain ⟨hclosing, hsame⟩ := hclosing
          rw [closerIndex?_closing hclosing hsame] at hfound
          have hfind := List.head?_filter (p := fun q : Placed => q.token.name == name)
            (l := unclosed)
          rw [hopen, ← hsame] at hfind
          cases opens with
          | nil =>
              rw [pairFrom_closing hclosing hfind.symm]
              exact ⟨[], p, rest, rfl, by simpa using hfound.symm, List.mem_cons_self⟩
          | cons latest opens =>
              refine hlater _ opens ?_ (by simpa using hfound)
                (by rw [pairFrom_closing hclosing hfind.symm]; exact List.suffix_cons _ _)
              rw [hsame, filter_eraseP, hopen]
              rfl
        · -- the search and the stack pass over all other tokens
          rw [Bool.not_eq_true] at hstart hclosing
          obtain ⟨unclosed', hsame, hsuffix⟩ := pairFrom_other hstart hclosing unclosed rest
          refine hlater unclosed' opens (hsame.trans hopen) ?_ hsuffix
          by_cases htag : (p.token.isTag && p.token.name == name) = true
          · simp only [Bool.and_eq_true, beq_iff_eq] at htag
            obtain ⟨htag, hequal⟩ := htag
            have hopening : p.token.isClosingTag = false := by simpa [hequal] using hclosing
            have hchildless : p.token.isChildless = true := by
              cases hkind : p.token.kind with
              | tag => simp_all [Token.isStartTag, Token.isClosingTag, Token.name]
              | _ => simp [Token.isTag, hkind] at htag
            rwa [closerIndex?_childless hopening hchildless] at hfound
          · rw [Bool.not_eq_true] at htag
            rwa [closerIndex?_other htag] at hfound

/-- The elements that start behind some tokens are elements of the whole. -/
theorem pairFrom_suffix (unclosed front rest : List Placed) :
    ∃ unclosed', pairFrom unclosed' rest <:+ pairFrom unclosed (front ++ rest) := by
  induction front generalizing unclosed with
  | nil => exact ⟨unclosed, List.suffix_refl _⟩
  | cons p front ih =>
      rw [List.cons_append, pairFrom]
      split
      · exact ih _
      · split
        · split
          · obtain ⟨unclosed', hsuffix⟩ := ih (unclosed.eraseP (·.token.name == p.token.name))
            exact ⟨unclosed', hsuffix.trans (List.suffix_cons _ _)⟩
          · exact ih _
        · exact ih _

/-- **The search ends at the closing tag of an element**: the tag that a merge reaches from a
start tag is the one that is paired with it. -/
theorem exists_element {source : Text} {before after : List Token} {tok : Token} {n : Nat}
    (htokens : Token.scan source = before ++ tok :: after) (hstart : tok.isStartTag = true)
    (hchildren : tok.isChildless = false) (hfound : closerIndex? tok.name 0 0 after = some n) :
    ∃ e ∈ all source (Token.scan source), e.opening.token = tok ∧
      e.opening.index = before.length ∧ e.closing.index = before.length + 1 + n ∧
      ∃ inner rest, after = inner ++ e.closing.token :: rest ∧ inner.length = n := by
  have hname : isElementName tok.name = true := by
    cases hkind : tok.kind <;> simp_all [Token.isStartTag, Token.name]
  have hmap := Placed.map_token 0 0 source (Token.scan source)
  rw [htokens] at hmap
  obtain ⟨front, back, hplaced, hfront, hback⟩ := List.map_eq_append_iff.mp hmap
  obtain ⟨opening, rest, rfl, rfl, hrest⟩ := List.map_eq_cons_iff.mp hback
  obtain ⟨unclosed, hsuffix⟩ := pairFrom_suffix [] front (opening :: rest)
  rw [← htokens] at hplaced
  rw [pairFrom_opening hstart hchildren, ← hplaced] at hsuffix
  rw [← hrest] at hfound
  have hopen : (opening :: unclosed).filter (·.token.name == opening.token.name) =
      [] ++ opening :: unclosed.filter (·.token.name == opening.token.name) := by simp
  obtain ⟨inner, closing, later, hsplit, hn, hmem⟩ := mem_pairFrom hname hopen hfound
  have hopening := Placed.index_eq hplaced
  have hclosing : closing.index = before.length + 1 + n := by
    have hplaced' : Placed.allFrom 0 0 source (Token.scan source) =
        (front ++ opening :: inner) ++ closing :: later := by
      rw [hplaced, hsplit]
      simp
    rw [Placed.index_eq hplaced', hn, ← hfront]
    simp only [List.length_append, List.length_cons, List.length_map]
    omega
  refine ⟨⟨opening, closing⟩, hsuffix.subset hmem, rfl, ?_, hclosing, inner.map Placed.token,
    later.map Placed.token, ?_, ?_⟩
  · rw [hopening, ← hfront]
    simp
  · rw [← hrest, hsplit]
    simp
  · rw [hn]
    simp

end Element

/-! ## The glyphs of an element -/

/-- **The glyphs between two tokens** of a source are those of the tokens. -/
theorem strip_between {source : Text} {before inner rest : List Token} {first last : Token}
    (h : Token.scan source = before ++ first :: (inner ++ last :: rest)) :
    strip (source.slice first.pos last.stop) = Token.ink (first :: (inner ++ [last])) := by
  have hspans := Token.spans_scan source
  have hshape : before ++ first :: (inner ++ last :: rest) =
      before ++ (first :: (inner ++ [last]) ++ rest) := by simp
  rw [h, hshape] at hspans
  obtain ⟨x, y, rfl, -, hy, -⟩ := hspans.split
  rw [Nat.zero_add] at hy
  obtain ⟨z, w, rfl, hz, -, hstop⟩ := hy.split
  have hlast : x.width + z.width = last.stop := by
    rw [hstop, ← List.cons_append, List.getLast?_concat]
    rfl
  have hstrip := hz.strip_eq
  generalize hbetween : first :: (inner ++ [last]) = between at hz hstrip
  cases hz with
  | stop => cases hbetween
  | @token _ gap span tail _ _ hgap hspan hpos _ _ _ _ =>
      obtain ⟨rfl, -⟩ := List.cons.inj hbetween
      have hslice : slice first.pos last.stop (x ++ (gap ++ span ++ tail ++ w)) = span ++ tail := by
        have hsource : x ++ (gap ++ span ++ tail ++ w) = (x ++ gap) ++ (span ++ tail) ++ w := by
          simp only [List.append_assoc]
        have hpos' : first.pos = (x ++ gap).width := by rw [hpos, width_append]
        have hstop' : last.stop = (x ++ gap).width + (span ++ tail).width := by
          rw [← hlast]
          simp only [width_append]
          omega
        rw [hsource, hpos', hstop', slice_append]
      rw [hslice, ← hstrip, List.append_assoc, strip_append gap, strip_eq_nil_of_blank hgap,
        List.nil_append]

end TemplateFormat.Layout
