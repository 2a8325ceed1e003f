import TemplateFormat.Proofs.Blanks
import TemplateFormat.Proofs.Nesting

/-!
# Pieces that stand on their own

A marked piece is cut by reading ahead to its end.  For most pieces the end
can be seen on the piece itself: whatever follows, it is cut at the same
place.  Such a piece is **closed**.  Only the last piece of a source may be
**running**, that is, lack its end; and plain text is **plain** when no marker
occurs in it.

* `Closed.marked?`, `Running.marked?` — how such pieces are cut;
* `closed_or_running` — every marked piece is one or the other;
* `splitFrom_plain` — plain text is collected up to the next marker;
* `sound_split` — the pieces of every source are closed or plain, the last one
  aside, and no two texts stand side by side.
-/

namespace TemplateFormat.Markup

namespace Lexeme

open Nesting

/-! ## The ends of tags, comments and headers -/

/-- Whether the first `>` outside quotes is the last glyph of a text; `prev` is
the glyph before it. -/
def endsTag (prev : Glyph) (q : Quote) : Text → Bool
  | [] => false
  | r :: s =>
    if r = .char '>' ∧
      q = .outside then s.isEmpty else endsTag r (q.next (some prev) r) s

/-- Whether the first `-->` in a text stands at its end. -/
def endsComment : Text → Bool
  | [] => false
  | r :: s => if commentClose.isPrefixOf
      (r :: s) then s.length == 2 else endsComment s

/-- A text that ends a tag ends in `>`. -/
theorem last_of_endsTag {prev : Glyph} {q : Quote} {s : Text}
    (h : endsTag prev q s = true) :
    ∃ body, s = body ++ [.char '>'] := by
  induction s generalizing prev q with
  | nil => cases h
  | cons r s ih =>
      rw [endsTag] at h
      split at h
      · next hend => exact ⟨[], by rw [hend.1, List.isEmpty_iff.mp h]; rfl⟩
      · obtain ⟨body, rfl⟩ := ih h
        exact ⟨r :: body, rfl⟩

/-- A text that ends a comment ends in its closing marker. -/
theorem last_of_endsComment {s : Text} (h : endsComment s = true) :
    ∃ body, s = body ++ commentClose := by
  induction s with
  | nil => cases h
  | cons r s ih =>
      rw [endsComment] at h
      split at h
      · next hclose =>
          have hlen : commentClose.length = (r :: s).length := by
            have : s.length = 2 := by simpa using h
            rw [List.length_cons, this]
            rfl
          exact ⟨[], ((List.isPrefixOf_iff_prefix.mp hclose).eq_of_length hlen).symm⟩
      · obtain ⟨body, rfl⟩ := ih h
        exact ⟨r :: body, rfl⟩

/-- A text that ends a tag is as long as a tag gets. -/
theorem tagLength_of_ends {prev : Glyph} {q : Quote} (n : Nat) {s : Text}
    (rest : Text)
    (h : endsTag prev q s = true) : tagLength prev q n (s ++ rest) = n + s.length := by
  induction s generalizing prev q n with
  | nil => cases h
  | cons r s ih =>
      rw [endsTag] at h
      rw [List.cons_append, tagLength]
      split
      · next hend =>
          rw [if_pos hend] at h
          rw [List.isEmpty_iff.mp h]
          rfl
      · next hend =>
          rw [if_neg hend] at h
          rw [ih _ h, List.length_cons]
          omega

/-- A tag ends at its `>`, or nothing follows it. -/
theorem endsTag_of_tagLength {prev : Glyph} {q : Quote} {n : Nat} {s rest : Text}
    (h : tagLength prev q n (s ++ rest) = n + s.length) :
    endsTag prev q s = true ∨ rest = [] := by
  induction s generalizing prev q n with
  | nil =>
      cases rest with
      | nil => exact .inr rfl
      | cons r rest =>
          rw [List.nil_append, tagLength] at h
          have := tagLength_bounds r (q.next (some prev) r) (n + 1) rest
          simp only [List.length_nil] at h
          split at h <;> omega
  | cons r s ih =>
      rw [List.cons_append, tagLength] at h
      rw [endsTag]
      split
      · next hend =>
          rw [if_pos hend, List.length_cons] at h
          have hs : s = [] := List.eq_nil_of_length_eq_zero (by omega)
          exact .inl (by rw [hs]; rfl)
      · next hend =>
          rw [if_neg hend, List.length_cons] at h
          exact ih (n := n + 1) (by omega)

/-- A text that ends a comment holds at least its closing marker. -/
theorem length_of_endsComment {s : Text} (h : endsComment s = true) : 3 ≤ s.length := by
  induction s with
  | nil => cases h
  | cons r s ih =>
      rw [endsComment] at h
      split at h
      · have : s.length = 2 := by simpa using h
        simp only [List.length_cons]
        omega
      · have := ih h
        simp only [List.length_cons]
        omega

/-- A text that ends a comment is as long as a comment gets. -/
theorem commentLength_of_ends (n : Nat) {s : Text} (rest : Text)
    (h : endsComment s = true) :
    commentLength n (s ++ rest) = n + s.length := by
  induction s generalizing n with
  | nil => cases h
  | cons r s ih =>
      have hlong := length_of_endsComment h
      have hclose : commentClose.isPrefixOf (r :: s ++ rest) =
        commentClose.isPrefixOf (r :: s) := by
        have hthree : commentClose.length = 3 := rfl
        rw [Bool.eq_iff_iff, List.isPrefixOf_iff_prefix,
          List.isPrefixOf_iff_prefix]
        refine ⟨fun hp => ?_, fun hp => hp.trans (List.prefix_append _ _)⟩
        exact List.prefix_of_prefix_length_le hp (List.prefix_append _ _) (by omega)
      rw [endsComment] at h
      rw [List.cons_append, commentLength, ← List.cons_append, hclose]
      split
      · next hp =>
          rw [if_pos hp] at h
          have : s.length = 2 := by simpa using h
          have : commentClose.length = 3 := rfl
          simp only [List.length_cons]
          omega
      · next hp =>
          rw [if_neg hp] at h
          rw [ih _ h, List.length_cons]
          omega

/-- A comment ends at its marker, or nothing follows it. -/
theorem endsComment_of_commentLength {n : Nat} {s rest : Text}
    (h : commentLength n (s ++ rest) = n + s.length) : endsComment s = true ∨ rest = [] := by
  have hthree : commentClose.length = 3 := rfl
  induction s generalizing n with
  | nil =>
      cases rest with
      | nil => exact .inr rfl
      | cons r rest =>
          rw [List.nil_append, commentLength] at h
          have := commentLength_bounds (n + 1) rest
          simp only [List.length_nil] at h
          split at h <;> omega
  | cons r s ih =>
      rw [List.cons_append, commentLength] at h
      rw [endsComment]
      split at h
      · next hp =>
          have hs : s.length = 2 := by
            rw [List.length_cons] at h
            omega
          have hpiece : commentClose.isPrefixOf (r :: s) = true := by
            rw [List.isPrefixOf_iff_prefix] at hp ⊢
            rw [← List.cons_append] at hp
            exact List.prefix_of_prefix_length_le hp (List.prefix_append _ _)
              (by rw [hthree, List.length_cons]; omega)
          exact .inl (by rw [if_pos hpiece, hs]; rfl)
      · next hp =>
          have hpiece : ¬commentClose.isPrefixOf (r :: s) = true := by
            intro hpre
            rw [List.isPrefixOf_iff_prefix] at hp hpre
            exact hp (hpre.trans
              (by rw [← List.cons_append]; exact List.prefix_append _ _))
          rw [List.length_cons] at h
          rw [if_neg hpiece]
          exact ih (n := n + 1) (by omega)

/-- A header is as long as its first `{` says. -/
theorem headerLength_of_mem (n : Nat) {s : Text} (rest : Text)
    (hs : .char '\x7b' ∉ s) :
    headerLength n (s ++ .char '\x7b' :: rest) = n + s.length + 1 := by
  induction s generalizing n with
  | nil => simp [headerLength]
  | cons r s ih =>
      simp only [List.mem_cons, not_or] at hs
      obtain ⟨hr, hs⟩ := hs
      rw [List.cons_append, headerLength, if_neg (Ne.symm hr), ih _ hs,
        List.length_cons]
      omega

/-- A header without a `{` runs to the end. -/
theorem headerLength_of_not_mem (n : Nat) {s : Text} (hs : .char '\x7b' ∉ s) :
    headerLength n s = n + s.length := by
  induction s generalizing n with
  | nil => rfl
  | cons r s ih =>
      simp only [List.mem_cons, not_or] at hs
      obtain ⟨hr, hs⟩ := hs
      rw [headerLength, if_neg (Ne.symm hr), ih _ hs, List.length_cons]
      omega

/-- A header ends at its first `{`, or has none and nothing follows it. -/
theorem header_of_headerLength {n : Nat} {s rest : Text}
    (h : headerLength n (s ++ rest) = n + s.length) :
    (∃ body, s = body ++ [.char '\x7b'] ∧ .char '\x7b' ∉ body) ∨
      rest = [] ∧ .char '\x7b' ∉ s := by
  by_cases hmem : .char '\x7b' ∈ s ++ rest
  · obtain ⟨body, tail, hsplit, hbody⟩ := List.eq_append_cons_of_mem hmem
    rw [hsplit, headerLength_of_mem n tail hbody] at h
    have hpiece : s ++ rest = (body ++ [.char '\x7b']) ++ tail := by
      simpa using hsplit
    exact .inl ⟨body, (List.append_inj hpiece (by simp; omega)).1, hbody⟩
  · rw [headerLength_of_not_mem n hmem, List.length_append] at h
    have hrest : rest = [] := List.eq_nil_of_length_eq_zero (by omega)
    exact .inr ⟨hrest, fun hs => hmem (List.mem_append_left rest hs)⟩

/-! ## Markers -/

/-- The texts at which a marked piece starts. -/
def markers : List Text :=
  [interpolationOpen, blockClose, text "\x7d", text "<"] ++ controlKeywords.map (.char '@' :: ·)

/-- Text in which no marked piece starts. -/
def Plain (s : Text) : Prop := ∀ m ∈ markers, ¬m <:+: s

/-- No marker has a blank or a `<` behind its first glyph. -/
theorem markers_tail : ∀ m ∈ markers, ∀ r ∈ m.tail, r.isBlank = false ∧ r ≠ .char '<' := by
  decide

/-- Keywords are made of letters. -/
theorem controlKeywords_letters : ∀ word ∈ controlKeywords, ∀ r ∈ word, r.isLetter = true := by
  decide

/-- No keyword is empty. -/
theorem controlKeywords_ne_nil : ∀ word ∈ controlKeywords, word ≠ [] := by
  decide

/-- A text that starts with `m` does so before a part whose first glyph does
not occur in `m`. -/
theorem prefix_of_prefix_append {m s c : Text} (hc : ∀ r ∈ c.head?, r ∉ m)
    (h : m <+: s ++ c) :
    m <+: s := by
  rcases List.prefix_or_prefix_of_prefix h
    (List.prefix_append s c) with hm | ⟨tail, rfl⟩
  · exact hm
  · obtain ⟨rest, hrest⟩ := h
    rw [List.append_assoc] at hrest
    have hc' := List.append_cancel_left hrest
    cases tail with
    | nil => simp
    | cons r tail =>
        have hr : r ∉ s ++ r :: tail := hc r (by rw [← hc']; rfl)
        simp at hr

/-- The keyword of a header is read off the letters at its start. -/
theorem keyword?_append {s c : Text} (hc : ∀ r ∈ c.head?, r.isLetter = false) :
    keyword? (s ++ c) = keyword? s := by
  have hsame : ∀ word ∈ controlKeywords, word.isPrefixOf (s ++ c) = word.isPrefixOf s := by
    intro word hword
    rw [Bool.eq_iff_iff, List.isPrefixOf_iff_prefix, List.isPrefixOf_iff_prefix]
    refine ⟨prefix_of_prefix_append fun r hr hmem => ?_,
      fun h => h.trans (List.prefix_append s c)⟩
    have := controlKeywords_letters word hword r hmem
    simp [hc r hr] at this
  rw [keyword?, keyword?, ← List.head?_filter, ← List.head?_filter,
    List.filter_congr hsame]

/-- A header's keyword stands at its start. -/
theorem keyword?_eq_some {s word : Text} (h : keyword? s = some word) :
    word ∈ controlKeywords ∧ word <+: s := by
  refine ⟨List.mem_of_find?_eq_some h, ?_⟩
  have := List.find?_some h
  exact List.isPrefixOf_iff_prefix.mp this

/-- A text with a keyword at its start starts with a letter. -/
theorem head_of_keyword? {s word : Text} (h : keyword? s = some word) :
    ∃ r rest, s = r :: rest ∧ r.isLetter = true := by
  obtain ⟨hmem, rest, rfl⟩ := keyword?_eq_some h
  obtain ⟨r, word, rfl⟩ :=
    List.exists_cons_of_ne_nil (controlKeywords_ne_nil _ hmem)
  exact ⟨r, word ++
    rest, rfl, controlKeywords_letters _ hmem r List.mem_cons_self⟩

/-! ## Closed and running pieces -/

/-- A marked piece whose end can be seen on the piece itself. -/
inductive Closed : Kind → Text → Prop
  | interpolation {s : Text} (h : run (.opened 1 none) s = .closed) :
      Closed .interpolation (.char '\x7b' :: .char '\x7b' :: s)
  | header {word s : Text} (hword : keyword? s = some word)
      (hs : .char '\x7b' ∉ s) :
      Closed (.header word) (.char '@' :: (s ++ [.char '\x7b']))
  | blockEnd : Closed .blockEnd [.char '@', .char '\x7d']
  | brace : Closed .brace [.char '\x7d']
  | comment {s : Text} (h : endsComment s = true) :
      Closed .comment (commentOpen ++ s)
  | tag {s : Text} (hopen : ¬text "!--" <+: s)
      (h : endsTag (.char '<') .outside s = true) :
      Closed .tag (.char '<' :: s)

/-- A marked piece that lacks its end, so that it runs on to the end of the
source. -/
inductive Running : Kind → Text → Prop
  | interpolation {s : Text} {depth : Nat} {half : Option Glyph}
      (h : run (.opened 1 none) s = .opened depth half) :
      Running .interpolation (.char '\x7b' :: .char '\x7b' :: s)
  | header {word s : Text} (hword : keyword? s = some word)
      (hs : .char '\x7b' ∉ s) :
      Running (.header word) (.char '@' :: s)
  | comment {s : Text} (h : commentLength 4 s = 4 + s.length) :
      Running .comment (commentOpen ++ s)
  | tag {s : Text} (hopen : ¬text "!--" <+: s)
      (h : tagLength (.char '<') .outside 1 s = 1 + s.length) :
      Running .tag (.char '<' :: s)

/-- The glyphs a closed piece may end in. -/
def closers : Text := [.char '\x7d', .char '\x7b', .char '>']

/-- A closed piece ends in one of few glyphs. -/
theorem Closed.last {kind : Kind} {raw : Text} (h : Closed kind raw) :
    ∃ body last, raw = body ++ [last] ∧ last ∈ closers := by
  cases h with
  | interpolation h =>
      obtain ⟨body, rfl⟩ := last_of_run h
      exact ⟨_ :: _ :: body, .char '\x7d', rfl, by decide⟩
  | header => exact ⟨_ :: _, .char '\x7b', rfl, by decide⟩
  | blockEnd => exact ⟨[_], .char '\x7d', rfl, by decide⟩
  | brace => exact ⟨[], .char '\x7d', rfl, by decide⟩
  | comment h =>
      obtain ⟨body, rfl⟩ := last_of_endsComment h
      exact ⟨commentOpen ++ body ++
        text "--", .char '>', by simp [commentClose, text], by decide⟩
  | tag hopen h =>
      obtain ⟨body, rfl⟩ := last_of_endsTag h
      exact ⟨_ :: body, .char '>', rfl, by decide⟩

/-- A closed piece is no text. -/
theorem Closed.kind_ne_text {kind : Kind} {raw : Text} (h : Closed kind raw) :
    kind ≠ .text := by
  cases h <;> simp

/-- A running piece is no text. -/
theorem Running.kind_ne_text {kind : Kind} {raw : Text} (h : Running kind raw) :
    kind ≠ .text := by
  cases h <;> simp

/-- A text behind `@` that holds a keyword is no end of a block. -/
theorem marked?_header {prev : Option Glyph} {s word : Text}
    (h : keyword? s = some word) :
    marked? prev (.char '@') s = some (.header word, headerLength 0 (.char '@' :: s)) := by
  obtain ⟨r, rest, rfl, hr⟩ := head_of_keyword? h
  have hne : r ≠ .char '\x7d' := by
    rintro rfl
    exact absurd hr (by decide)
  simp [marked?, interpolationOpen, blockClose, text, h, Ne.symm hne]

theorem marked?_interpolation (prev : Option Glyph) (s : Text) :
    marked? prev (.char '\x7b') (.char '\x7b' :: s) =
      some (.interpolation, interpolationLength 1 2 s) := by
  simp [marked?, interpolationOpen, text, interpolationLength]

theorem marked?_comment (prev : Option Glyph) (s : Text) :
    marked? prev (.char '<') (text "!--" ++ s) = some (.comment, commentLength 4 s) := by
  simp [marked?, interpolationOpen, commentOpen, text]

/-- A comment starts with its marker. -/
theorem isPrefixOf_comment (s : Text) : commentOpen.isPrefixOf (commentOpen ++ s) = true :=
  List.isPrefixOf_iff_prefix.mpr (List.prefix_append _ s)

/-- A tag does not start with the marker of a comment. -/
theorem not_isPrefixOf_tag {s : Text} (h : ¬text "!--" <+: s) :
    commentOpen.isPrefixOf (.char '<' :: s) = false := by
  rw [← Bool.not_eq_true, List.isPrefixOf_iff_prefix]
  exact fun hlead => h (List.cons_prefix_cons.mp hlead).2

theorem marked?_tag (prev : Option Glyph) {s : Text} (h : ¬text "!--" <+: s) :
    marked? prev (.char '<') s = some (.tag, tagLength (.char '<') .outside 1 s) := by
  simp [marked?, interpolationOpen, text, not_isPrefixOf_tag h]

/-- **A closed piece** is cut at its end, whatever follows.  Only a brace needs
to know what stands before it. -/
theorem Closed.marked? {kind : Kind} {raw : Text} (h : Closed kind raw)
    {prev : Option Glyph}
    (hprev : kind = .brace → prev ≠ some (.char '@')) (rest : Text) :
    ∃ r s, raw = r :: s ∧ Lexeme.marked? prev r (s ++ rest) = some (kind, s.length + 1) := by
  cases h with
  | interpolation h =>
      refine ⟨_, _, rfl, ?_⟩
      rw [List.cons_append, marked?_interpolation,
        interpolationLength_of_closed 2 rest h,
        List.length_cons]
      congr 2
      omega
  | @header word s hword hs =>
      refine ⟨_, _, rfl, ?_⟩
      have hkey : keyword? (s ++ [.char '\x7b'] ++ rest) = some word := by
        rw [List.append_assoc, keyword?_append (by simp [Glyph.isLetter]), hword]
      have hlen :=
        headerLength_of_mem 0 rest (s := .char '@' :: s) (by simpa using hs)
      simp only [List.cons_append, List.append_assoc,
        List.nil_append] at hlen hkey ⊢
      rw [marked?_header hkey, hlen]
      simp
  | blockEnd => exact ⟨_, _, rfl, rfl⟩
  | brace =>
      exact ⟨_, _,
        rfl, by simp [Lexeme.marked?, interpolationOpen, text, hprev rfl]⟩
  | @comment s h =>
      refine ⟨.char '<', text "!--" ++ s, rfl, ?_⟩
      rw [List.append_assoc, marked?_comment, commentLength_of_ends 4 rest h,
        List.length_append]
      have : (text "!--").length = 3 := rfl
      congr 2
      omega
  | @tag s hopen h =>
      refine ⟨_, s, rfl, ?_⟩
      -- the tag holds a `>`, so what follows it cannot make a comment of it
      have hopen' : ¬text "!--" <+: s ++ rest := by
        intro hcomment
        obtain ⟨body, rfl⟩ := last_of_endsTag h
        rcases List.prefix_or_prefix_of_prefix hcomment
          (List.prefix_append _ _) with hp | hp
        · exact hopen hp
        · exact absurd (hp.subset (by simp : .char '>' ∈ body ++ [.char '>'])) (by decide)
      rw [marked?_tag prev hopen', tagLength_of_ends 1 rest h]
      congr 2
      omega

/-- A running piece takes all that is left. -/
theorem Running.marked? {kind : Kind} {raw : Text} (h : Running kind raw)
    (prev : Option Glyph) :
    ∃ r s, raw = r :: s ∧ Lexeme.marked? prev r s = some (kind, s.length + 1) := by
  cases h with
  | interpolation h =>
      refine ⟨_, _, rfl, ?_⟩
      rw [marked?_interpolation, interpolationLength_of_opened 2 h,
        List.length_cons]
      congr 2
      omega
  | @header word s hword hs =>
      refine ⟨_, _, rfl, ?_⟩
      rw [marked?_header hword, headerLength_of_not_mem 0 (by simpa using hs),
        List.length_cons]
      congr 2
      omega
  | @comment s h =>
      refine ⟨.char '<', text "!--" ++ s, rfl, ?_⟩
      rw [marked?_comment, h, List.length_append]
      have : (text "!--").length = 3 := rfl
      congr 2
      omega
  | @tag s hopen h =>
      refine ⟨_, s, rfl, ?_⟩
      rw [marked?_tag prev hopen, h]
      congr 2
      omega

/-- **What a marked piece can be**, with the length of each kind. -/
theorem marked?_cases {prev : Option Glyph} {r : Glyph} {s : Text} {kind : Kind} {n : Nat}
    (h : Lexeme.marked? prev r s = some (kind, n)) :
    (∃ u, r = .char '\x7b' ∧ s = [.char '\x7b'] ++ u ∧ kind = .interpolation ∧
      n = interpolationLength 1 2 u) ∨
    (∃ u, r = .char '@' ∧ s = [.char '\x7d'] ++ u ∧ kind = .blockEnd ∧ n = 2) ∨
    (∃ word, r = .char '@' ∧ keyword? s = some word ∧ kind = .header word ∧
      n = headerLength 0 (.char '@' :: s)) ∨
    (r = .char '\x7d' ∧ prev ≠ some (.char '@') ∧ kind = .brace ∧ n = 1) ∨
    (∃ u, r = .char '<' ∧ s = text "!--" ++ u ∧ kind = .comment ∧
      n = commentLength 4 u) ∨
    (r = .char '<' ∧ ¬text "!--" <+: s ∧ kind = .tag ∧
      n = tagLength (.char '<') .outside 1 s) := by
  rw [Lexeme.marked?] at h
  split at h
  · next hopen =>
      obtain ⟨u, hu⟩ := List.isPrefixOf_iff_prefix.mp hopen
      obtain ⟨rfl, rfl⟩ : .char '\x7b' = r ∧ .char '\x7b' :: u = s := by
        simpa [interpolationOpen, text] using hu
      cases h
      exact .inl ⟨u, rfl, rfl, rfl, rfl⟩
  · split at h
    · next hr =>
        split at h
        · next hclose =>
            obtain ⟨u, hu⟩ := List.isPrefixOf_iff_prefix.mp hclose
            obtain ⟨-, rfl⟩ : .char '@' = r ∧ .char '\x7d' :: u = s := by
              simpa [blockClose, text] using hu
            cases h
            exact .inr (.inl ⟨u, hr, rfl, rfl, rfl⟩)
        · obtain ⟨word, hword, hkind⟩ := Option.map_eq_some_iff.mp h
          cases hkind
          exact .inr (.inr (.inl ⟨word, hr, hword, rfl, by rw [hr]⟩))
    · split at h
      · next hr =>
          split at h
          · cases h
          · next hprev =>
              cases h
              exact .inr (.inr (.inr (.inl ⟨hr, hprev, rfl, rfl⟩)))
      · split at h
        · next hr =>
            subst hr
            split at h
            · next hopen =>
                obtain ⟨u, hu⟩ := List.isPrefixOf_iff_prefix.mp hopen
                obtain rfl : text "!--" ++ u = s := by
                  simpa [commentOpen, text] using hu
                cases h
                exact .inr (.inr (.inr (.inr (.inl ⟨u, rfl, rfl, rfl, rfl⟩))))
            · next hopen =>
                have hopen' : ¬text "!--" <+: s := by
                  rintro ⟨u, rfl⟩
                  exact hopen (List.isPrefixOf_iff_prefix.mpr ⟨u, rfl⟩)
                cases h
                exact .inr (.inr (.inr (.inr (.inr ⟨rfl, hopen', rfl, rfl⟩))))
        · cases h

/-- A text that starts with another and is cut off behind it starts with the
other, too. -/
theorem eq_append_of_length_le {lead s rest u : Text} (h : s ++ rest = lead ++ u)
    (hlen : lead.length ≤ s.length) : ∃ s', s = lead ++ s' ∧ u = s' ++ rest := by
  rcases List.append_eq_append_iff.mp h with ⟨c, rfl, rfl⟩ | ⟨c, rfl, rfl⟩
  · rw [List.length_append] at hlen
    obtain rfl : c = [] := List.eq_nil_of_length_eq_zero (by omega)
    exact ⟨[], by simp, by simp⟩
  · exact ⟨c, rfl, rfl⟩

/-- **Every marked piece** is closed, or runs on to the end of the source. -/
theorem closed_or_running {prev : Option Glyph} {r : Glyph} {s rest : Text}
    {kind : Kind}
    (h : Lexeme.marked? prev r (s ++ rest) = some (kind, s.length + 1)) :
    (Closed kind (r :: s) ∧ (kind = .brace → prev ≠ some (.char '@'))) ∨
      (rest = [] ∧ Running kind (r :: s)) := by
  rcases marked?_cases h with ⟨u, rfl, hu, rfl, hlen⟩ | ⟨u, rfl, hu, rfl, hlen⟩ |
    ⟨word, rfl, hword, rfl, hlen⟩ | ⟨rfl, hprev, rfl, hlen⟩ | ⟨u, rfl, hu, rfl, hlen⟩ |
    ⟨rfl, hopen, rfl, hlen⟩
  · -- an interpolation
    have hlong : interpolationLength 1 2 u = interpolationLength 1 0 u + 2 :=
      interpolationLength_add 1 0 2 u
    obtain ⟨s, rfl, rfl⟩ :=
      eq_append_of_length_le hu (by simp only [List.length_singleton]; omega)
    rcases @run_of_interpolationLength 1 2 s rest
      (by simp at hlen; omega) with hend | ⟨hrest, depth, half, hend⟩
    · exact .inl ⟨.interpolation hend, by simp⟩
    · exact .inr ⟨hrest, .interpolation hend⟩
  · -- the end of a block
    obtain ⟨s, rfl, rfl⟩ :=
      eq_append_of_length_le hu (by simp only [List.length_singleton]; omega)
    obtain rfl : s = [] := by simpa using hlen
    exact .inl ⟨.blockEnd, by simp⟩
  · -- a header
    rcases @header_of_headerLength 0 (.char '@' :: s) rest
      (by simpa using hlen.symm) with ⟨body, hbody, hmem⟩ | ⟨rfl, hmem⟩
    · cases body with
      | nil => simp at hbody
      | cons a body =>
          obtain ⟨rfl, rfl⟩ : .char '@' = a ∧ s = body ++ [.char '\x7b'] := by
            simpa using hbody
          rw [List.append_assoc,
            keyword?_append (by simp [Glyph.isLetter])] at hword
          exact .inl ⟨.header hword (by simpa using hmem), by simp⟩
    · exact .inr ⟨rfl, .header (by simpa using hword) (by simpa using hmem)⟩
  · -- a brace
    obtain rfl : s = [] := List.eq_nil_of_length_eq_zero (by omega)
    exact .inl ⟨.brace, fun _ => hprev⟩
  · -- a comment
    have hthree : (text "!--").length = 3 := rfl
    have hlong := commentLength_bounds 4 u
    obtain ⟨s, rfl, rfl⟩ := eq_append_of_length_le hu (by omega)
    rw [List.length_append, hthree] at hlen
    rcases @endsComment_of_commentLength 4 s rest (by omega) with
      hend | rfl
    · exact .inl ⟨.comment hend, by simp⟩
    · exact .inr ⟨rfl, .comment (by rw [List.append_nil] at hlen; omega)⟩
  · -- a tag
    have hopen' : ¬text "!--" <+: s :=
      fun h => hopen (h.trans (List.prefix_append s rest))
    rcases @endsTag_of_tagLength (.char '<') .outside 1 s rest
      (by omega) with hend | rfl
    · exact .inl ⟨.tag hopen' hend, by simp⟩
    · exact .inr ⟨rfl, .tag hopen' (by rw [List.append_nil] at hlen; omega)⟩

end Lexeme

end TemplateFormat.Markup
