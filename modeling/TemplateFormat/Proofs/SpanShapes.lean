import TemplateFormat.Proofs.Quoting
import TemplateFormat.Proofs.Spans

/-!
# Where a token ends

The scanner finds the end of a piece by reading ahead, with a counter or with the state of
quotes.  Seen from outside, every marked piece has one rule: it is the **first** leading part
of the source that is complete, or, if no part is, all the source that is left (`UpTo`).
What it takes to be complete depends on the kind of the piece:

* `ClosesMarkers` — the markers of an interpolation count up to zero;
* `ClosesTag` — a `>` outside quotes;
* `ClosesComment` — a `-->` behind the `<!--`;
* `OpensBody` — the brace of a control header.

Text is what is left between the pieces, and holds no marker.

* `Lexeme.exists_cut` — a token is read off a piece that stands in the source;
* `scan_shapes` — the shape of every token of a file, and the place of every `}`.
-/

namespace TemplateFormat.Markup

open Text Nesting

/-! ## Complete pieces -/

/-- The number of `{{` less the number of `}}` in a text, read from left to right. -/
def markerBalance : Text → Int
  | [] => 0
  | [_] => 0
  | a :: b :: s =>
    if a = .char '\x7b' ∧ b = .char '\x7b' then markerBalance s + 1
    else if a = .char '\x7d' ∧ b = .char '\x7d' then markerBalance s - 1
    else markerBalance (b :: s)

/-- An interpolation is complete when as many markers are closed as were opened, the first
one included. -/
def ClosesMarkers (part : Text) : Prop :=
  interpolationOpen.length ≤ part.length ∧ markerBalance part = 0

/-- A tag is complete at a `>` before which no quotes are open. -/
def ClosesTag (part : Text) : Prop :=
  ∃ body, part = body ++ [.char '>'] ∧ Quote.outside.after none body = .outside

/-- A comment is complete at a closing marker behind the opening one. -/
def ClosesComment (part : Text) : Prop :=
  ∃ body, part = commentOpen ++ body ++ commentClose

/-- A control header is complete at a `{`. -/
def OpensBody (part : Text) : Prop :=
  ∃ body, part = body ++ [.char '\x7b']

/-- The text `span` is the first leading part of the source that is complete, or runs on to
the end of the source; `last` tells that it ends there. -/
structure UpTo (complete : Text → Prop) (span : Text) (last : Prop) : Prop where
  first : ∀ part, part <+: span → part ≠ span → ¬complete part
  stop : complete span ∨ last

/-! ## The count of markers -/

/-- Markers that are left open are counted. -/
theorem markerBalance_of_opened {s : Text} {depth depth' : Nat} {half : Option Glyph}
    (h : run (.opened depth none) s = .opened depth' half) (hdepth : 0 < depth) :
    markerBalance s = depth' - depth ∧ 0 < depth' := by
  fun_induction markerBalance s generalizing depth with
  | case1 =>
      cases h
      exact ⟨by omega, hdepth⟩
  | case2 a =>
      have hsame : depth' = depth := by
        simp only [run_cons, run_nil, next] at h
        split at h
        · simp_all
        · split at h <;> simp_all
      rw [hsame]
      exact ⟨by omega, hdepth⟩
  | case3 a b s hab ih =>
      obtain ⟨rfl, rfl⟩ := hab
      obtain ⟨hcount, hopen⟩ := @ih (depth + 1) (by simpa [next] using h) (by omega)
      exact ⟨by omega, hopen⟩
  | case4 a b s _ hab ih =>
      obtain ⟨rfl, rfl⟩ := hab
      rw [Lexeme.run_close_pair] at h
      split at h
      · cases s <;> simp [next] at h
      · obtain ⟨hcount, hopen⟩ := ih h (by omega)
        exact ⟨by omega, hopen⟩
  | case5 a b s hopen hclose ih =>
      rw [Lexeme.run_of_no_pair hopen hclose] at h
      exact ih h hdepth

/-- Markers that are all closed count up to zero. -/
theorem markerBalance_of_closed {s : Text} {depth : Nat}
    (h : run (.opened depth none) s = .closed) (hdepth : 0 < depth) :
    markerBalance s = -depth := by
  fun_induction markerBalance s generalizing depth with
  | case1 => cases h
  | case2 a =>
      simp only [run_cons, run_nil, next] at h
      split at h
      · simp at h
      · split at h <;> simp at h
  | case3 a b s hab ih =>
      obtain ⟨rfl, rfl⟩ := hab
      have hcount := @ih (depth + 1) (by simpa [next] using h) (by omega)
      omega
  | case4 a b s _ hab ih =>
      obtain ⟨rfl, rfl⟩ := hab
      rw [Lexeme.run_close_pair] at h
      split at h
      · rw [run_closed_eq.mp h]
        simp only [markerBalance]
        omega
      · have hcount := ih h (by omega)
        omega
  | case5 a b s hopen hclose ih =>
      rw [Lexeme.run_of_no_pair hopen hclose] at h
      exact ih h hdepth

theorem markerBalance_open (s : Text) :
    markerBalance (interpolationOpen ++ s) = markerBalance s + 1 := by
  simp [interpolationOpen, text, markerBalance]

/-- A scan that has not gone past the end was open before its last glyphs. -/
theorem opened_of_run_append {n : Nesting} {a b : Text} (h : n.run (a ++ b) ≠ .passed)
    (hb : b ≠ []) : ∃ depth half, n.run a = .opened depth half := by
  obtain ⟨r, b, rfl⟩ := List.exists_cons_of_ne_nil hb
  rw [run_append, run_cons] at h
  cases ha : n.run a with
  | opened depth half => exact ⟨depth, half, rfl⟩
  | closed => simp [ha, next] at h
  | passed => simp [ha, next] at h

/-- **An interpolation** ends where its markers are closed. -/
theorem upTo_interpolation {s : Text} {last : Prop}
    (h : run (.opened 1 none) s = .closed ∨
      last ∧ ∃ depth half, run (.opened 1 none) s = .opened depth half) :
    UpTo ClosesMarkers (interpolationOpen ++ s) last := by
  have hinside : run (.opened 1 none) s ≠ .passed := by
    rcases h with h | ⟨-, depth, half, h⟩ <;> simp [h]
  constructor
  · rintro part ⟨more, hmore⟩ hne ⟨hlong, hzero⟩
    obtain ⟨inner, rfl, rfl⟩ := Lexeme.eq_append_of_length_le hmore hlong
    have hrest : more ≠ [] := by
      rintro rfl
      exact hne (by simp)
    obtain ⟨depth, half, hinner⟩ := opened_of_run_append hinside hrest
    obtain ⟨hcount, hopen⟩ := markerBalance_of_opened hinner Nat.one_pos
    rw [markerBalance_open] at hzero
    omega
  · rcases h with h | h
    · refine .inl ⟨by simp, ?_⟩
      rw [markerBalance_open, markerBalance_of_closed h Nat.one_pos]
      rfl
    · exact .inr h.1

/-! ## Tags, comments and headers -/

/-- A tag that takes all of a text is not complete before its end. -/
theorem not_outside_of_tagLength {prev : Glyph} {q : Quote} {n : Nat} {s body more : Text}
    (h : Lexeme.tagLength prev q n s = n + s.length) (hs : s = body ++ .char '>' :: more)
    (hmore : more ≠ []) : q.after (some prev) body ≠ .outside := by
  induction body generalizing prev q n s with
  | nil =>
      rintro rfl
      subst hs
      rw [List.nil_append, Lexeme.tagLength, if_pos ⟨rfl, rfl⟩, List.length_cons] at h
      exact hmore (List.eq_nil_of_length_eq_zero (by omega))
  | cons r body ih =>
      subst hs
      rw [List.cons_append, Lexeme.tagLength] at h
      split at h
      · simp only [List.length_cons, List.length_append] at h
        omega
      · rw [List.length_cons] at h
        exact ih (n := n + 1) (by omega) rfl

/-- The `>` that ends a tag stands outside quotes. -/
theorem outside_of_endsTag {prev : Glyph} {q : Quote} {s : Text}
    (h : Lexeme.endsTag prev q s = true) :
    ∃ body, s = body ++ [.char '>'] ∧ q.after (some prev) body = .outside := by
  induction s generalizing prev q with
  | nil => cases h
  | cons r s ih =>
      rw [Lexeme.endsTag] at h
      split at h
      · next hend => exact ⟨[], by rw [hend.1, List.isEmpty_iff.mp h]; rfl, hend.2⟩
      · obtain ⟨body, rfl, hquote⟩ := ih h
        exact ⟨r :: body, rfl, hquote⟩

/-- **A tag** ends at its first `>` outside quotes. -/
theorem upTo_tag {s : Text} {last : Prop}
    (h : Lexeme.endsTag (.char '<') .outside s = true ∨
      last ∧ Lexeme.tagLength (.char '<') .outside 1 s = 1 + s.length) :
    UpTo ClosesTag (.char '<' :: s) last := by
  have hall : Lexeme.tagLength (.char '<') .outside 1 s = 1 + s.length := by
    rcases h with h | h
    · simpa using Lexeme.tagLength_of_ends 1 [] h
    · exact h.2
  constructor
  · rintro part ⟨more, hmore⟩ hne ⟨body, rfl, hquote⟩
    have hrest : more ≠ [] := by
      rintro rfl
      exact hne (by simpa using hmore)
    cases body with
    | nil => simp at hmore
    | cons r body =>
        obtain ⟨rfl, hs⟩ := List.cons.inj hmore
        exact not_outside_of_tagLength hall (by simpa using hs.symm) hrest hquote
  · rcases h with h | h
    · obtain ⟨body, rfl, hquote⟩ := outside_of_endsTag h
      exact .inl ⟨.char '<' :: body, rfl, hquote⟩
    · exact .inr h.1

/-- A comment that takes all of a text is not complete before its end. -/
theorem not_close_of_commentLength {n : Nat} {s body more : Text}
    (h : Lexeme.commentLength n s = n + s.length) (hs : s = body ++ commentClose ++ more) :
    more = [] := by
  induction body generalizing n s with
  | nil =>
      subst hs
      have hclose : commentClose.isPrefixOf (commentClose ++ more) = true :=
        List.isPrefixOf_iff_prefix.mpr (List.prefix_append _ _)
      rw [List.nil_append] at h
      have hcut : Lexeme.commentLength n (commentClose ++ more) = n + commentClose.length := by
        rw [show commentClose ++ more = .char '-' :: (text "->" ++ more) from rfl] at hclose ⊢
        rw [Lexeme.commentLength, if_pos hclose]
      rw [hcut, List.length_append] at h
      exact List.eq_nil_of_length_eq_zero (by omega)
  | cons r body ih =>
      subst hs
      rw [List.cons_append, List.cons_append, Lexeme.commentLength] at h
      split at h
      · next hclose =>
          simp only [List.length_cons, List.length_append] at h
          have hthree : commentClose.length = 3 := rfl
          exact List.eq_nil_of_length_eq_zero (by omega)
      · rw [List.length_cons] at h
        exact ih (n := n + 1) (by omega) rfl

/-- **A comment** ends at its first closing marker. -/
theorem upTo_comment {s : Text} {last : Prop}
    (h : Lexeme.endsComment s = true ∨ last ∧ Lexeme.commentLength 4 s = 4 + s.length) :
    UpTo ClosesComment (commentOpen ++ s) last := by
  have hall : Lexeme.commentLength 4 s = 4 + s.length := by
    rcases h with h | h
    · simpa using Lexeme.commentLength_of_ends 4 [] h
    · exact h.2
  constructor
  · rintro part ⟨more, hmore⟩ hne ⟨body, rfl⟩
    simp only [List.append_assoc] at hmore
    have hs : s = body ++ commentClose ++ more := by
      simpa using (List.append_cancel_left hmore).symm
    rw [not_close_of_commentLength hall hs, List.append_nil] at hs
    exact hne (by rw [hs, List.append_assoc])
  · rcases h with h | h
    · obtain ⟨body, rfl⟩ := Lexeme.last_of_endsComment h
      exact .inl ⟨body, by rw [List.append_assoc]⟩
    · exact .inr h.1

/-- **A control header** ends at its first `{`. -/
theorem upTo_header {s span : Text} {last : Prop} (hs : .char '\x7b' ∉ s)
    (h : span = .char '@' :: (s ++ [.char '\x7b']) ∨ last ∧ span = .char '@' :: s) :
    UpTo OpensBody span last := by
  have hnone : ∀ part, part <+: .char '@' :: s → ¬OpensBody part := by
    rintro part hpart ⟨body, rfl⟩
    have hmem : .char '\x7b' ∈ .char '@' :: s := hpart.subset (by simp)
    simp [hs] at hmem
  rcases h with rfl | ⟨hlast, rfl⟩
  · refine ⟨fun part hpart hne => hnone part ?_, .inl ⟨.char '@' :: s, rfl⟩⟩
    have hshort := List.prefix_concat_iff.mp
      (show part <+: (.char '@' :: s) ++ [.char '\x7b'] from hpart)
    exact hshort.resolve_left hne
  · exact ⟨fun part hpart _ => hnone part hpart, .inr hlast⟩

/-! ## The piece of a token -/

/-- A token in its place, with the piece that it is read off: text without markers that no
word continues, or a marked piece, which has its end or stands at the end of the source. -/
structure Token.Cut (source : Text) (tok : Token) (before span after : Text) : Prop where
  source_eq : source = before ++ span ++ after
  pos_eq : tok.pos = before.width
  stop_eq : tok.stop = before.width + span.width
  piece : (tok.kind = .text ∧ Lexeme.Plain span ∧ Lexeme.Plain tok.literal ∧
      ∀ r ∈ after.head?, r.isLetter = false) ∨
    (tok.kind ≠ .text ∧ ∃ kind, Lexeme.reading ⟨kind, span⟩ = some (tok.kind, tok.literal) ∧
      (Lexeme.Closed kind span ∨ after = [] ∧ Lexeme.Running kind span))

namespace Lexeme

/-- No marked piece starts with a letter. -/
theorem head_of_marked {kind : Kind} {raw : Text} (h : Closed kind raw ∨ Running kind raw) :
    ∃ r s, raw = r :: s ∧ r.isLetter = false := by
  rcases h with h | h <;> cases h <;> exact ⟨_, _, rfl, by decide⟩

/-- What follows a text starts with no letter. -/
theorem head_of_sound {lexemes : List Lexeme} (h : Sound lexemes)
    (hhead : ∀ lexeme ∈ lexemes.head?, lexeme.kind ≠ .text) :
    ∀ r ∈ (lexemes.flatMap raw).head?, r.isLetter = false := by
  have hmarked : ∀ {kind : Kind} {raw : Text} (rest : List Lexeme),
      Closed kind raw ∨ Running kind raw →
      ∀ r ∈ ((⟨kind, raw⟩ :: rest : List Lexeme).flatMap Lexeme.raw).head?,
        r.isLetter = false := by
    intro kind raw rest h r hr
    obtain ⟨a, s, rfl, ha⟩ := head_of_marked h
    obtain rfl : a = r := by simpa using hr
    exact ha
  cases h with
  | nil => simp
  | text => exact absurd rfl (hhead _ rfl)
  | closed h => exact hmarked _ (.inl h)
  | running h => exact hmarked _ (.inr h)

/-- The token of a marked piece is cut where the piece stands. -/
theorem cut_of_marked {kind : Kind} {raw front rest : Text} {prev : Option Glyph} {tok : Token}
    (h : Closed kind raw ∨ rest = [] ∧ Running kind raw)
    (htok : token? front.width prev ⟨kind, raw⟩ = some tok) :
    tok.Cut (front ++ raw ++ rest) front raw rest := by
  obtain ⟨found, hfound, hkind, hpos, hstop, -⟩ :=
    token?_of_marked (h.imp_right And.right) front.width prev
  obtain rfl : found = tok := by simpa [hfound] using htok
  have hread := token?_reading front.width prev ⟨kind, raw⟩
  rw [htok, Option.map_some] at hread
  exact ⟨rfl, hpos, by rw [hstop, hpos], .inr ⟨hkind, kind, hread.symm, h⟩⟩

/-- The token of a text is cut between the spaces at its ends. -/
theorem cut_of_text {s front rest : Text} {prev : Option Glyph} {tok : Token} (hs : Plain s)
    (hrest : ∀ r ∈ rest.head?, r.isLetter = false)
    (htok : token? front.width prev ⟨.text, s⟩ = some tok) :
    ∃ before span after, tok.Cut (front ++ s ++ rest) before span after := by
  simp only [token?] at htok
  split at htok
  · cases htok
  · next hne =>
      obtain ⟨lead, core, back, rfl, -, hback, hhead, hend⟩ := exists_core (exists_not_space hne)
      rw [hhead, hend] at htok
      cases htok
      refine ⟨front ++ lead, core, back ++ rest, by simp, by simp [place], ?_, .inl ⟨rfl, ?_⟩⟩
      · simp only [place, width_append, width_reverse]
        omega
      · refine ⟨hs.of_infix ⟨lead, back, rfl⟩, plain_collapse hs, fun r hr => ?_⟩
        cases back with
        | nil => exact hrest r hr
        | cons a back =>
            obtain rfl : a = r := by simpa using hr
            exact Glyph.isLetter_of_isBlank (hback a List.mem_cons_self)

/-- **A token of sound pieces** is cut out of their text. -/
theorem exists_cut {lexemes : List Lexeme} (h : Sound lexemes) (front : Text)
    {prev : Option Glyph} {tok : Token}
    (htok : tok ∈ Token.ofLexemes front.width prev lexemes) :
    ∃ before span after, tok.Cut (front ++ lexemes.flatMap raw) before span after := by
  -- the token is that of the first piece, or one of a later piece
  have hfirst : ∀ {lexeme : Lexeme} {rest : List Lexeme} {front : Text} {prev : Option Glyph},
      tok ∈ Token.ofLexemes front.width prev (lexeme :: rest) →
      lexeme.token? front.width prev = some tok ∨
        tok ∈ Token.ofLexemes (front ++ lexeme.raw).width lexeme.raw.getLast? rest := by
    intro lexeme rest front prev hmem
    rw [Token.ofLexemes] at hmem
    rw [width_append]
    split at hmem
    · next first hfirst =>
        rcases List.mem_cons.mp hmem with rfl | hmem
        · exact .inl hfirst
        · exact .inr hmem
    · exact .inr hmem
  induction h generalizing front prev with
  | nil => cases htok
  | @text s rest hs hnext tail ih =>
      rw [List.flatMap_cons, ← List.append_assoc]
      rcases hfirst htok with htok | htok
      · exact cut_of_text hs (head_of_sound tail hnext) htok
      · exact ih _ htok
  | @closed kind raw rest hclosed tail ih =>
      rw [List.flatMap_cons, ← List.append_assoc]
      rcases hfirst htok with htok | htok
      · exact ⟨_, _, _, cut_of_marked (.inl hclosed) htok⟩
      · exact ih _ htok
  | @running kind raw hrunning =>
      rw [List.flatMap_cons, ← List.append_assoc]
      rcases hfirst htok with htok | htok
      · exact ⟨_, _, _, cut_of_marked (.inr ⟨rfl, hrunning⟩) htok⟩
      · cases htok

end Lexeme

namespace Token

/-- **A token of a source** is cut out of it. -/
theorem cut_of_mem {source : Text} {tok : Token} (htok : tok ∈ scan source) :
    ∃ before span after, tok.Cut source before span after := by
  have hcut := Lexeme.exists_cut (Lexeme.sound_split source) [] htok
  rwa [List.nil_append, Lexeme.split_raws] at hcut

/-! ## The shape of a token -/

/-- What a token of each kind looks like: `span` is the text that it spans, and `last` tells
that nothing follows it in the source. -/
def Shaped (tok : Token) (span : Text) (last : Prop) : Prop :=
  match tok.kind with
  | .text => Lexeme.Plain span ∧ Lexeme.Plain tok.literal
  | .interpolation => interpolationOpen <+: span ∧ UpTo ClosesMarkers span last
  | .tag .. =>
    if commentOpen.isPrefixOf span then UpTo ClosesComment span last
    else [.char '<'] <+: span ∧ UpTo ClosesTag span last
  | .control word =>
    if word = TemplateFormat.text "\x7d" then span = blockClose
    else word ∈ controlKeywords ∧ .char '@' :: word <+: span ∧ UpTo OpensBody span last
  | .closeBrace => span = TemplateFormat.text "\x7d"

/-- A header starts with the keyword that it is read by. -/
theorem keyword_leads {word s : Text} (hword : Lexeme.keyword? s = some word) (rest : Text) :
    word ≠ TemplateFormat.text "\x7d" ∧ word ∈ controlKeywords ∧
      .char '@' :: word <+: .char '@' :: (s ++ rest) := by
  obtain ⟨hmem, hlead⟩ := Lexeme.keyword?_eq_some hword
  exact ⟨Lexeme.keyword?_ne_brace hword, hmem,
    List.cons_prefix_cons.mpr ⟨rfl, hlead.trans (List.prefix_append _ _)⟩⟩

/-- The token of a piece that has its end goes up to that end. -/
theorem shaped_of_closed {tok : Token} {kind : Lexeme.Kind} {span : Text} (last : Prop)
    (hread : Lexeme.reading ⟨kind, span⟩ = some (tok.kind, tok.literal))
    (h : Lexeme.Closed kind span) : tok.Shaped span last := by
  cases h with
  | interpolation hrun =>
      obtain ⟨hkind, -⟩ := Prod.mk.inj (Option.some.inj hread)
      simp only [Shaped, ← hkind]
      exact ⟨⟨_, rfl⟩, upTo_interpolation (.inl hrun)⟩
  | header hword hs =>
      obtain ⟨hkind, -⟩ := Prod.mk.inj (Option.some.inj hread)
      obtain ⟨hbrace, hmem, hlead⟩ := keyword_leads hword [.char '\x7b']
      simp only [Shaped, ← hkind]
      rw [if_neg hbrace]
      exact ⟨hmem, hlead, upTo_header hs (.inl rfl)⟩
  | blockEnd =>
      obtain ⟨hkind, -⟩ := Prod.mk.inj (Option.some.inj hread)
      simp only [Shaped, ← hkind, if_true]
      rfl
  | brace =>
      obtain ⟨hkind, -⟩ := Prod.mk.inj (Option.some.inj hread)
      simp only [Shaped, ← hkind]
      rfl
  | comment hends =>
      obtain ⟨hkind, -⟩ := Prod.mk.inj (Option.some.inj hread)
      simp only [Shaped, ← hkind]
      rw [if_pos (Lexeme.isPrefixOf_comment _)]
      exact upTo_comment (.inl hends)
  | tag hopen hends =>
      obtain ⟨hkind, -⟩ := Prod.mk.inj (Option.some.inj hread)
      simp only [Shaped, ← hkind, Lexeme.tagKind]
      rw [if_neg (Bool.eq_false_iff.mp (Lexeme.not_isPrefixOf_tag hopen))]
      exact ⟨⟨_, rfl⟩, upTo_tag (.inl hends)⟩

/-- The token of a piece that lacks its end goes up to the end of the source. -/
theorem shaped_of_running {tok : Token} {kind : Lexeme.Kind} {span : Text} {last : Prop}
    (hlast : last) (hread : Lexeme.reading ⟨kind, span⟩ = some (tok.kind, tok.literal))
    (h : Lexeme.Running kind span) : tok.Shaped span last := by
  cases h with
  | interpolation hrun =>
      obtain ⟨hkind, -⟩ := Prod.mk.inj (Option.some.inj hread)
      simp only [Shaped, ← hkind]
      exact ⟨⟨_, rfl⟩, upTo_interpolation (.inr ⟨hlast, _, _, hrun⟩)⟩
  | header hword hs =>
      obtain ⟨hkind, -⟩ := Prod.mk.inj (Option.some.inj hread)
      obtain ⟨hbrace, hmem, hlead⟩ := keyword_leads hword []
      rw [List.append_nil] at hlead
      simp only [Shaped, ← hkind]
      rw [if_neg hbrace]
      exact ⟨hmem, hlead, upTo_header hs (.inr ⟨hlast, rfl⟩)⟩
  | comment hlength =>
      obtain ⟨hkind, -⟩ := Prod.mk.inj (Option.some.inj hread)
      simp only [Shaped, ← hkind]
      rw [if_pos (Lexeme.isPrefixOf_comment _)]
      exact upTo_comment (.inr ⟨hlast, hlength⟩)
  | tag hopen hlength =>
      obtain ⟨hkind, -⟩ := Prod.mk.inj (Option.some.inj hread)
      simp only [Shaped, ← hkind, Lexeme.tagKind]
      rw [if_neg (Bool.eq_false_iff.mp (Lexeme.not_isPrefixOf_tag hopen))]
      exact ⟨⟨_, rfl⟩, upTo_tag (.inr ⟨hlast, hlength⟩)⟩

/-- **The shape of a token** is that of the piece it is read off. -/
theorem Cut.shaped {source before span after : Text} {tok : Token}
    (h : tok.Cut source before span after) : tok.Shaped span (after = []) := by
  rcases h.piece with ⟨hkind, hspan, hliteral, -⟩ | ⟨-, kind, hread, hclosed | ⟨hlast, hrunning⟩⟩
  · simp only [Shaped, hkind]
    exact ⟨hspan, hliteral⟩
  · exact shaped_of_closed _ hread hclosed
  · exact shaped_of_running hlast hread hrunning

/-- A token ends where its source does exactly if nothing follows it. -/
theorem Cut.after_eq_nil {source before span after : Text} {tok : Token}
    (h : tok.Cut source before span after) : after = [] ↔ tok.stop = source.width := by
  rw [h.source_eq, width_append, width_append, h.stop_eq]
  constructor
  · rintro rfl
    rfl
  · intro hwidth
    cases after with
    | nil => rfl
    | cons r rest =>
        have hpos := width_pos_of_ne_nil (List.cons_ne_nil r rest)
        omega

/-- A byte inside a token belongs to a glyph of its span. -/
theorem Cut.holder?_span {source before span after : Text} {tok : Token} {k : Nat}
    (h : tok.Cut source before span after) (hk : tok.pos ≤ k ∧ k < tok.stop) :
    holder? k source = holder? (k - tok.pos) span := by
  have hpos := h.pos_eq
  have hstop := h.stop_eq
  have hplace : k = before.width + (k - tok.pos) := by omega
  rw [h.source_eq, List.append_assoc, hplace, holder?_append,
    holder?_append_of_lt (by omega : k - tok.pos < span.width), ← hpos, Nat.add_sub_cancel_left]

/-- A `}` inside a text, a brace or the end of a block is that brace. -/
theorem Cut.place_of_brace {source before span after : Text} {tok : Token} {k : Nat}
    (h : tok.Cut source before span after) (hk : tok.pos ≤ k ∧ k < tok.stop)
    (hholder : holder? k source = some (.char '\x7d')) :
    tok.kind = .interpolation ∨ tok.isTag = true ∨
      (∃ word ∈ controlKeywords, tok.kind = .control word) ∨
      (tok.kind = .closeBrace ∧ k = tok.pos) ∨
      (tok.kind = .control (TemplateFormat.text "\x7d") ∧ k = tok.pos + 1) := by
  have hpos := h.pos_eq
  have hstop := h.stop_eq
  have hshape := h.shaped
  rw [h.holder?_span hk] at hholder
  cases hkind : tok.kind with
  | text =>
      simp only [Shaped, hkind] at hshape
      refine absurd ?_ (hshape.1 (TemplateFormat.text "\x7d") (by decide))
      obtain ⟨front, back, hsplit⟩ := List.append_of_mem (mem_of_holder? hholder)
      exact ⟨front, back, by rw [hsplit, List.append_assoc]; rfl⟩
  | interpolation => exact .inl rfl
  | tag => exact .inr (.inl (by simp [isTag, hkind]))
  | closeBrace =>
      simp only [Shaped, hkind] at hshape
      rw [hshape] at hstop
      have hone : width (TemplateFormat.text "\x7d") = 1 := rfl
      exact .inr (.inr (.inr (.inl ⟨rfl, by omega⟩)))
  | control word =>
      simp only [Shaped, hkind] at hshape
      split at hshape
      · next hword =>
          rw [hshape] at hstop hholder
          have htwo : width blockClose = 2 := rfl
          have hsecond : k - tok.pos ≠ 0 := by
            intro hzero
            rw [hzero] at hholder
            exact absurd hholder (by decide)
          exact .inr (.inr (.inr (.inr ⟨by rw [hword], by omega⟩)))
      · exact .inr (.inr (.inl ⟨word, hshape.1, rfl⟩))

/-- **The shape of the tokens of a file.**  An interpolation, a tag, a comment and a control
header each start with their marker and end at the first place where they are complete, or
at the end of the file if there is none.  No text holds a marker, neither where it stands
nor in its literal.  So every `}` belongs to a token: a brace or the end of a block, unless
it stands inside an interpolation, a tag or a header. -/
theorem scan_shapes (bytes : ByteArray) :
    let source := decode bytes
    let tokens := scan source
    (∀ tok ∈ tokens, tok.Shaped (source.slice tok.pos tok.stop) (tok.stop = bytes.size)) ∧
    ∀ k < bytes.size, holder? k source = some (.char '\x7d') →
      ∃ tok ∈ tokens, (tok.pos ≤ k ∧ k < tok.stop) ∧
        (tok.kind = .interpolation ∨ tok.isTag = true ∨
          (∃ word ∈ controlKeywords, tok.kind = .control word) ∨
          (tok.kind = .closeBrace ∧ k = tok.pos) ∨
          (tok.kind = .control (TemplateFormat.text "\x7d") ∧ k = tok.pos + 1)) := by
  intro source tokens
  have hsize : source.width = bytes.size := width_decode bytes
  constructor
  · intro tok htok
    obtain ⟨before, span, after, hcut⟩ := cut_of_mem htok
    have hslice : source.slice tok.pos tok.stop = span := by
      rw [hcut.source_eq, hcut.pos_eq, hcut.stop_eq, slice_append]
    rw [hslice, ← hsize, ← propext hcut.after_eq_nil]
    exact hcut.shaped
  · intro k hk hholder
    by_cases hinside : ∃ tok ∈ tokens, tok.pos ≤ k ∧ k < tok.stop
    · obtain ⟨tok, htok, hin⟩ := hinside
      obtain ⟨before, span, after, hcut⟩ := cut_of_mem htok
      exact ⟨tok, htok, hin, hcut.place_of_brace hin hholder⟩
    · -- a byte of no token would be white space
      obtain ⟨r, hr, hblank⟩ := (spans_scan source).blank_outside (k := k) (by omega)
        fun tok htok hin => hinside ⟨tok, htok, by omega⟩
      rw [hholder] at hr
      cases hr
      exact absurd hblank (by decide)

end Token

end TemplateFormat.Markup
