import TemplateFormat.Proofs.Edges
import TemplateFormat.Proofs.Operators

/-!
# Spacing one segment of an expression

A segment of an expression is squeezed, its operators are set off, and its ends
are trimmed: `tidy`.  Doing this again squeezes what setting off operators wrote.
That changes something only where an operator of one glyph stands directly behind
another operator: both write a space between them.

* `Reads.squeeze_write` — squeezing what was written leaves one space there;
* `Reads.again` — what is left is read and written as it stands;
* `tidy_tidy_iff` — a second pass changes nothing exactly for segments that are
  `Roomy`;
* `tidy_tidy_tidy` — a third pass never changes anything.
-/

namespace TemplateFormat

open Text Markup

/-! ## Blanks around a text -/

/-- Blanks around a text do not matter to trimming. -/
theorem Text.trim_between {w w' : Text} (hw : ∀ r ∈ w, r.isBlank = true) (s : Text)
    (hw' : ∀ r ∈ w', r.isBlank = true) : trim (w ++ s ++ w') = trim s := by
  rw [trim_append_blank hw', trim_blank_append hw]

/-- Blanks leave the state of quotes as it is. -/
theorem Quote.after_of_blank {w : Text} (hw : ∀ r ∈ w, r.isBlank = true) (q : Quote)
    (prev : Option Glyph) : q.after prev w = q :=
  q.after_of_isQuote (fun r hr => Glyph.isQuote_of_isBlank (hw r hr)) prev

theorem Quote.after_congr {prev prev' : Option Glyph} (h : Escapes prev ↔ Escapes prev')
    (q : Quote) (s : Text) : q.after prev s = q.after prev' s :=
  (Reblanked.refl q s fun _ _ _ => h.symm).after_eq

/-- Behind blanks, a backslash before them does not matter any more. -/
theorem not_escapes_of_blank {w : Text} (hw : ∀ r ∈ w, r.isBlank = true) {prev : Option Glyph}
    (hprev : ¬Escapes prev) : ¬Escapes (w.getLast?.or prev) := by
  cases hlast : w.getLast? with
  | none => exact hprev
  | some r => exact not_escapes_of_isBlank (hw r (List.mem_of_getLast? hlast))

/-- Blanks around a text do not matter to the quotes behind it. -/
theorem Quote.after_between {w w' : Text} (hw : ∀ r ∈ w, r.isBlank = true) (s : Text)
    (hw' : ∀ r ∈ w', r.isBlank = true) (q : Quote) {prev : Option Glyph} (hprev : ¬Escapes prev) :
    q.after prev (w ++ s ++ w') = q.after none s := by
  have hnone : ¬Escapes none := by simp [Escapes]
  rw [after_append, after_of_blank hw', after_append, after_of_blank hw,
    after_congr (iff_of_false (not_escapes_of_blank hw hprev) hnone)]

namespace Layout.Interpolation

/-! ## Squeezed texts -/

/-- Outside quotes, spaces stand alone and are plain ones. -/
def Squeezed (prev : Option Glyph) (q : Quote) : Text → Prop
  | [] => True
  | r :: s =>
    (q = .outside → r.isSpace = true → r = .char ' ' ∧ ∀ a ∈ s.head?, a.isSpace = false) ∧
      Squeezed (some r) (q.next prev r) s

theorem Squeezed.congr {prev prev' : Option Glyph} {q : Quote} {s : Text}
    (h : Squeezed prev q s) (hprev : Escapes prev ↔ Escapes prev') : Squeezed prev' q s := by
  cases s with
  | nil => trivial
  | cons r s =>
      rw [Squeezed, Quote.next_congr hprev] at h
      exact h

/-- The parts of a squeezed text are squeezed. -/
theorem Squeezed.of_append {prev : Option Glyph} {q : Quote} {s t : Text}
    (h : Squeezed prev q (s ++ t)) :
    Squeezed prev q s ∧ Squeezed (s.getLast?.or prev) (q.after prev s) t := by
  induction s generalizing prev q with
  | nil => exact ⟨trivial, h⟩
  | cons r s ih =>
      obtain ⟨hfirst, hrest⟩ := h
      obtain ⟨hs, ht⟩ := ih hrest
      refine ⟨⟨fun hq hr => (hfirst hq hr).imp_right fun hhead a ha => ?_, hs⟩, ?_⟩
      · exact hhead a (List.mem_head?_append_of_mem_head? ha)
      · rwa [getLast?_cons_or]

/-- Squeezing makes a text squeezed. -/
theorem squeezed_squeeze {prev prev' : Option Glyph} {q : Quote} {gap : Bool} (s : Text)
    (hopen : gap = true → q = .outside ∧ ¬Escapes prev)
    (hprev : gap = false → (Escapes prev ↔ Escapes prev')) :
    Squeezed prev' q (Tag.squeeze prev q gap s) := by
  induction s generalizing prev prev' q gap with
  | nil => trivial
  | cons r s ih =>
      rw [Tag.squeeze]
      split
      · next hspace =>
          obtain ⟨hq, hr⟩ := Bool.and_eq_true_iff.mp hspace
          obtain rfl : q = .outside := of_decide_eq_true hq
          have hblank := Glyph.isBlank_of_isSpace hr
          exact ih (fun _ => ⟨rfl, not_escapes_of_isBlank hblank⟩) (by simp)
      · next hspace =>
          have hrest : Squeezed (some r) (q.next prev r)
              (Tag.squeeze (some r) (q.next prev r) false s) :=
            ih (by simp) (fun _ => Iff.rfl)
          have hr : q = .outside → r.isSpace = false := by
            rintro rfl
            simpa [Quote.isOutside] using hspace
          split
          · next hgap =>
              obtain ⟨rfl, hescapes⟩ := hopen hgap
              have hnext : Quote.next .outside (some (.char ' ')) r = Quote.next .outside prev r :=
                Quote.next_congr (iff_of_false (not_escapes_of_isBlank rfl) hescapes) _ _
              refine ⟨fun _ _ => ⟨rfl, by simpa using hr rfl⟩, ?_, ?_⟩
              · simp [Quote.next_of_isQuote, Glyph.isQuote, hr]
              · rw [Quote.next_of_isQuote (r := .char ' ') rfl, hnext]
                exact hrest
          · next hgap =>
              have hnext := Quote.next_congr (hprev (by simpa using hgap)) q r
              refine ⟨fun hq hspace => ?_, by rwa [← hnext]⟩
              rw [hr hq] at hspace
              cases hspace

/-! ## Squeezing what was written -/

/-- While a squeezed text is read, at most one space waits: behind a space or an operator, never
inside quotes, and no other space follows unless it belongs to the operator. -/
structure Pending (closeUp : Bool) (prev : Option Glyph) (q : Quote) (n : Nat) (s : Text) :
    Prop where
  squeezed : Squeezed prev q s
  le_one : n ≤ 1
  outside : n = 1 → q = .outside ∧ ¬Escapes prev
  closing : closeUp = true → n = 1
  head : n = 1 → closeUp = false → ∀ a ∈ s.head?, a ≠ .char ' '

namespace Pending

variable {closeUp : Bool} {prev : Option Glyph} {q : Quote} {n : Nat} {r : Glyph} {s : Text}

/-- At the start of a text nothing waits. -/
theorem start (h : Squeezed prev q s) : Pending false prev q 0 s where
  squeezed := h
  le_one := Nat.zero_le 1
  outside := by simp
  closing := by simp
  head := by simp

/-- Behind a glyph that was copied nothing waits. -/
theorem copied (h : Pending closeUp prev q n (r :: s)) :
    Pending false (some r) (q.next prev r) 0 s :=
  .start h.squeezed.2

/-- Behind a single space, that space waits, and no other did. -/
theorem gap (h : Pending false prev .outside n (.char ' ' :: s)) :
    n = 0 ∧ Pending false (some (.char ' ')) .outside 1 s := by
  obtain ⟨hfirst, hrest⟩ := h.squeezed
  have hn : n ≠ 1 := fun hn => h.head hn rfl _ rfl rfl
  refine ⟨by have := h.le_one; omega, ?_, le_rfl, fun _ => ⟨rfl, not_escapes_of_isBlank rfl⟩,
    by simp, ?_⟩
  · rwa [Quote.next_of_isQuote rfl] at hrest
  · rintro - - a ha rfl
    exact absurd ((hfirst rfl rfl).2 _ ha) (by decide)

/-- Spaces behind an operator are passed over. -/
theorem passed (h : Pending true prev .outside n (.char ' ' :: s)) :
    Pending true (some (.char ' ')) .outside n s := by
  obtain ⟨-, hrest⟩ := h.squeezed
  refine ⟨?_, h.le_one, fun _ => ⟨rfl, not_escapes_of_isBlank rfl⟩, h.closing, by simp⟩
  rwa [Quote.next_of_isQuote rfl] at hrest

/-- Behind an operator of one glyph a space waits. -/
theorem single (h : Pending closeUp prev .outside n (r :: s)) (hr : isSingleOperator r = true)
    (hnext : ∃ a ∈ s.head?, a ≠ .char ' ') : Pending false (some r) .outside 1 s := by
  obtain ⟨-, hquote, -, hslash⟩ := ink_of_isSingleOperator hr
  obtain ⟨-, hrest⟩ := h.squeezed
  refine ⟨?_, le_rfl, fun _ => ⟨rfl, by simpa [Escapes] using hslash⟩, by simp, ?_⟩
  · rwa [Quote.next_of_isQuote hquote] at hrest
  · rintro - - a ha
    obtain ⟨b, hb, hne⟩ := hnext
    rwa [Option.mem_unique ha hb]

/-- Behind an operator of several glyphs a space waits. -/
theorem compound {op : Text} (h : Pending closeUp prev .outside n (op ++ s))
    (hop : op ∈ compoundOperators) : Pending true op.getLast? .outside 1 s := by
  obtain ⟨hne, hink⟩ := compoundOperators_ink op hop
  obtain ⟨-, hrest⟩ := h.squeezed.of_append
  obtain ⟨last, hlast⟩ : ∃ a, op.getLast? = some a := ⟨_, List.getLast?_eq_some_getLast hne⟩
  rw [hlast, Option.some_or, Quote.after_of_isQuote fun r hr => (hink r hr).2.1] at hrest
  rw [hlast]
  have hslash := (hink last (List.mem_of_getLast? hlast)).2.2
  exact ⟨hrest, le_rfl, fun _ => ⟨rfl, by simpa [Escapes] using hslash⟩, by simp, by simp⟩

theorem outside_of_pos (h : Pending closeUp prev q n s) (hn : 0 < n) :
    q = .outside ∧ ¬Escapes prev :=
  h.outside (by have := h.le_one; omega)

end Pending

/-- Squeezing passes over spaces outside quotes. -/
theorem squeeze_replicate (n : Nat) (prev : Option Glyph) (gap : Bool) (s : Text) :
    Tag.squeeze prev .outside gap (List.replicate (n + 1) (.char ' ') ++ s) =
      Tag.squeeze (some (.char ' ')) .outside true s := by
  have hspace : (Quote.isOutside .outside && Glyph.isSpace (.char ' ')) = true := rfl
  induction n generalizing prev gap with
  | zero => rw [List.replicate_one, List.singleton_append, Tag.squeeze, if_pos hspace]
  | succ n ih => rw [List.replicate_succ, List.cons_append, Tag.squeeze, if_pos hspace, ih]

/-- Squeezing copies a glyph that is no space outside quotes, with a space before it if one or
more stand there. -/
theorem squeeze_copied (prev prev' : Option Glyph) {q : Quote} (n : Nat) {r : Glyph} (s : Text)
    (hr : q = .outside → r.isSpace = false) (hn : 0 < n → q = .outside ∧ ¬Escapes prev)
    (hzero : n = 0 → (Escapes prev ↔ Escapes prev')) :
    Tag.squeeze prev' q false (List.replicate n (.char ' ') ++ r :: s) =
      List.replicate (min n 1) (.char ' ') ++ r :: Tag.squeeze (some r) (q.next prev r) false s := by
  have hcopy : ¬(q.isOutside && r.isSpace) = true := by
    intro h
    obtain ⟨hq, hspace⟩ := Bool.and_eq_true_iff.mp h
    rw [hr (of_decide_eq_true hq)] at hspace
    cases hspace
  cases n with
  | zero =>
      rw [List.replicate_zero, List.nil_append, Tag.squeeze, if_neg hcopy, if_neg (by simp),
        Quote.next_congr (hzero rfl).symm]
      rfl
  | succ n =>
      obtain ⟨rfl, hescapes⟩ := hn n.succ_pos
      have hspace : ¬Escapes (some (.char ' ')) := not_escapes_of_isBlank rfl
      rw [squeeze_replicate, Tag.squeeze, if_neg hcopy, if_pos rfl,
        Quote.next_congr (iff_of_false hspace hescapes), Nat.min_eq_right (by omega)]
      rfl

/-- What is no blank is no space. -/
theorem not_isSpace_of_isBlank {r : Glyph} (h : r.isBlank = false) : r.isSpace = false := by
  by_contra hspace
  rw [Glyph.isBlank_of_isSpace (by simpa using hspace)] at h
  cases h

/-- Squeezing copies a text without blanks and quotes. -/
theorem squeeze_ink {body : Text}
    (hbody : ∀ r ∈ body, r.isBlank = false ∧ r.isQuote = false) (prev : Option Glyph) (s : Text) :
    Tag.squeeze prev .outside false (body ++ s) =
      body ++ Tag.squeeze (body.getLast?.or prev) .outside false s := by
  induction body generalizing prev with
  | nil => rfl
  | cons r body ih =>
      obtain ⟨hblank, hquote⟩ := hbody r List.mem_cons_self
      have hspace := not_isSpace_of_isBlank hblank
      have hcopied : Tag.squeeze prev .outside false (r :: (body ++ s)) =
          r :: Tag.squeeze (some r) (Quote.next .outside prev r) false (body ++ s) :=
        squeeze_copied prev prev 0 (body ++ s) (fun _ => hspace) (by simp) (fun _ => Iff.rfl)
      have hrest := ih (fun a ha => hbody a (List.mem_cons_of_mem r ha)) (some r)
      rw [Quote.next_of_isQuote hquote, hrest] at hcopied
      rw [getLast?_cons_or]
      exact hcopied

/-- **Squeezing what was written** leaves one space where two operators wrote one each. -/
theorem Reads.squeeze_write {closeUp : Bool} {prev prev' : Option Glyph} {q : Quote} {n : Nat}
    {s : Text} {ps : List Piece} (h : Reads closeUp prev q s ps)
    (hpending : Pending closeUp prev q n s) (hzero : n = 0 → (Escapes prev ↔ Escapes prev')) :
    Tag.squeeze prev' q false (write true n ps ++ List.replicate (waiting n ps) (.char ' ')) =
      write false n ps := by
  induction h generalizing prev' n with
  | @nil closeUp prev q =>
      cases n with
      | zero => rfl
      | succ n =>
          obtain ⟨rfl, -⟩ := hpending.outside (by have := hpending.le_one; omega)
          simpa [write, waiting, Tag.squeeze] using squeeze_replicate n prev' false []
  | passed tail ih =>
      exact ih hpending.passed (fun hn => absurd (hpending.closing rfl) (by omega))
  | @quoted closeUp prev q r s ps hspace hr tail ih =>
      have hrest : Tag.squeeze (some r) (q.next prev r) false (write true 0 ps ++
          List.replicate (waiting 0 ps) (.char ' ')) = write false 0 ps :=
        ih hpending.copied (fun _ => Iff.rfl)
      -- a space is copied only inside quotes
      have hink : q = .outside → r.isSpace = false := by
        rintro rfl
        by_contra hblank
        have hquote := Glyph.isQuote_of_isBlank (Glyph.isBlank_of_isSpace (by simpa using hblank))
        simp [Quote.next_of_isQuote hquote, hquote] at hr
      simp only [write, waiting, List.append_assoc, List.cons_append]
      rw [squeeze_copied prev prev' n _ hink hpending.outside_of_pos hzero, hrest,
        Nat.min_eq_left hpending.le_one]
  | gap tail ih =>
      obtain ⟨rfl, hnext⟩ := hpending.gap
      exact ih hnext (by simp)
  | @plain closeUp prev r s ps hquote hspace hcompound hloose tail ih =>
      have hnext : Quote.next .outside prev r = .outside := Quote.next_of_isQuote hquote _ _
      have hrest : Tag.squeeze (some r) .outside false (write true 0 ps ++
          List.replicate (waiting 0 ps) (.char ' ')) = write false 0 ps :=
        ih (hnext ▸ hpending.copied) (fun _ => Iff.rfl)
      have hink : Quote.outside = .outside → r.isSpace = false := by
        intro _
        by_contra hblank
        exact hspace (hpending.squeezed.1 rfl (by simpa using hblank)).1
      simp only [write, waiting, List.append_assoc, List.cons_append]
      rw [squeeze_copied prev prev' n _ hink hpending.outside_of_pos hzero, hnext, hrest,
        Nat.min_eq_left hpending.le_one]
  | @single closeUp prev r s ps hr hcompound hprev hnext tail ih =>
      obtain ⟨hblank, hquote, -, -⟩ := ink_of_isSingleOperator hr
      have hrest : Tag.squeeze (some r) .outside false (write true 1 ps ++
          List.replicate (waiting 1 ps) (.char ' ')) = write false 1 ps :=
        ih (hpending.single hr hnext) (by simp)
      have hshape : write true n (.single r :: ps) =
          List.replicate (n + 1) (.char ' ') ++ r :: write true 1 ps := by
        simp [write, List.replicate_succ']
      rw [hshape, List.append_assoc, List.cons_append,
        squeeze_copied none prev' (n + 1) _ (fun _ => not_isSpace_of_isBlank hblank)
          (fun _ => ⟨rfl, by simp [Escapes]⟩) (by simp),
        Quote.next_of_isQuote hquote, waiting, hrest, Nat.min_eq_right (by omega)]
      rfl
  | @compound closeUp prev op s ps hop tail ih =>
      have hmem := (mem_of_compoundAt? hop).1
      have hrest : Tag.squeeze op.getLast? .outside false (write true 1 ps ++
          List.replicate (waiting 1 ps) (.char ' ')) = write false 1 ps :=
        ih (hpending.compound hmem) (by simp)
      obtain ⟨hne, hink⟩ := compoundOperators_ink op hmem
      obtain ⟨a, body, rfl⟩ := List.exists_cons_of_ne_nil hne
      obtain ⟨hblank, hquote, -⟩ := hink a List.mem_cons_self
      have hbody : ∀ r ∈ body, r.isBlank = false ∧ r.isQuote = false := fun r hr =>
        (hink r (List.mem_cons_of_mem a hr)).imp_right And.left
      have hshape : write true n (.compound (a :: body) :: ps) =
          List.replicate 1 (.char ' ') ++ a :: (body ++ write true 1 ps) := by
        simp [write]
      rw [← Option.or_none (o := (a :: body).getLast?), getLast?_cons_or] at hrest
      rw [hshape, List.append_assoc, List.cons_append, List.append_assoc,
        squeeze_copied none prev' 1 _ (fun _ => not_isSpace_of_isBlank hblank)
          (fun _ => ⟨rfl, by simp [Escapes]⟩) (by simp),
        Quote.next_of_isQuote hquote, waiting, squeeze_ink hbody, hrest]
      rfl

/-! ## Reading what is left -/

/-- Where spaces wait, one is written first. -/
theorem head_write_of_pos (keep : Bool) {n : Nat} (hn : 0 < n) (ps : List Piece) :
    ∀ a ∈ (write keep n ps).head?, a = .char ' ' := by
  obtain ⟨n, rfl⟩ := Nat.exists_eq_add_of_lt hn
  induction ps generalizing n with
  | nil => simp [write]
  | cons p ps ih =>
      cases p with
      | copied r => simp [write, List.replicate_succ]
      | gap => exact ih (n + 1) (by omega)
      | single r => cases keep <;> simp [write, List.replicate_succ]
      | compound op => simp [write]

/-- What is written starts like the text, or with a space. -/
theorem Reads.head_write {prev : Option Glyph} {q : Quote} {s : Text} {ps : List Piece}
    (h : Reads false prev q s ps) (keep : Bool) :
    (write keep 0 ps).head? = s.head? ∨ ∀ a ∈ (write keep 0 ps).head?, a = .char ' ' := by
  cases h with
  | nil => exact .inl rfl
  | quoted => exact .inl rfl
  | gap => exact .inr (head_write_of_pos keep Nat.one_pos _)
  | plain => exact .inl rfl
  | single => exact .inr (by cases keep <;> simp [write])
  | compound => exact .inr (by simp [write])

/-- A space before a text is read as a gap, or passed over behind an operator; it is written
either way. -/
theorem reads_space {rest : Text}
    (h : ∀ closeUp, ∃ ps, Reads closeUp (some (.char ' ')) .outside rest ps ∧
      write true 1 ps = .char ' ' :: rest) (closeUp : Bool) (prev : Option Glyph) :
    ∃ ps, Reads closeUp prev .outside (.char ' ' :: rest) ps ∧
      write true (if closeUp then 1 else 0) ps = .char ' ' :: rest := by
  obtain ⟨ps, hreads, hwrite⟩ := h closeUp
  cases closeUp with
  | false => exact ⟨_, .gap hreads, hwrite⟩
  | true => exact ⟨_, .passed hreads, hwrite⟩

/-- A glyph that is copied, behind at most one space. -/
theorem reads_copied {n : Nat} (hle : n ≤ 1) {q : Quote} (hn : n = 1 → q = .outside) {r : Glyph}
    {rest : Text} {ps : List Piece} {closeUp : Bool} {prev : Option Glyph}
    (hreads : ∀ closeUp', (n = 0 → closeUp' = closeUp) →
      Reads closeUp' ((List.replicate n (.char ' ')).getLast?.or prev) q (r :: rest)
        (.copied r :: ps))
    (hzero : n = 0 → closeUp = false) (hwrite : write true 0 ps = rest) :
    ∃ ps', Reads closeUp prev q (List.replicate n (.char ' ') ++ r :: rest) ps' ∧
      write true (if closeUp then 1 else 0) ps' = List.replicate n (.char ' ') ++ r :: rest := by
  obtain rfl | rfl : n = 0 ∨ n = 1 := by omega
  · obtain rfl := hzero rfl
    exact ⟨_, hreads false (fun _ => rfl), by simp [write, hwrite]⟩
  · obtain rfl := hn rfl
    refine reads_space (fun closeUp' => ⟨_, hreads closeUp' (by simp), ?_⟩) closeUp prev
    simp [write, hwrite]

/-- **Normal forms are read as they stand**: what is left is written again without a change. -/
theorem Reads.again {closeUp : Bool} {prev : Option Glyph} {q : Quote} {n : Nat} {s : Text}
    {ps : List Piece} (h : Reads closeUp prev q s ps) (hpending : Pending closeUp prev q n s)
    (closeUp' : Bool) (prev' : Option Glyph) (hzero : n = 0 → prev' = prev ∧ closeUp' = false) :
    ∃ ps', Reads closeUp' prev' q (write false n ps) ps' ∧
      write true (if closeUp' then 1 else 0) ps' = write false n ps := by
  induction h generalizing closeUp' prev' n with
  | nil => exact ⟨[], .nil, rfl⟩
  | passed tail ih =>
      exact ih hpending.passed _ _ (fun hn => absurd (hpending.closing rfl) (by omega))
  | @quoted closeUp prev q r s ps hspace hr tail ih =>
      obtain ⟨ps', hreads, hwrite⟩ := ih hpending.copied false (some r) (fun _ => ⟨rfl, rfl⟩)
      have hnext := Quote.next_congr (escapes_replicate prev'
        (fun hn => (hpending.outside_of_pos hn).2) fun hn => by rw [(hzero hn).1]) q r
      refine reads_copied hpending.le_one (fun hn => (hpending.outside hn).1)
        (fun closeUp' hclose => ?_) (fun hn => (hzero hn).2) hwrite
      rw [hnext] at hr hreads
      refine .quoted (fun hclosing hblank => ?_) hr hreads
      -- a space is copied only inside quotes, where none waits
      have hn : n = 1 := by
        by_contra hn
        have hzero' : n = 0 := by
          have := hpending.le_one
          omega
        rw [hclose hzero', (hzero hzero').2] at hclosing
        cases hclosing
      have hquote : r.isQuote = false := by rw [hblank]; rfl
      rw [Quote.next_of_isQuote hquote, (hpending.outside hn).1] at hr
      simp [hquote] at hr
  | gap tail ih =>
      obtain ⟨rfl, hnext⟩ := hpending.gap
      exact ih hnext _ _ (by simp)
  | @plain closeUp prev r s ps hquote hspace hcompound hloose tail ih =>
      have hcopied := hpending.copied
      rw [Quote.next_of_isQuote hquote] at hcopied
      obtain ⟨ps', hreads, hwrite⟩ := ih hcopied false (some r) (fun _ => ⟨rfl, rfl⟩)
      have hhead := tail.head_write false
      refine reads_copied hpending.le_one (fun hn => (hpending.outside hn).1)
        (fun closeUp' hclose => ?_) (fun hn => (hzero hn).2) hwrite
      refine .plain hquote hspace (compoundAt?_of_head hcompound hhead) (fun hr => ?_) hreads
      obtain rfl | rfl : n = 0 ∨ n = 1 := by
        have := hpending.le_one
        omega
      · rw [(hzero rfl).1]
        refine (hloose hr).imp_right fun hs => ?_
        rcases hhead with hhead | hhead
        · rwa [hhead]
        · exact hhead
      · exact .inl (by simp)
  | @single closeUp prev r s ps hr hcompound hprev hnext tail ih =>
      obtain ⟨-, hquote, hspace, -⟩ := ink_of_isSingleOperator hr
      obtain ⟨ps', hreads, hwrite⟩ := ih (hpending.single hr hnext) false (some r) (by simp)
      have hhead := head_write_of_pos false Nat.one_pos ps
      refine reads_space (fun closeUp' => ⟨.copied r :: ps', ?_, ?_⟩) closeUp' prev'
      · exact .plain hquote hspace (compoundAt?_of_head hcompound (.inr hhead))
          (fun _ => .inl (by simp)) hreads
      · simpa [write] using hwrite
  | @compound closeUp prev op s ps hop tail ih =>
      have hmem := (mem_of_compoundAt? hop).1
      obtain ⟨ps', hreads, hwrite⟩ := ih (hpending.compound hmem) true op.getLast? (by simp)
      have hhead := head_write_of_pos false Nat.one_pos ps
      refine reads_space (fun closeUp' => ⟨.compound op :: ps', ?_, ?_⟩) closeUp' prev'
      · exact .compound (compoundAt?_self hmem hhead) hreads
      · simpa [write] using hwrite

/-- **When nothing is left out**: no operator of one glyph stands behind another operator. -/
theorem Reads.write_eq_iff {closeUp : Bool} {prev : Option Glyph} {q : Quote} {n : Nat} {s : Text}
    {ps : List Piece} (h : Reads closeUp prev q s ps) (hpending : Pending closeUp prev q n s) :
    write true n ps = write false n ps ↔
      (n = 1 → ∀ p ∈ ps.head?, p.isSingle = false) ∧ Roomy ps := by
  induction h generalizing n with
  | nil => simp [write]
  | passed tail ih => exact ih hpending.passed
  | @quoted closeUp prev q r s ps hspace hr tail ih =>
      simpa [write] using ih hpending.copied
  | @gap prev s ps tail ih =>
      obtain ⟨rfl, hnext⟩ := hpending.gap
      -- an operator behind a space is not set off
      have hhead : ∀ p ∈ ps.head?, p.isSingle = false := by
        cases tail with
        | nil => simp
        | single hr hcompound hprev hnext tail => simp at hprev
        | quoted => simp
        | gap => simp
        | plain => simp
        | compound => simp
      have hrest := ih hnext
      rw [and_iff_right fun _ => hhead] at hrest
      simpa [write] using hrest
  | @plain closeUp prev r s ps hquote hspace hcompound hloose tail ih =>
      have hcopied := hpending.copied
      rw [Quote.next_of_isQuote hquote] at hcopied
      simpa [write] using ih hcopied
  | @single closeUp prev r s ps hr hcompound hprev hnext tail ih =>
      obtain ⟨-, -, hspace, -⟩ := ink_of_isSingleOperator hr
      obtain rfl | rfl : n = 0 ∨ n = 1 := by
        have := hpending.le_one
        omega
      · simpa [write] using ih (hpending.single hr hnext)
      · simp [write, hspace.symm]
  | @compound closeUp prev op s ps hop tail ih =>
      simpa [write] using ih (hpending.compound (mem_of_compoundAt? hop).1)

/-! ## The ends of what is written -/

/-- Writing changes nothing but blanks. -/
theorem Reads.strip_write {closeUp : Bool} {prev : Option Glyph} {q : Quote} {s : Text}
    {ps : List Piece} (h : Reads closeUp prev q s ps) (keep : Bool) (n : Nat) :
    strip (write keep n ps) = strip s := by
  have hspaces : ∀ n, strip (List.replicate n (.char ' ')) = [] := fun n =>
    strip_eq_nil_of_blank (by simp +contextual)
  have hcons : ∀ {s t : Text} (r : Glyph), strip s = strip t → strip (r :: s) = strip (r :: t) :=
    fun r h => (strip_append [r] _).trans ((congrArg _ h).trans (strip_append [r] _).symm)
  induction h generalizing n with
  | nil => rfl
  | passed tail ih => simp [ih]
  | quoted hspace hr tail ih => simp [write, hspaces, hcons _ (ih 0)]
  | gap tail ih => simp [write, ih]
  | plain hquote hspace hcompound hloose tail ih => simp [write, hspaces, hcons _ (ih 0)]
  | single hr hcompound hprev hnext tail ih => simp [write, hspaces, hcons _ (ih 1)]
  | compound hop tail ih => simp [write, ih]

/-- The last glyph of a text that goes on is the last glyph of the rest. -/
theorem last_of_cons {P : Glyph → Prop} {r : Glyph} {s : Text}
    (h : ∀ a ∈ (r :: s).getLast?, P a) : ∀ a ∈ s.getLast?, P a := by
  intro a ha
  refine h a ?_
  rw [List.getLast?_cons, Option.mem_def.mp ha]
  rfl

/-- A glyph before a text that ends well, or before nothing. -/
theorem last_cons {P : Glyph → Prop} {r : Glyph} {s : Text} (hs : ∀ a ∈ s.getLast?, P a)
    (hr : s = [] → P r) : ∀ a ∈ (r :: s).getLast?, P a := by
  intro a ha
  rw [List.getLast?_cons] at ha
  cases hlast : s.getLast? with
  | none =>
      obtain rfl : r = a := by simpa [hlast] using ha
      exact hr (List.getLast?_eq_none_iff.mp hlast)
  | some b =>
      obtain rfl : b = a := by simpa [hlast] using ha
      exact hs b hlast

/-- The last glyph of two texts. -/
theorem last_append {P : Glyph → Prop} {s t : Text} (ht : ∀ a ∈ t.getLast?, P a)
    (hs : t = [] → ∀ a ∈ s.getLast?, P a) : ∀ a ∈ (s ++ t).getLast?, P a := by
  intro a ha
  rw [List.getLast?_append] at ha
  cases hlast : t.getLast? with
  | none =>
      rw [hlast, Option.none_or] at ha
      exact hs (List.getLast?_eq_none_iff.mp hlast) a ha
  | some b =>
      obtain rfl : b = a := by simpa [hlast] using ha
      exact ht b hlast

/-- What is written ends in a glyph that is not blank if the text does. -/
theorem Reads.last_write {closeUp : Bool} {prev : Option Glyph} {q : Quote} {s : Text}
    {ps : List Piece} (h : Reads closeUp prev q s ps)
    (hs : ∀ a ∈ s.getLast?, a.isBlank = false) (keep : Bool) (n : Nat) :
    ∀ a ∈ (write keep n ps).getLast?, a.isBlank = false := by
  -- nothing is written behind a glyph only if the text ends with it
  have hend : ∀ {closeUp prev q r s ps n}, Reads closeUp prev q s ps →
      (∀ a ∈ (r :: s).getLast?, a.isBlank = false) → write keep n ps = [] →
        r.isBlank = false := by
    intro closeUp prev q r s ps n hreads hlast hnil
    have hblank := hreads.strip_write keep n
    rw [hnil] at hblank
    cases hs : s.getLast? with
    | none =>
        rw [List.getLast?_eq_none_iff.mp hs] at hlast
        exact hlast r rfl
    | some b =>
        have hb := strip_eq_nil_iff.mp hblank.symm b (List.mem_of_getLast? hs)
        rw [last_of_cons hlast b hs] at hb
        cases hb
  induction h generalizing n with
  | nil => simp [write]
  | passed tail ih => exact ih (last_of_cons hs) n
  | quoted hspace hr tail ih =>
      exact last_append (last_cons (ih (last_of_cons hs) 0) (hend tail hs)) (by simp)
  | gap tail ih => exact ih (last_of_cons hs) (n + 1)
  | plain hquote hspace hcompound hloose tail ih =>
      exact last_append (last_cons (ih (last_of_cons hs) 0) (hend tail hs)) (by simp)
  | single hr hcompound hprev hnext tail ih =>
      refine last_append (last_cons (last_cons (ih (last_of_cons hs) 1) (hend tail hs)) ?_) ?_ <;>
        simp
  | @compound closeUp prev op s ps hop tail ih =>
      obtain ⟨hne, hink⟩ := compoundOperators_ink op (mem_of_compoundAt? hop).1
      have hrest : ∀ a ∈ s.getLast?, a.isBlank = false := fun a ha => by
        refine hs a ?_
        rw [List.getLast?_append, Option.mem_def.mp ha]
        rfl
      refine last_cons (last_append (ih hrest 1) fun _ a ha => ?_) (by simp [hne])
      exact (hink a (List.mem_of_getLast? ha)).1

/-- An operator of several glyphs that is written first has a space before it. -/
theorem trim_write_compound {keep : Bool} {n : Nat} {op : Text} {ps : List Piece}
    (hop : op ∈ compoundOperators)
    (hlast : ∀ a ∈ (write keep n (.compound op :: ps)).getLast?, a.isBlank = false) :
    trim (write keep n (.compound op :: ps)) = op ++ write keep 1 ps := by
  obtain ⟨hne, hink⟩ := compoundOperators_ink op hop
  have hcore : Trimmed (op ++ write keep 1 ps) := by
    refine ⟨fun r hr => ?_, last_of_cons hlast⟩
    rw [List.head?_append_of_ne_nil _ hne] at hr
    exact (hink r (List.mem_of_mem_head? hr)).1
  have hspace := trim_blank_append (isBlank_of_mem_spaces (n := 1)) (op ++ write keep 1 ps)
  rw [hcore.trim_eq] at hspace
  exact hspace

/-- **The core of what is written** for a trimmed text stands behind at most a space, and is read
and written again as it stands. -/
theorem Reads.exists_lead {q : Quote} {s : Text} {ps : List Piece} (h : Reads false none q s ps)
    (hs : Trimmed s) (hsqueezed : Squeezed none q s) :
    ∃ lead : Text, (∀ r ∈ lead, r.isBlank = true) ∧
      (∀ keep, write keep 0 ps = lead ++ trim (write keep 0 ps)) ∧
      ∃ ps', Reads false none q (trim (write false 0 ps)) ps' ∧
        write true 0 ps' = lead ++ trim (write false 0 ps) := by
  have hlast := fun keep => h.last_write hs.last keep 0
  -- unless an operator of several glyphs stands first, nothing is trimmed
  have hplain : (∀ keep, ∀ r ∈ (write keep 0 ps).head?, r.isBlank = false) →
      ∃ lead : Text, (∀ r ∈ lead, r.isBlank = true) ∧
        (∀ keep, write keep 0 ps = lead ++ trim (write keep 0 ps)) ∧
        ∃ ps', Reads false none q (trim (write false 0 ps)) ps' ∧
          write true 0 ps' = lead ++ trim (write false 0 ps) := by
    intro hhead
    have htrim : ∀ keep, trim (write keep 0 ps) = write keep 0 ps := fun keep =>
      Trimmed.trim_eq ⟨hhead keep, hlast keep⟩
    obtain ⟨ps', hreads, hwrite⟩ := h.again (.start hsqueezed) false none (fun _ => ⟨rfl, rfl⟩)
    refine ⟨[], by simp, fun keep => (htrim keep).symm, ps', ?_⟩
    rw [htrim false]
    exact ⟨hreads, hwrite⟩
  cases h with
  | nil => exact hplain (by simp [write])
  | quoted hspace hr tail => exact hplain fun keep => by simpa [write] using hs.head
  | gap tail => exact absurd (hs.head _ rfl) (by decide)
  | plain hquote hspace hcompound hloose tail =>
      exact hplain fun keep => by simpa [write] using hs.head
  | single hr hcompound hprev hnext tail => simp at hprev
  | @compound _ _ op s ps hop tail =>
      have hmem := (mem_of_compoundAt? hop).1
      have htrim := fun keep => trim_write_compound hmem (hlast keep)
      obtain ⟨ps', hreads, hwrite⟩ := tail.again ((Pending.start hsqueezed).compound hmem) true
        op.getLast? (by simp)
      refine ⟨[.char ' '], by simp, fun keep => by rw [htrim keep]; rfl, .compound op :: ps', ?_⟩
      rw [htrim false]
      refine ⟨.compound (compoundAt?_self hmem (head_write_of_pos false Nat.one_pos ps)) hreads, ?_⟩
      simpa [write] using hwrite

/-! ## One segment -/

/-- Collapsing an expression is squeezing it. -/
theorem collapseFrom_eq (prev : Option Glyph) (q : Quote) (gap : Bool) (seen s : Text) :
    collapseFrom prev q gap seen s = seen.reverse ++ Tag.squeeze prev q gap s := by
  induction s generalizing prev q gap seen with
  | nil => simp [collapseFrom, Tag.squeeze]
  | cons r s ih =>
      rw [collapseFrom, Tag.squeeze]
      split
      · exact ih _ _ _ _
      · rw [ih]
        split <;> simp

/-- What stands before a text matters to squeezing only by a space in front. -/
theorem exists_squeeze_eq {prev : Option Glyph} (hprev : ¬Escapes prev) (q : Quote) (gap : Bool)
    (s : Text) :
    ∃ w : Text, (∀ r ∈ w, r.isBlank = true) ∧
      Tag.squeeze prev q gap s = w ++ Tag.squeeze none q false s := by
  cases s with
  | nil => exact ⟨[], by simp, rfl⟩
  | cons r s =>
      have hnext := Quote.next_congr (iff_of_false hprev (by simp [Escapes] : ¬Escapes none)) q r
      rw [Tag.squeeze, Tag.squeeze]
      split
      · exact ⟨[], by simp, rfl⟩
      · rw [hnext]
        cases gap with
        | false => exact ⟨[], by simp, rfl⟩
        | true => exact ⟨[.char ' '], by simp, rfl⟩

/-- The place behind a text has the glyph and the quotes behind it. -/
theorem place_after (place : Tag.Place) (s : Text) :
    (place.after s).prev = s.getLast?.or place.prev ∧
      (place.after s).quote = place.quote.after place.prev s := by
  induction s generalizing place with
  | nil => exact ⟨rfl, rfl⟩
  | cons r s ih =>
      have hnext : (place.next r).prev = some r ∧
          (place.next r).quote = place.quote.next place.prev r := by
        rw [Tag.Place.next]
        split
        · next hspace =>
            exact ⟨rfl, (Tag.next_of_space _ _ (Bool.and_eq_true_iff.mp hspace).2).symm⟩
        · exact ⟨rfl, rfl⟩
      have hrest := ih (place.next r)
      rw [hnext.1, hnext.2] at hrest
      rw [getLast?_cons_or]
      exact hrest

/-- Blanks around a text do not matter to squeezing, once the ends are trimmed. -/
theorem trim_squeeze_between {w w' : Text} (hw : ∀ r ∈ w, r.isBlank = true) (s : Text)
    (hw' : ∀ r ∈ w', r.isBlank = true) {prev : Option Glyph} (hprev : ¬Escapes prev) (q : Quote)
    (gap : Bool) :
    trim (Tag.squeeze prev q gap (w ++ s ++ w')) = trim (Tag.squeeze none q false s) := by
  have hblank : ∀ {u : Text} (prev q gap), (∀ r ∈ u, r.isBlank = true) →
      ∀ r ∈ Tag.squeeze prev q gap u, r.isBlank = true := by
    intro u prev q gap hu
    rw [← strip_eq_nil_iff, Tag.strip_squeeze]
    exact strip_eq_nil_of_blank hu
  rw [Tag.squeeze_append ⟨prev, q, gap⟩, Tag.squeeze_append ⟨prev, q, gap⟩]
  obtain ⟨hback, hquote⟩ := place_after ⟨prev, q, gap⟩ w
  have hescapes : ¬Escapes (Tag.Place.after ⟨prev, q, gap⟩ w).prev := by
    rw [hback]
    exact not_escapes_of_blank hw hprev
  obtain ⟨lead, hlead, hsqueeze⟩ := exists_squeeze_eq hescapes q
    (Tag.Place.after ⟨prev, q, gap⟩ w).gap s
  rw [hquote, Quote.after_of_blank hw, hsqueeze, ← List.append_assoc, Text.trim_between]
  · simpa [or_imp, forall_and] using ⟨hblank _ _ _ hw, hlead⟩
  · exact hblank _ _ _ hw'

/-- Trimming before squeezing changes nothing, once the ends are trimmed. -/
theorem trim_squeeze_trim (q : Quote) (s : Text) :
    trim (Tag.squeeze none q false (trim s)) = trim (Tag.squeeze none q false s) := by
  obtain ⟨a, b, hs, ha, hb⟩ := trim_spec s
  conv => rhs; rw [hs, trim_squeeze_between ha _ hb (by simp [Escapes])]

/-- A segment of an expression, squeezed, with its operators set off; `q` is the state of quotes
before it. -/
def tidy (q : Quote) (s : Text) : Text :=
  trim (spaceFrom 0 false none q [] (trim (Tag.squeeze none q false s)))

/-- The pieces of a segment when its operators are set off. -/
def tidyPieces (q : Quote) (s : Text) : List Piece :=
  piecesFrom 0 false none q (trim (Tag.squeeze none q false s))

theorem trim_spaceFrom {q : Quote} {s : Text} {ps : List Piece} (h : Reads false none q s ps) :
    trim (spaceFrom 0 false none q [] s) = trim (write true 0 ps) := by
  have hspace := spaceFrom_eq 0 false none q 0 [] s (by simp)
  rw [h.pieces_eq] at hspace
  rw [List.replicate_zero, List.nil_append] at hspace
  rw [hspace, List.reverse_nil, List.nil_append, trim_append_blank isBlank_of_mem_spaces]

theorem reads_tidyPieces (q : Quote) (s : Text) :
    Reads false none q (trim (Tag.squeeze none q false s)) (tidyPieces q s) :=
  reads_piecesFrom _ none (by simp)

/-- The parts of a squeezed text are squeezed, also when its ends are trimmed. -/
theorem squeezed_trim (q : Quote) (s : Text) :
    Squeezed none q (trim (Tag.squeeze none q false s)) := by
  have hsqueezed : Squeezed none q (Tag.squeeze none q false s) :=
    squeezed_squeeze s (by simp) (fun _ => Iff.rfl)
  obtain ⟨a, b, hs, ha, -⟩ := trim_spec (Tag.squeeze none q false s)
  rw [hs, List.append_assoc] at hsqueezed
  have hrest := hsqueezed.of_append.2.of_append.1
  rw [Quote.after_of_blank ha] at hrest
  have hnone : ¬Escapes none := by simp [Escapes]
  exact hrest.congr (iff_of_false (not_escapes_of_blank ha hnone) hnone)

theorem tidy_eq (q : Quote) (s : Text) : tidy q s = trim (write true 0 (tidyPieces q s)) :=
  trim_spaceFrom (reads_tidyPieces q s)

/-- Squeezing a tidied segment leaves one space where two operators wrote one each. -/
theorem trim_squeeze_tidy (q : Quote) (s : Text) :
    trim (Tag.squeeze none q false (tidy q s)) = trim (write false 0 (tidyPieces q s)) := by
  have hsqueeze : Tag.squeeze none q false (write true 0 (tidyPieces q s) ++
      List.replicate (waiting 0 (tidyPieces q s)) (.char ' ')) =
      write false 0 (tidyPieces q s) :=
    (reads_tidyPieces q s).squeeze_write (.start (squeezed_trim q s)) (fun _ => Iff.rfl)
  have htrim := trim_append_blank (isBlank_of_mem_spaces (n := waiting 0 (tidyPieces q s)))
    (write true 0 (tidyPieces q s))
  rw [tidy_eq, ← htrim, trim_squeeze_trim, hsqueeze]

/-- Setting off the operators of what is left changes nothing. -/
theorem trim_spaceFrom_write (q : Quote) (s : Text) :
    trim (spaceFrom 0 false none q [] (trim (write false 0 (tidyPieces q s)))) =
      trim (write false 0 (tidyPieces q s)) := by
  obtain ⟨lead, hlead, -, ps', hreads, hwrite⟩ :=
    (reads_tidyPieces q s).exists_lead (trimmed_trim _) (squeezed_trim q s)
  rw [trim_spaceFrom hreads, hwrite, trim_blank_append hlead, (trimmed_trim _).trim_eq]

/-- A segment tidied twice. -/
theorem tidy_tidy (q : Quote) (s : Text) :
    tidy q (tidy q s) = trim (write false 0 (tidyPieces q s)) := by
  rw [tidy, trim_squeeze_tidy, trim_spaceFrom_write]

/-- **A segment tidied twice stays as it is.** -/
theorem tidy_tidy_tidy (q : Quote) (s : Text) : tidy q (tidy q (tidy q s)) = tidy q (tidy q s) := by
  have hsqueeze : trim (Tag.squeeze none q false (trim (write false 0 (tidyPieces q s)))) =
      trim (write false 0 (tidyPieces q s)) := by
    rw [← trim_squeeze_tidy, trim_squeeze_trim,
      Tag.squeeze_squeeze _ (by simp) (fun _ => rfl)]
  rw [tidy_tidy q s, tidy, hsqueeze, trim_spaceFrom_write]

/-- **When tidying a segment once is enough**: no operator of one glyph stands directly behind
another operator. -/
theorem tidy_tidy_iff (q : Quote) (s : Text) :
    tidy q (tidy q s) = tidy q s ↔ Roomy (tidyPieces q s) := by
  have hreads := reads_tidyPieces q s
  obtain ⟨lead, -, hlead, -⟩ := hreads.exists_lead (trimmed_trim _) (squeezed_trim q s)
  have hroomy := hreads.write_eq_iff (.start (squeezed_trim q s))
  rw [hlead true, hlead false, List.append_cancel_left_eq, and_iff_right (by simp)] at hroomy
  rw [tidy_tidy, tidy_eq, eq_comm, hroomy]

end Layout.Interpolation

end TemplateFormat
