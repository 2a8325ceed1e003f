import TemplateFormat.Layout.Interpolation
import TemplateFormat.Proofs.TagForm

/-!
# The quoted parts of an expression

A scan over an expression knows at each glyph whether it stands inside quotes.
`Quoting` is that scan together with the quoted parts it has passed, quotes
included.  What an expression is rewritten to is scanned again from the start, so
the two scans have to be compared.

They agree as long as blanks are changed outside quotes only, and none comes or
goes between a backslash and a quote: `Reblanked` says this of two texts, glyph by
glyph.

* `Reblanked.run_eq` — such a change leaves the quoted parts alone;
* `Reblanked.append` — changes side by side are one change;
* `reblanked_squeeze` — collapsing the spaces outside quotes is one.
-/

namespace TemplateFormat

open Text Markup

/-- Whether a glyph can open or close a quoted part. -/
def Glyph.isQuote (r : Glyph) : Bool := r = .char '\x27' || r = .char '\x22'

/-- Only quotes open and close quoted parts. -/
theorem Quote.next_of_isQuote {r : Glyph} (hr : r.isQuote = false) (q : Quote)
    (prev : Option Glyph) : q.next prev r = q := by
  simp only [Glyph.isQuote, Bool.or_eq_false_iff, decide_eq_false_iff_not] at hr
  exact Lexeme.next_of_not_quote q prev hr.1 hr.2

/-- A blank is no quote. -/
theorem Glyph.isQuote_of_isBlank {r : Glyph} (hr : r.isBlank = true) : r.isQuote = false := by
  simp only [Glyph.isQuote, Bool.or_eq_false_iff, decide_eq_false_iff_not]
  constructor <;> rintro rfl <;> exact absurd hr (by decide)

/-- The glyph before matters to a quote only if it is a backslash. -/
def Escapes (prev : Option Glyph) : Prop := prev = some (.char '\\')

instance (prev : Option Glyph) : Decidable (Escapes prev) :=
  inferInstanceAs (Decidable (prev = _))

theorem Quote.next_congr {prev prev' : Option Glyph} (h : Escapes prev ↔ Escapes prev')
    (q : Quote) (r : Glyph) : q.next prev r = q.next prev' r := by
  simp only [Escapes] at h
  simp [Quote.next, h]

/-- Spaces are blanks. -/
theorem isBlank_of_mem_spaces {n : Nat} : ∀ r ∈ List.replicate n (Glyph.char ' '),
    r.isBlank = true := by
  intro r hr
  rw [List.eq_of_mem_replicate hr]
  rfl

/-- A blank does not escape what follows. -/
theorem not_escapes_of_isBlank {w : Glyph} (hw : w.isBlank = true) : ¬Escapes (some w) := by
  rintro h
  obtain rfl : w = .char '\\' := by simpa [Escapes] using h
  exact absurd hw (by decide)

/-- Inside one kind of quotes, the other kind is passed over. -/
theorem Quote.next_of_inside {q : Quote} {prev : Option Glyph} {r : Glyph} (hq : q ≠ .outside)
    (hnext : q.next prev r ≠ .outside) : q.next prev r = q := by
  revert hq hnext
  unfold Quote.next
  split
  · intros
    rfl
  · split <;> simp

/-- The last glyph behind one more glyph. -/
theorem getLast?_cons_or (r : Glyph) (s : Text) (prev : Option Glyph) :
    (r :: s).getLast?.or prev = s.getLast?.or (some r) := by
  rw [List.getLast?_cons]
  cases s.getLast? <;> rfl

/-- The state of quotes behind a text. -/
def Quote.after (q : Quote) (prev : Option Glyph) : Text → Quote
  | [] => q
  | r :: s => (q.next prev r).after (some r) s

/-- A scan over an expression: the quotes it is inside of, the quoted part that is
open, in reverse, and the parts passed before, the latest first. -/
structure Quoting where
  quote : Quote := .outside
  part : Text := []
  parts : List Text := []
deriving DecidableEq, Repr

namespace Quoting

/-- The scan after one more glyph; `prev` is the glyph before it. -/
def next (scan : Quoting) (prev : Option Glyph) (r : Glyph) : Quoting :=
  let q := scan.quote.next prev r
  if scan.quote.isOutside then
    if q.isOutside then scan else { scan with quote := q, part := [r] }
  else if q.isOutside then { quote := q, parts := (r :: scan.part).reverse :: scan.parts }
  else { scan with part := r :: scan.part }

/-- The scan after a text. -/
def run (scan : Quoting) (prev : Option Glyph) : Text → Quoting
  | [] => scan
  | r :: s => (scan.next prev r).run (some r) s

/-- The scan of a whole text. -/
def of (s : Text) : Quoting := run {} none s

end Quoting

/-- The quoted parts of a text, quotes included, in order; one that is not closed is
left out. -/
def Text.quotedParts (s : Text) : List Text := (Quoting.of s).parts.reverse

namespace Quoting

theorem next_congr {prev prev' : Option Glyph} (h : Escapes prev ↔ Escapes prev')
    (scan : Quoting) (r : Glyph) : scan.next prev r = scan.next prev' r := by
  rw [next, next, Quote.next_congr h]

/-- Outside quotes, all glyphs but quotes are passed over. -/
theorem next_of_outside {scan : Quoting} (hscan : scan.quote = .outside) {r : Glyph}
    (hr : r.isQuote = false) (prev : Option Glyph) : scan.next prev r = scan := by
  rw [next, Quote.next_of_isQuote hr, hscan]
  rfl

/-- The quotes of a scan go on as those of the text. -/
theorem quote_next (scan : Quoting) (prev : Option Glyph) (r : Glyph) :
    (scan.next prev r).quote = scan.quote.next prev r := by
  rw [next]
  by_cases hout : scan.quote = .outside
  · rw [if_pos (by simp [Quote.isOutside, hout])]
    split
    · next hq => exact hout.trans (of_decide_eq_true hq).symm
    · rfl
  · rw [if_neg (by simp [Quote.isOutside, hout])]
    split
    · rfl
    · next hq => exact (Quote.next_of_inside hout (by simpa [Quote.isOutside] using hq)).symm

@[simp] theorem run_nil (scan : Quoting) (prev : Option Glyph) : scan.run prev [] = scan := rfl

@[simp] theorem run_cons (scan : Quoting) (prev : Option Glyph) (r : Glyph) (s : Text) :
    scan.run prev (r :: s) = (scan.next prev r).run (some r) s :=
  rfl

theorem run_append (scan : Quoting) (prev : Option Glyph) (s t : Text) :
    scan.run prev (s ++ t) = (scan.run prev s).run (s.getLast?.or prev) t := by
  induction s generalizing scan prev with
  | nil => rfl
  | cons r s ih =>
      rw [List.cons_append, run_cons, ih, run_cons, getLast?_cons_or]

theorem quote_run (scan : Quoting) (prev : Option Glyph) (s : Text) :
    (scan.run prev s).quote = scan.quote.after prev s := by
  induction s generalizing scan prev with
  | nil => rfl
  | cons r s ih => rw [run_cons, ih, quote_next, Quote.after]

/-- Outside quotes, a text without quotes is passed over. -/
theorem run_of_outside {scan : Quoting} (hscan : scan.quote = .outside) {s : Text}
    (hs : ∀ r ∈ s, r.isQuote = false) (prev : Option Glyph) : scan.run prev s = scan := by
  induction s generalizing prev with
  | nil => rfl
  | cons r s ih =>
      rw [run_cons, next_of_outside hscan (hs r List.mem_cons_self)]
      exact ih (fun a ha => hs a (List.mem_cons_of_mem r ha)) _

end Quoting

/-! ## Blanks outside quotes -/

/-- The second text is the first with other blanks outside quotes.  `prev` and `prev'` are
the glyphs before the two texts: a quote is copied only if both escape it or neither
does. -/
inductive Reblanked : (prev prev' : Option Glyph) → Quote → Text → Text → Prop
  | nil {prev prev' : Option Glyph} {q : Quote} : Reblanked prev prev' q [] []
  | copy {prev prev' : Option Glyph} {q : Quote} {r : Glyph} {s t : Text}
      (hprev : r.isQuote = true → (Escapes prev ↔ Escapes prev'))
      (tail : Reblanked (some r) (some r) (q.next prev r) s t) :
      Reblanked prev prev' q (r :: s) (r :: t)
  | add {prev prev' : Option Glyph} {w : Glyph} {s t : Text} (hw : w.isBlank = true)
      (tail : Reblanked prev (some w) .outside s t) : Reblanked prev prev' .outside s (w :: t)
  | drop {prev prev' : Option Glyph} {w : Glyph} {s t : Text} (hw : w.isBlank = true)
      (tail : Reblanked (some w) prev' .outside s t) : Reblanked prev prev' .outside (w :: s) t

namespace Reblanked

variable {prev prev' : Option Glyph} {q : Quote} {s t : Text}

/-- **The quoted parts stay** when blanks outside quotes change. -/
theorem run_eq (h : Reblanked prev prev' q s t) {scan : Quoting} (hscan : scan.quote = q) :
    scan.run prev' t = scan.run prev s := by
  induction h generalizing scan with
  | nil => rfl
  | @copy prev prev' q r s t hprev tail ih =>
      have hnext : scan.next prev' r = scan.next prev r := by
        cases hr : r.isQuote with
        | true => exact Quoting.next_congr (hprev hr).symm scan r
        | false => rw [Quoting.next, Quoting.next, Quote.next_of_isQuote hr,
            Quote.next_of_isQuote hr]
      rw [Quoting.run_cons, Quoting.run_cons, hnext]
      exact ih (by rw [Quoting.quote_next, hscan])
  | add hw tail ih =>
      rw [Quoting.run_cons, Quoting.next_of_outside hscan (Glyph.isQuote_of_isBlank hw)]
      exact ih hscan
  | drop hw tail ih =>
      rw [Quoting.run_cons, Quoting.next_of_outside hscan (Glyph.isQuote_of_isBlank hw)]
      exact ih hscan

/-- So does the state of quotes behind the text. -/
theorem after_eq (h : Reblanked prev prev' q s t) : q.after prev' t = q.after prev s := by
  have hrun : Quoting.run { quote := q } prev' t = Quoting.run { quote := q } prev s := h.run_eq rfl
  have hquote := congrArg Quoting.quote hrun
  rwa [Quoting.quote_run, Quoting.quote_run] at hquote

/-- Nothing changes. -/
theorem refl (q : Quote) (s : Text)
    (hprev : ∀ r ∈ s.head?, r.isQuote = true → (Escapes prev ↔ Escapes prev')) :
    Reblanked prev prev' q s s := by
  induction s generalizing prev prev' q with
  | nil => exact .nil
  | cons r s ih => exact .copy (hprev r rfl) (ih _ fun _ _ _ => Iff.rfl)

/-- **Changes side by side** are one change. -/
theorem append {u v : Text} (h : Reblanked prev prev' q s t)
    (hnext : Reblanked (s.getLast?.or prev) (t.getLast?.or prev') (q.after prev s) u v) :
    Reblanked prev prev' q (s ++ u) (t ++ v) := by
  induction h with
  | nil => exact hnext
  | copy hprev tail ih =>
      rw [getLast?_cons_or, getLast?_cons_or] at hnext
      exact .copy hprev (ih hnext)
  | @add prev prev' w s t hw tail ih =>
      rw [getLast?_cons_or w] at hnext
      exact .add hw (ih hnext)
  | @drop prev prev' w s t hw tail ih =>
      rw [getLast?_cons_or w, Quote.after,
        Quote.next_of_isQuote (Glyph.isQuote_of_isBlank hw)] at hnext
      exact .drop hw (ih hnext)

/-- Blanks outside quotes can be left out. -/
theorem dropBlanks {w : Text} (hw : ∀ r ∈ w, r.isBlank = true) (prev prev' : Option Glyph) :
    Reblanked prev prev' .outside w [] := by
  induction w generalizing prev with
  | nil => exact .nil
  | cons r w ih =>
      exact .drop (hw r List.mem_cons_self) (ih (fun a ha => hw a (List.mem_cons_of_mem r ha)) _)

/-- Blanks outside quotes can be put in. -/
theorem addBlanks {w : Text} (hw : ∀ r ∈ w, r.isBlank = true) (prev prev' : Option Glyph) :
    Reblanked prev prev' .outside [] w := by
  induction w generalizing prev' with
  | nil => exact .nil
  | cons r w ih =>
      exact .add (hw r List.mem_cons_self) (ih (fun a ha => hw a (List.mem_cons_of_mem r ha)) _)

end Reblanked

/-- A text without quotes leaves the state of quotes as it is. -/
theorem Quote.after_of_isQuote {s : Text} (hs : ∀ r ∈ s, r.isQuote = false) (q : Quote)
    (prev : Option Glyph) : q.after prev s = q := by
  induction s generalizing prev with
  | nil => rfl
  | cons r s ih =>
      rw [Quote.after, Quote.next_of_isQuote (hs r List.mem_cons_self)]
      exact ih (fun a ha => hs a (List.mem_cons_of_mem r ha)) _

theorem Quote.after_append (q : Quote) (prev : Option Glyph) (s t : Text) :
    q.after prev (s ++ t) = (q.after prev s).after (s.getLast?.or prev) t := by
  induction s generalizing q prev with
  | nil => rfl
  | cons r s ih => rw [List.cons_append, Quote.after, ih, Quote.after, getLast?_cons_or]

/-- **Squeezing the spaces outside quotes** is a change of blanks. -/
theorem reblanked_squeeze {prev prev' : Option Glyph} {q : Quote} {gap : Bool} (s : Text)
    (hopen : gap = true → q = .outside ∧ ¬Escapes prev)
    (hprev : gap = false → (Escapes prev ↔ Escapes prev')) :
    Reblanked prev prev' q s (Tag.squeeze prev q gap s) := by
  induction s generalizing prev prev' q gap with
  | nil => exact .nil
  | cons r s ih =>
      rw [Tag.squeeze]
      split
      · next hspace =>
          obtain ⟨hq, hr⟩ := Bool.and_eq_true_iff.mp hspace
          obtain rfl : q = .outside := of_decide_eq_true hq
          have hblank := Glyph.isBlank_of_isSpace hr
          exact .drop hblank (ih (fun _ => ⟨rfl, not_escapes_of_isBlank hblank⟩) (by simp))
      · have hrest : Reblanked (some r) (some r) (q.next prev r) s
            (Tag.squeeze (some r) (q.next prev r) false s) :=
          ih (by simp) (fun _ => Iff.rfl)
        split
        · next hgap =>
            obtain ⟨rfl, hescapes⟩ := hopen hgap
            have hspace : ¬Escapes (some (.char ' ')) := not_escapes_of_isBlank rfl
            exact .add rfl (.copy (fun _ => by simp [hescapes, hspace]) hrest)
        · next hgap => exact .copy (fun _ => hprev (by simpa using hgap)) hrest

end TemplateFormat
