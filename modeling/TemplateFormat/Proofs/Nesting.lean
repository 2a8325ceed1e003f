import TemplateFormat.Proofs.Cutting

/-!
# The nesting of interpolation markers

The end of an interpolation depends on a count of open markers.  `Nesting` is
that count as a machine that reads one glyph at a time, so that it can be
followed through text whose white space changes.

* `interpolationLength_spec` — an interpolation ends behind the first part of
  the text that closes all markers;
* `interpolationLength_of_closed`, `run_of_interpolationLength` — the same, read
  off a piece already cut;
* `Nesting.next_of_not_brace` — all glyphs but the braces act alike, so white
  space next to one of them does not matter.
-/

namespace TemplateFormat.Markup

/-! ## The nesting of interpolation markers -/

/-- How far a scan over an interpolation has come. -/
inductive Nesting where
  /-- Some markers are open; `half` is a brace just read that is not paired. -/
  | opened (depth : Nat) (half : Option Glyph)
  /-- The last marker was closed by the last glyph read. -/
  | closed
  /-- Glyphs were read behind the end. -/
  | passed
deriving DecidableEq, Repr

namespace Nesting

/-- The scan after one more glyph. -/
def next : Nesting → Glyph → Nesting
  | .opened depth half, r =>
    if r = .char '\x7b' then
      if half = some r then .opened (depth + 1) none else .opened depth (some r)
    else if r = .char '\x7d' then
      if half = some r then
        if depth ≤ 1 then .closed else .opened (depth - 1) none
      else .opened depth (some r)
    else .opened depth none
  | .closed, _ => .passed
  | .passed, _ => .passed

/-- The scan after a text. -/
def run (n : Nesting) (s : Text) : Nesting := s.foldl next n

@[simp] theorem run_nil (n : Nesting) : n.run [] = n := rfl

@[simp] theorem run_cons (n : Nesting) (r : Glyph) (s : Text) :
    n.run (r :: s) = (n.next r).run s :=
  rfl

@[simp] theorem run_append (n : Nesting) (s t : Text) :
    n.run (s ++ t) = (n.run s).run t :=
  List.foldl_append

@[simp] theorem run_passed (s : Text) : run .passed s = .passed := by
  induction s with
  | nil => rfl
  | cons r s ih => exact ih

/-- Nothing may follow the end. -/
theorem run_closed_eq {s : Text} : run .closed s = .closed ↔ s = [] := by
  cases s with
  | nil => simp
  | cons r s => simp [next]

/-- The glyph that ends a scan is a closing brace. -/
theorem last_of_run {depth : Nat} {half : Option Glyph} {s : Text}
    (h : run (.opened depth half) s = .closed) : ∃ body, s = body ++ [.char '\x7d'] := by
  rcases List.eq_nil_or_concat s with rfl | ⟨body, r, rfl⟩
  · cases h
  · refine ⟨body, ?_⟩
    simp only [List.concat_eq_append, run_append, run_cons, run_nil] at h ⊢
    cases hbody : run (.opened depth half) body with
    | opened d half =>
        by_cases hr : r = .char '\x7d'
        · rw [hr]
        · simp only [hbody, next, hr, if_false] at h
          split at h
          · split at h <;> cases h
          · cases h
    | closed => simp [hbody, next] at h
    | passed => simp [hbody, next] at h

/-- A brace that waits for its pair is the last glyph. -/
theorem last_of_half {depth depth' : Nat} {s : Text} {r : Glyph}
    (h : run (.opened depth none) s = .opened depth' (some r)) : ∃ body, s = body ++ [r] := by
  rcases List.eq_nil_or_concat s with rfl | ⟨body, a, rfl⟩
  · cases h
  · refine ⟨body, ?_⟩
    simp only [List.concat_eq_append, run_append, run_cons, run_nil] at h ⊢
    cases hbody : run (.opened depth none) body with
    | opened d half =>
        rw [hbody, next] at h
        split at h
        · split at h <;> cases h
          rfl
        · split at h
          · split at h
            · split at h <;> cases h
            · cases h
              rfl
          · cases h
    | closed => simp [hbody, next] at h
    | passed => simp [hbody, next] at h

/-- A scan ends in a closing marker. -/
theorem last_two_of_run {depth : Nat} {s : Text}
    (h : run (.opened depth none) s = .closed) :
    ∃ body, s = body ++ interpolationClose := by
  obtain ⟨body, rfl⟩ := last_of_run h
  simp only [run_append, run_cons, run_nil] at h
  cases hbody : run (.opened depth none) body with
  | opened d half =>
      have hhalf : half = some (.char '\x7d') := by
        by_cases hhalf : half = some (.char '\x7d')
        · exact hhalf
        · simp [hbody, next, hhalf] at h
      rw [hhalf] at hbody
      obtain ⟨front, rfl⟩ := last_of_half hbody
      exact ⟨front, by simp [interpolationClose, text]⟩
  | closed => simp [hbody, next] at h
  | passed => simp [hbody, next] at h

/-- A brace that does not pair with the one before it might as well be the
first. -/
theorem next_of_unpaired {depth : Nat} {half : Option Glyph} {r : Glyph}
    (h : half ≠ some r) :
    next (.opened depth half) r = next (.opened depth none) r := by
  simp [next, h]

/-- The scan after a glyph that is no brace: a brace read before it stays
without its pair. -/
def reset (n : Nesting) : Nesting := n.next (.char ' ')

/-- All glyphs but the braces act alike. -/
theorem next_of_not_brace (n : Nesting) {r : Glyph} (hopen : r ≠ .char '\x7b')
    (hclose : r ≠ .char '\x7d') : n.next r = n.reset := by
  cases n <;> simp [reset, next, hopen, hclose]

@[simp] theorem reset_reset (n : Nesting) : n.reset.reset = n.reset := by
  cases n <;> simp [reset, next]

@[simp] theorem reset_opened (depth : Nat) (half : Option Glyph) :
    reset (.opened depth half) = .opened depth none := rfl

/-- A text without braces acts like one glyph. -/
theorem run_of_no_brace (n : Nesting) {s : Text} (hne : s ≠ [])
    (hs : ∀ r ∈ s, r ≠ .char '\x7b' ∧ r ≠ .char '\x7d') : n.run s = n.reset := by
  induction s generalizing n with
  | nil => exact absurd rfl hne
  | cons r s ih =>
      obtain ⟨hopen, hclose⟩ := hs r List.mem_cons_self
      rw [run_cons, next_of_not_brace n hopen hclose]
      by_cases hnil : s = []
      · rw [hnil, run_nil]
      · rw [ih _ hnil fun a ha => hs a (List.mem_cons_of_mem r ha), reset_reset]

/-- A blank is no brace. -/
theorem next_of_blank (n : Nesting) {r : Glyph} (hr : r.isBlank = true) :
    n.next r = n.reset := by
  apply next_of_not_brace <;> rintro rfl <;> exact absurd hr (by decide)

/-- Blanks change nothing once the scan is reset. -/
theorem run_of_blank {n : Nesting} (hn : n.reset = n) {w : Text}
    (hw : ∀ r ∈ w, r.isBlank = true) :
    n.run w = n := by
  induction w with
  | nil => rfl
  | cons r w ih =>
      rw [run_cons, next_of_blank n (hw r List.mem_cons_self), hn,
        ih fun a ha => hw a (List.mem_cons_of_mem r ha)]

/-- Blanks reset the scan, or are not there. -/
theorem reset_run_of_blank (n : Nesting) {w : Text}
    (hw : ∀ r ∈ w, r.isBlank = true) :
    (n.run w).reset = n.reset := by
  cases w with
  | nil => rfl
  | cons r w =>
      rw [run_cons, next_of_blank n (hw r List.mem_cons_self),
        run_of_blank (reset_reset n) fun a ha => hw a (List.mem_cons_of_mem r ha),
        reset_reset]

end Nesting

namespace Lexeme

open Nesting

/-- The count of `interpolationLength` and the machine agree on a glyph that
starts no pair. -/
theorem run_of_no_pair {a b : Glyph} {s : Text} {depth : Nat}
    (hopen : ¬(a = .char '\x7b' ∧ b = .char '\x7b'))
    (hclose : ¬(a = .char '\x7d' ∧ b = .char '\x7d')) :
    run (.opened depth none) (a :: b :: s) = run (.opened depth none) (b :: s) := by
  have ha : next (.opened depth none) a = .opened depth none ∨
      (next (.opened depth none) a = .opened depth (some a) ∧ a ≠ b) := by
    by_cases h1 : a = .char '\x7b'
    · exact .inr ⟨by simp [next, h1], fun hab => hopen ⟨h1, hab ▸ h1⟩⟩
    · by_cases h2 : a = .char '\x7d'
      · exact .inr ⟨by simp [next, h2], fun hab => hclose ⟨h2, hab ▸ h2⟩⟩
      · exact .inl (by simp [next, h1, h2])
  rcases ha with ha | ⟨ha, hab⟩
  · rw [run_cons, ha]
  · rw [run_cons, ha, run_cons, next_of_unpaired (by simpa using hab), run_cons]

/-- A pair of closing markers goes one level up, or ends the scan. -/
theorem run_close_pair (depth : Nat) (s : Text) :
    run (.opened depth none) (.char '\x7d' :: .char '\x7d' :: s) =
      run (if depth ≤ 1 then .closed else .opened (depth - 1) none) s := by
  simp [next]

/-- **Where an interpolation ends.**  Either behind the first part of the text
that closes all markers, or, when no part does, at the end of the text. -/
theorem interpolationLength_spec (depth n : Nat) (s : Text) :
    (∃ part rest, s = part ++ rest ∧ run (.opened depth none) part = .closed ∧
      interpolationLength depth n s = n + part.length) ∨
    (∃ depth' half, run (.opened depth none) s = .opened depth' half) ∧
      interpolationLength depth n s = n + s.length := by
  fun_induction interpolationLength depth n s with
  | case1 depth n => exact .inr ⟨⟨depth, none, rfl⟩, rfl⟩
  | case2 depth n a =>
      refine .inr ⟨?_, rfl⟩
      by_cases h1 : a = .char '\x7b'
      · exact ⟨depth, some a, by simp [next, h1]⟩
      · by_cases h2 : a = .char '\x7d'
        · exact ⟨depth, some a, by simp [next, h2]⟩
        · exact ⟨depth, none, by simp [next, h1, h2]⟩
  | case3 depth n a b s hab ih =>
      obtain ⟨rfl, rfl⟩ := hab
      rcases ih with ⟨part, rest, rfl, hpart, hlen⟩ | ⟨hopened, hlen⟩
      · exact .inl ⟨_ :: _ :: part, rest, rfl,
          hpart, by rw [hlen]; simp only [List.length_cons]; omega⟩
      · exact .inr ⟨hopened, by rw [hlen]; simp only [List.length_cons]; omega⟩
  | case4 depth n a b s _ hab hd =>
      obtain ⟨rfl, rfl⟩ := hab
      exact .inl ⟨[_, _], s, rfl, by rw [run_close_pair, if_pos hd]; rfl, rfl⟩
  | case5 depth n a b s _ hab hd ih =>
      obtain ⟨rfl, rfl⟩ := hab
      rcases ih with ⟨part, rest, rfl, hpart, hlen⟩ | ⟨hopened, hlen⟩
      · refine .inl ⟨_ :: _ :: part, rest,
          rfl, by rw [run_close_pair, if_neg hd]; exact hpart, ?_⟩
        rw [hlen]
        simp only [List.length_cons]
        omega
      · refine .inr ⟨by rw [run_close_pair, if_neg hd]; exact hopened, ?_⟩
        rw [hlen]
        simp only [List.length_cons]
        omega
  | case6 depth n a b s h1 h2 ih =>
      rcases ih with ⟨part, rest, hsplit, hpart, hlen⟩ | ⟨hopened, hlen⟩
      · cases part with
        | nil => cases hpart
        | cons c part =>
            rw [List.cons_append] at hsplit
            cases hsplit
            refine .inl ⟨a :: _ :: part, rest,
              rfl, by rw [run_of_no_pair h1 h2]; exact hpart, ?_⟩
            rw [hlen]
            simp only [List.length_cons]
            omega
      · refine .inr ⟨by rw [run_of_no_pair h1 h2]; exact hopened, ?_⟩
        rw [hlen]
        simp only [List.length_cons]
        omega

/-- A text that has closed its markers cannot be part of a longer one that
has. -/
theorem closed_unique {n : Nesting} {a b c d : Text} (ha : n.run a = .closed)
    (hc : n.run c = .closed) (h : a ++ b = c ++ d) : a = c := by
  rcases List.append_eq_append_iff.mp h with ⟨e, rfl, -⟩ | ⟨e, rfl, -⟩
  · rw [run_append, ha, run_closed_eq] at hc
    rw [hc, List.append_nil]
  · rw [run_append, hc, run_closed_eq] at ha
    rw [ha, List.append_nil]

/-- A text that closes its markers is as long as an interpolation gets. -/
theorem interpolationLength_of_closed {depth : Nat} (n : Nat) {s : Text}
    (rest : Text)
    (h : run (.opened depth none) s = .closed) :
    interpolationLength depth n (s ++ rest) = n + s.length := by
  rcases interpolationLength_spec depth n (s ++ rest) with
    ⟨part, rest', hsplit, hpart, hlen⟩ | ⟨⟨depth', half, hopened⟩, -⟩
  · rw [hlen, closed_unique h hpart hsplit]
  · rw [run_append, h] at hopened
    cases rest <;> simp [next] at hopened

/-- A text that leaves markers open is an interpolation to its end. -/
theorem interpolationLength_of_opened {depth depth' : Nat} {half : Option Glyph}
    (n : Nat) {s : Text}
    (h : run (.opened depth none) s = .opened depth' half) :
    interpolationLength depth n s = n + s.length := by
  rcases interpolationLength_spec depth n s with ⟨part, rest, rfl, hpart, -⟩ | ⟨-, hlen⟩
  · rw [run_append, hpart] at h
    cases rest <;> simp [next] at h
  · exact hlen

/-- An interpolation has closed its markers, or nothing follows it. -/
theorem run_of_interpolationLength {depth n : Nat} {s rest : Text}
    (h : interpolationLength depth n (s ++ rest) = n + s.length) :
    run (.opened depth none) s = .closed ∨
      rest = [] ∧ ∃ depth' half, run (.opened depth none) s = .opened depth' half := by
  rcases interpolationLength_spec depth n (s ++ rest) with
    ⟨part, rest', hsplit, hpart, hlen⟩ | ⟨hopened, hlen⟩
  · have hpiece : s = part := (List.append_inj hsplit (by omega)).1
    exact .inl (hpiece ▸ hpart)
  · have hrest : rest = [] := by
      rw [List.length_append] at hlen
      exact List.eq_nil_of_length_eq_zero (by omega)
    subst hrest
    exact .inr ⟨rfl, by simpa using hopened⟩

end Lexeme

end TemplateFormat.Markup
