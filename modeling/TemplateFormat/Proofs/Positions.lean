import Mathlib.Algebra.GroupWithZero.Nat
import TemplateFormat.Editor.Position
import TemplateFormat.Proofs.Offsets

/-!
# Positions as editors read them

An editor reads a position line by line: it goes to the line, and there as many UTF-16
units forward as the position says, but never past the end of the line; a line past the
last one is the end of the document.  `Position.lead` is the part of a document before a
position in this sense.  `Position.toOffset` walks glyph by glyph instead and stops at the
first boundary that is not before the position.  The two part in two places: the walk
takes a position past the end of a line to be behind the glyph that ends the line, and
stops in the middle of a carriage return and newline that end the line before.

* `lines`, `clip`, `Position.lead` — the reading of an editor;
* `toOffset_eq` — the walk measures the part `Position.walked`;
* `walked_eq`, `strays_walked` — what that part is, line by line, and how it differs from
  the reading of an editor;
* `ofOffset_width` — the position of the end of a document: the number of line ends, and
  the units of the last line.
-/

namespace TemplateFormat.Editor

open Text

/-! ## Lines -/

/-- A line of a document with what ends it. -/
structure Line where
  body : Text
  /-- A carriage return, a newline or the two together; the last line has none. -/
  ending : Text
deriving DecidableEq, Repr

/-- The line with its ending. -/
def Line.text (line : Line) : Text := line.body ++ line.ending

/-- Whether a glyph ends a line. -/
def endsLine (r : Glyph) : Bool := r = .char '\r' || r = .char '\n'

/-- The lines of a document; there is always one more than there are line ends. -/
def lines : Text → List Line
  | [] => [⟨[], []⟩]
  | .char '\r' :: .char '\n' :: rest => ⟨[], [.char '\r', .char '\n']⟩ :: lines rest
  | r :: rest =>
    if endsLine r then ⟨[], [r]⟩ :: lines rest
    else (lines rest).modifyHead fun line => { line with body := r :: line.body }

/-- The number of line ends of a document. -/
def lineEnds : Text → Nat
  | [] => 0
  | .char '\r' :: .char '\n' :: rest => lineEnds rest + 1
  | r :: rest => if endsLine r then lineEnds rest + 1 else lineEnds rest

/-- What follows the last line end of a document. -/
def lastLine : Text → Text
  | [] => []
  | r :: rest => if (r :: rest).any endsLine then lastLine rest else r :: rest

/-- The number of UTF-16 units of a text. -/
def units (s : Text) : Nat := (s.map Glyph.units).sum

/-- The first glyphs of a text up to a number of units.  A glyph of two units counts if
the number ends in the middle of it. -/
def clip (count : Nat) : Text → Text
  | [] => []
  | r :: s => if count = 0 then [] else r :: clip (count - r.units) s

/-- The part of some lines before a position that is given from the first of them on. -/
def leadIn : (line character : Nat) → List Line → Text
  | _, _, [] => []
  | 0, character, first :: _ => clip character first.body
  | line + 1, character, first :: rest => first.text ++ leadIn line character rest

/-- **The part of a document before a position**, as an editor reads it. -/
def Position.lead (doc : Text) (p : Position) : Text :=
  leadIn p.line.toNat p.character.toNat (lines doc)

/-- The lines of a document hold all of it, and the last has no ending. -/
theorem lines_spec (doc : Text) :
    ∃ before last, lines doc = before ++ [⟨last, []⟩] ∧
      before.flatMap Line.text ++ last = doc := by
  fun_induction lines doc with
  | case1 => exact ⟨[], [], rfl, rfl⟩
  | case2 rest ih =>
      obtain ⟨before, last, hlines, hdoc⟩ := ih
      exact ⟨_ :: before, last, by rw [hlines]; rfl, by simp [Line.text, hdoc]⟩
  | case3 r rest _ hends ih =>
      obtain ⟨before, last, hlines, hdoc⟩ := ih
      exact ⟨_ :: before, last, by rw [hlines]; rfl, by simp [Line.text, hdoc]⟩
  | case4 r rest _ hends ih =>
      obtain ⟨before, last, hlines, hdoc⟩ := ih
      cases before with
      | nil => exact ⟨[], r :: last, by rw [hlines]; rfl, by simpa using hdoc⟩
      | cons first before =>
          exact ⟨_ :: before, last, by rw [hlines]; rfl, by simpa [Line.text] using hdoc⟩

/-- A document has a glyph that ends a line exactly if it has line ends. -/
theorem any_endsLine (doc : Text) : doc.any endsLine = true ↔ lineEnds doc ≠ 0 := by
  fun_induction lineEnds doc with
  | case1 => simp
  | case2 rest ih => simp [endsLine]
  | case3 r rest _ hends ih => simp [hends]
  | case4 r rest _ hends ih => simpa [hends] using ih

/-- The lines of a document: one for each line end, and the last one. -/
theorem lines_eq (doc : Text) :
    ∃ before, lines doc = before ++ [⟨lastLine doc, []⟩] ∧ before.length = lineEnds doc := by
  fun_induction lines doc with
  | case1 => exact ⟨[], rfl, rfl⟩
  | case2 rest ih =>
      obtain ⟨before, hlines, hlength⟩ := ih
      refine ⟨⟨[], [.char '\r', .char '\n']⟩ :: before, ?_, by simp [lineEnds, hlength]⟩
      rw [hlines]
      simp [lastLine, endsLine]
  | case3 r rest hpair hends ih =>
      obtain ⟨before, hlines, hlength⟩ := ih
      refine ⟨⟨[], [r]⟩ :: before, by rw [hlines]; simp [lastLine, hends], ?_⟩
      rw [lineEnds.eq_3 r rest hpair, if_pos hends, List.length_cons, hlength]
  | case4 r rest hpair hends ih =>
      obtain ⟨before, hlines, hlength⟩ := ih
      rw [lineEnds.eq_3 r rest hpair, if_neg hends, ← hlength]
      cases before with
      | nil =>
          -- the glyph stands in the last line
          have hnone : rest.any endsLine = false := by
            rw [← Bool.not_eq_true, any_endsLine, ← hlength]
            simp
          have hrest : lastLine rest = rest := by
            cases rest with
            | nil => rfl
            | cons a rest => rw [lastLine, hnone]; rfl
          refine ⟨[], ?_, rfl⟩
          rw [hlines, hrest, lastLine, List.any_cons, hnone]
          simp [hends]
      | cons first before =>
          have hsome : rest.any endsLine = true := by
            rw [any_endsLine, ← hlength]
            simp
          refine ⟨{ first with body := r :: first.body } :: before, ?_, rfl⟩
          rw [hlines, lastLine, List.any_cons, hsome]
          simp

/-! ## The walk to a position -/

/-- The glyphs that a walk from the position `q` to the position `p` passes. -/
def walked (p q : Position) (afterReturn : Bool) : Text → Text
  | [] => []
  | r :: s =>
    if q.before p then r :: walked p (q.next afterReturn r) (r == .char '\r') s else []

/-- The walk counts the bytes of the glyphs it passes. -/
theorem walk_eq (p q : Position) (offset : Nat) (afterReturn : Bool) (doc : Text) :
    (Position.walk (fun _ q => !q.before p) offset q afterReturn doc).1 =
      offset + width (walked p q afterReturn doc) := by
  induction doc generalizing q offset afterReturn with
  | nil => rfl
  | cons r s ih =>
      rw [Position.walk, walked]
      cases hbefore : q.before p with
      | true =>
          simp only [Bool.not_true, Bool.false_eq_true, if_false, if_true]
          rw [ih, width_cons]
          omega
      | false => simp

/-- The walk passes a leading part of the document. -/
theorem prefix_walked (p q : Position) (afterReturn : Bool) (doc : Text) :
    walked p q afterReturn doc <+: doc := by
  induction doc generalizing q afterReturn with
  | nil => exact List.prefix_rfl
  | cons r s ih =>
      rw [walked]
      split
      · exact List.cons_prefix_cons.mpr ⟨rfl, ih _ _⟩
      · exact List.nil_prefix

/-- A carriage return before the document matters only if a newline comes first. -/
theorem walked_afterReturn (p q : Position) {doc : Text} (h : doc.head? ≠ some (.char '\n')) :
    walked p q true doc = walked p q false doc := by
  cases doc with
  | nil => rfl
  | cons r s =>
      have hr : r ≠ .char '\n' := by simpa using h
      simp [walked, Position.next, hr]

/-- The part of some lines that the walk passes, for a position that is given from the
first of them on. -/
def walkedIn : (line character : Nat) → List Line → Text
  | _, _, [] => []
  | 0, character, first :: _ =>
    if character ≤ units first.body then clip character first.body
    else first.body ++ first.ending.take 1
  | line + 1, character, first :: rest =>
    first.body ++ (if line = 0 ∧ character = 0 then first.ending.take 1 else first.ending) ++
      walkedIn line character rest

/-- The position with the given coordinates. -/
def Position.of (line character : Nat) : Position := ⟨line, character⟩

/-- Positions are ordered by their lines, and on one line by their characters. -/
theorem before_iff {p q : Position} :
    p.before q = true ↔ p.line < q.line ∨ p.line = q.line ∧ p.character < q.character := by
  simp [Position.before]

/-- The order of positions that are `m` lines apart. -/
theorem before_of (l m k c : Nat) :
    (Position.of l k).before (.of (l + m) c) = true ↔ m ≠ 0 ∨ k < c := by
  rw [before_iff]
  simp only [Position.of]
  omega

/-- A step of the walk, from the line `l` to a position `m` lines further. -/
theorem walked_cons (l m k c : Nat) (afterReturn : Bool) (r : Glyph) (s : Text) :
    walked (.of (l + m) c) (.of l k) afterReturn (r :: s) =
      if m ≠ 0 ∨ k < c then
        r :: walked (.of (l + m) c) ((Position.of l k).next afterReturn r) (r == .char '\r') s
      else [] := by
  rw [walked]
  simp only [before_of]

/-- The walk does not go on in the line behind that of its end. -/
theorem walked_past (l c : Nat) (afterReturn : Bool) (doc : Text) :
    walked (.of l c) (.of (l + 1) 0) afterReturn doc = [] := by
  have hpast : ¬ (Position.of (l + 1) 0).before (.of l c) = true := by
    rw [before_iff]
    simp only [Position.of]
    omega
  cases doc with
  | nil => rfl
  | cons r s => rw [walked, if_neg hpast]

/-- The position behind a line end is the start of the next line. -/
theorem next_of_endsLine (l k : Nat) {r : Glyph} (h : endsLine r = true) :
    (Position.of l k).next false r = .of (l + 1) 0 := by
  simp only [endsLine, Bool.or_eq_true, decide_eq_true_eq] at h
  rcases h with rfl | rfl <;> simp [Position.next, Position.of]

/-- The position behind a glyph inside a line. -/
theorem next_of_inside (l k : Nat) {r : Glyph} (h : endsLine r = false) :
    (Position.of l k).next false r = .of l (k + r.units) := by
  simp only [endsLine, Bool.or_eq_false_iff, decide_eq_false_iff_not] at h
  simp [Position.next, Position.of, h.1, h.2]

/-- A glyph inside a line is no carriage return. -/
theorem beq_return_of_inside {r : Glyph} (h : endsLine r = false) : (r == .char '\r') = false := by
  simp only [endsLine, Bool.or_eq_false_iff, decide_eq_false_iff_not] at h
  exact beq_false_of_ne h.1

/-- Nothing comes before the start of a line. -/
theorem walkedIn_start (ls : List Line) : walkedIn 0 0 ls = [] := by
  cases ls with
  | nil => rfl
  | cons first rest => cases hbody : first.body <;> simp [walkedIn, clip, hbody]

/-- The walk to a position in the same line ends behind the first glyph of a line end. -/
theorem walked_of_endsLine (l k c : Nat) {r : Glyph} (h : endsLine r = true) (s more : Text)
    (ls : List Line) :
    walked (.of l c) (.of l k) false (r :: s) =
      walkedIn 0 (c - k) ({ body := [], ending := r :: more } :: ls) := by
  have hstep := walked_cons l 0 k c false r s
  rw [Nat.add_zero, next_of_endsLine l k h, walked_past] at hstep
  rw [hstep]
  by_cases hk : k < c
  · simp [hk, walkedIn, units, Nat.sub_ne_zero_of_lt hk]
  · simp [hk, Nat.sub_eq_zero_of_le (Nat.le_of_not_lt hk), walkedIn_start]

/-- A glyph inside the line of the position counts with its units. -/
theorem walkedIn_cons (k c : Nat) (r : Glyph) (first : Line) (ls : List Line) :
    walkedIn 0 (c - k) ({ first with body := r :: first.body } :: ls) =
      if k < c then r :: walkedIn 0 (c - (k + r.units)) (first :: ls) else [] := by
  by_cases hk : k < c
  · have hcount : c - (k + r.units) = c - k - r.units := by omega
    have hunits : units (r :: first.body) = r.units + units first.body := by simp [units]
    simp only [hk, if_true, walkedIn, hcount, hunits, clip, Nat.sub_ne_zero_of_lt hk, if_false]
    by_cases hfits : c - k - r.units ≤ units first.body
    · rw [if_pos hfits, if_pos (by omega)]
    · rw [if_neg hfits, if_neg (by omega), List.cons_append]
  · rw [if_neg hk, Nat.sub_eq_zero_of_le (Nat.le_of_not_lt hk), walkedIn_start]

/-- A line end that is one glyph does not matter to the walk behind it. -/
theorem walked_unpaired (p q : Position) {r : Glyph} {rest : Text}
    (h : ∀ tail, r = .char '\r' → rest = .char '\n' :: tail → False) :
    walked p q (r == .char '\r') rest = walked p q false rest := by
  by_cases hr : r = .char '\r'
  · subst hr
    refine walked_afterReturn p q fun hhead => ?_
    obtain ⟨tail, rfl⟩ := List.head?_eq_some_iff.mp hhead
    exact h tail rfl rfl
  · rw [beq_false_of_ne hr]

/-- **What the walk passes, line by line.**  It starts in the line `l`, behind `k` units
of it. -/
theorem walked_eq (l m k c : Nat) (doc : Text) :
    walked (.of (l + m) c) (.of l k) false doc =
      walkedIn m (if m = 0 then c - k else c) (lines doc) := by
  fun_induction lines doc generalizing l m k with
  | case1 => cases m <;> simp [walked, walkedIn, clip]
  | case2 rest ih =>
      -- a carriage return and a newline: the walk may end between the two
      cases m with
      | zero => exact walked_of_endsLine l k c rfl _ _ _
      | succ m =>
          rw [walked_cons, next_of_endsLine l k rfl, if_pos (by omega), ← Nat.add_assoc,
            Nat.add_right_comm l m 1, walked_cons]
          by_cases hstart : m = 0 ∧ c = 0
          · obtain ⟨rfl, rfl⟩ := hstart
            simp [walkedIn, walkedIn_start]
          · have hrest := ih (l + 1) m 0
            simp only [Nat.sub_zero, ite_self] at hrest
            rw [if_pos (by omega)]
            have hflag : (Glyph.char '\n' == Glyph.char '\r') = false := by decide
            simp [walkedIn, hstart, ← hrest, Position.next, hflag]
  | case3 r rest hpair hends ih =>
      cases m with
      | zero => exact walked_of_endsLine l k c hends _ _ _
      | succ m =>
          have hrest := ih (l + 1) m 0
          simp only [Nat.sub_zero, ite_self] at hrest
          rw [walked_cons, next_of_endsLine l k hends, if_pos (by omega), ← Nat.add_assoc,
            Nat.add_right_comm l m 1, walked_unpaired _ _ hpair, hrest]
          simp [walkedIn]
  | case4 r rest _ hends ih =>
      have hends : endsLine r = false := by simpa using hends
      obtain ⟨first, more, hlines⟩ : ∃ first more, lines rest = first :: more := by
        obtain ⟨before, last, hlines, -⟩ := lines_spec rest
        cases before <;> exact ⟨_, _, hlines⟩
      rw [walked_cons, next_of_inside l k hends, beq_return_of_inside hends, ih, hlines,
        List.modifyHead_cons]
      cases m with
      | zero =>
          rw [if_pos rfl, if_pos rfl, walkedIn_cons]
          simp
      | succ m => simp [walkedIn]

/-- The byte offset of a position is the width of the lines up to it, as they are
walked. -/
theorem toOffset_eq (doc : Text) (p : Position) :
    Position.toOffset doc p = width (walked p {} false doc) := by
  rw [Position.toOffset, walk_eq, Nat.zero_add]

/-- A walk to a later position passes at least as much. -/
theorem walked_mono {p p' : Position} (h : p'.before p = false) (q : Position) (afterReturn : Bool)
    (doc : Text) : walked p q afterReturn doc <+: walked p' q afterReturn doc := by
  have hgoes : ∀ q : Position, q.before p = true → q.before p' = true := by
    intro q hq
    rw [← Bool.not_eq_true] at h
    rw [before_iff] at h hq ⊢
    omega
  induction doc generalizing q afterReturn with
  | nil => exact List.prefix_rfl
  | cons r s ih =>
      rw [walked, walked]
      split
      · next hq =>
          rw [if_pos (hgoes q hq)]
          exact List.cons_prefix_cons.mpr ⟨rfl, ih _ _⟩
      · exact List.nil_prefix

/-! ## The reading of an editor -/

/-- Every glyph has a unit. -/
theorem units_pos (r : Glyph) : 0 < r.units := by
  cases r with
  | char c =>
      rw [Glyph.units]
      split <;> omega
  | stray b => exact Nat.one_pos

@[simp] theorem units_cons (r : Glyph) (s : Text) : units (r :: s) = r.units + units s := by
  simp [units]

/-- Clipping a text that is short enough leaves it whole. -/
theorem clip_of_units_le {count : Nat} {s : Text} (h : units s ≤ count) : clip count s = s := by
  induction s generalizing count with
  | nil => rfl
  | cons r s ih =>
      have hr := units_pos r
      rw [units_cons] at h
      rw [clip, if_neg (by omega), ih (by omega)]

/-- Clipping gives a leading part. -/
theorem prefix_clip (count : Nat) (s : Text) : clip count s <+: s := by
  induction s generalizing count with
  | nil => exact List.prefix_rfl
  | cons r s ih =>
      rw [clip]
      split
      · exact List.nil_prefix
      · exact List.cons_prefix_cons.mpr ⟨rfl, ih _⟩

/-- Clipping later gives at least as much. -/
theorem clip_mono {count count' : Nat} (h : count ≤ count') (s : Text) :
    clip count s <+: clip count' s := by
  induction s generalizing count count' with
  | nil => exact List.prefix_rfl
  | cons r s ih =>
      rw [clip, clip]
      split
      · exact List.nil_prefix
      · rw [if_neg (by omega)]
        exact List.cons_prefix_cons.mpr ⟨rfl, ih (by omega)⟩

/-- What comes before a position is a leading part of the lines. -/
theorem prefix_leadIn (n c : Nat) (ls : List Line) : leadIn n c ls <+: ls.flatMap Line.text := by
  induction ls generalizing n with
  | nil => cases n <;> exact List.prefix_rfl
  | cons first rest ih =>
      cases n with
      | zero =>
          rw [leadIn, List.flatMap_cons, Line.text, List.append_assoc]
          exact (prefix_clip c first.body).trans (List.prefix_append _ _)
      | succ n =>
          rw [leadIn, List.flatMap_cons]
          exact (List.prefix_append_right_inj _).mpr (ih n)

/-- A later position has at least as much before it. -/
theorem leadIn_mono {n c n' c' : Nat} (h : n < n' ∨ n = n' ∧ c ≤ c') (ls : List Line) :
    leadIn n c ls <+: leadIn n' c' ls := by
  induction ls generalizing n n' with
  | nil => cases n <;> cases n' <;> exact List.prefix_rfl
  | cons first rest ih =>
      cases n with
      | zero =>
          cases n' with
          | zero => exact clip_mono (by omega) _
          | succ n' =>
              rw [leadIn, leadIn, Line.text, List.append_assoc]
              exact (prefix_clip c first.body).trans (List.prefix_append _ _)
      | succ n =>
          obtain ⟨n', rfl⟩ : ∃ m, n' = m + 1 := ⟨n' - 1, by omega⟩
          rw [leadIn, leadIn]
          exact (List.prefix_append_right_inj _).mpr (ih (by omega))

/-- What comes before a position is a leading part of the document. -/
theorem prefix_lead (doc : Text) (p : Position) : p.lead doc <+: doc := by
  obtain ⟨before, last, hlines, hdoc⟩ := lines_spec doc
  have hwhole : (lines doc).flatMap Line.text = doc := by
    rw [hlines, List.flatMap_append, ← hdoc]
    simp [Line.text]
  have := prefix_leadIn p.line.toNat p.character.toNat (lines doc)
  rwa [hwhole] at this

/-! ## Where the walk and the reading part -/

/-- Whether a position is past the end of a line that is not the last one. -/
def Position.overshoots (doc : Text) (p : Position) : Bool :=
  (lines doc)[p.line.toNat]?.any fun line =>
    !line.ending.isEmpty && units line.body < p.character.toNat

/-- How the part `walked` that the walk passes compares with the part `lead` before a
position; `past` tells that the position is past the end of its line. -/
inductive Strays (walked lead : Text) (past : Bool) : Prop
  /-- The two are the same. -/
  | not (same : walked = lead) (inside : past = false)
  /-- The walk passes the glyph that ends the line. -/
  | beyond (r : Glyph) (ends : endsLine r = true) (more : walked = lead ++ [r])
      (outside : past = true)
  /-- The walk stops between the two glyphs that end the line before. -/
  | between (head : Text) (less : walked = head ++ [.char '\r'])
      (more : lead = head ++ [.char '\r', .char '\n']) (inside : past = false)

/-- Line ends are a carriage return, a newline, or the two together. -/
theorem ending_of_mem {doc : Text} {line : Line} (h : line ∈ lines doc) :
    line.ending = [] ∨ (∃ r, endsLine r = true ∧ line.ending = [r]) ∨
      line.ending = [.char '\r', .char '\n'] := by
  fun_induction lines doc generalizing line with
  | case1 =>
      rw [List.mem_singleton] at h
      exact .inl (h ▸ rfl)
  | case2 rest ih =>
      rcases List.mem_cons.mp h with rfl | h
      · exact .inr (.inr rfl)
      · exact ih h
  | case3 r rest _ hends ih =>
      rcases List.mem_cons.mp h with rfl | h
      · exact .inr (.inl ⟨r, hends, rfl⟩)
      · exact ih h
  | case4 r rest _ _ ih =>
      -- the glyph goes into the body of the first line and leaves its ending alone
      cases hlines : lines rest with
      | nil => simp [hlines] at h
      | cons first more =>
          rw [hlines, List.modifyHead_cons] at h
          rw [hlines] at ih
          rcases List.mem_cons.mp h with rfl | h
          · exact @ih first List.mem_cons_self
          · exact ih (List.mem_cons_of_mem _ h)

/-- The walk and the reading compared, line by line. -/
theorem strays_walkedIn (n c : Nat) {ls : List Line}
    (hends : ∀ line ∈ ls, line.ending = [] ∨ (∃ r, endsLine r = true ∧ line.ending = [r]) ∨
      line.ending = [.char '\r', .char '\n']) :
    Strays (walkedIn n c ls) (leadIn n c ls)
      (ls[n]?.any fun line => !line.ending.isEmpty && units line.body < c) := by
  induction ls generalizing n with
  | nil => cases n <;> exact .not rfl rfl
  | cons first rest ih =>
      have hfirst := hends first List.mem_cons_self
      cases n with
      | zero =>
          rw [walkedIn, leadIn]
          by_cases hfits : c ≤ units first.body
          · exact .not (if_pos hfits) (by simp [hfits])
          · rw [if_neg hfits, clip_of_units_le (by omega)]
            rcases hfirst with hending | ⟨r, hr, hending⟩ | hending
            · exact .not (by simp [hending]) (by simp [hending])
            · exact .beyond r hr (by simp [hending]) (by simp [hending]; omega)
            · exact .beyond (.char '\r') rfl (by simp [hending]) (by simp [hending]; omega)
      | succ n =>
          rw [walkedIn, leadIn, List.getElem?_cons_succ]
          have hrest := ih n fun line hline => hends line (List.mem_cons_of_mem _ hline)
          by_cases hstart : n = 0 ∧ c = 0
          · obtain ⟨rfl, rfl⟩ := hstart
            have hinside : (rest[0]?.any fun line =>
                !line.ending.isEmpty && decide (units line.body < 0)) = false := by
              cases rest <;> simp
            have hlead : leadIn 0 0 rest = [] := by
              cases rest with
              | nil => rfl
              | cons line more => cases hbody : line.body <;> simp [leadIn, clip, hbody]
            rw [if_pos ⟨rfl, rfl⟩, walkedIn_start, hlead, List.append_nil, List.append_nil,
              Line.text]
            rcases hfirst with hending | ⟨r, hr, hending⟩ | hending
            · exact .not (by simp [hending]) hinside
            · exact .not (by simp [hending]) hinside
            · exact .between first.body (by simp [hending]) (by simp [hending]) hinside
          · rw [if_neg hstart]
            cases hrest with
            | not same inside => exact .not (by rw [same, Line.text]) inside
            | beyond r hr more outside =>
                exact .beyond r hr (by rw [more, Line.text]; simp) outside
            | between head less more inside =>
                exact .between (first.text ++ head) (by rw [less, Line.text]; simp)
                  (by rw [more]; simp) inside

/-- **The walk to a position compared with the reading of an editor.** -/
theorem strays_walked (doc : Text) (n c : Nat) :
    Strays (walked (.of n c) {} false doc) ((Position.of n c).lead doc)
      ((Position.of n c).overshoots doc) := by
  have hwalked := walked_eq 0 n 0 c doc
  simp only [Nat.zero_add, Nat.sub_zero, ite_self] at hwalked
  have hstart : ({} : Position) = .of 0 0 := rfl
  rw [hstart, hwalked]
  exact strays_walkedIn n c fun line hline => ending_of_mem hline

/-! ## The end of a document -/

/-- The position at the end of a text that starts at the position `q`. -/
def endFrom (q : Position) (afterReturn : Bool) : Text → Position
  | [] => q
  | r :: s => endFrom (q.next afterReturn r) (r == .char '\r') s

/-- A walk to the offset behind a part of the document leads to the end of that part. -/
theorem walk_width (q : Position) (offset : Nat) (afterReturn : Bool) (part rest : Text) :
    (Position.walk (fun i _ => ((offset + width part : Nat) : Int) ≤ i) offset q afterReturn
      (part ++ rest)).2 = endFrom q afterReturn part := by
  induction part generalizing q offset afterReturn with
  | nil =>
      cases rest with
      | nil => rfl
      | cons r s => simp [Position.walk, endFrom]
  | cons r s ih =>
      have hr := width_pos r
      rw [List.cons_append, Position.walk, if_neg (by rw [width_cons]; simp; omega), endFrom, ← ih,
        width_cons, Nat.add_assoc]

/-- The position of the offset behind a part of the document is that of its end. -/
theorem ofOffset_eq (part rest : Text) :
    Position.ofOffset (part ++ rest) part.width = endFrom {} false part := by
  have hwalk := walk_width {} 0 false part rest
  rwa [Nat.zero_add] at hwalk

/-- A carriage return before the text matters only if a newline comes first. -/
theorem endFrom_afterReturn (q : Position) {doc : Text} (h : doc.head? ≠ some (.char '\n')) :
    endFrom q true doc = endFrom q false doc := by
  cases doc with
  | nil => rfl
  | cons r s =>
      have hr : r ≠ .char '\n' := by simpa using h
      simp [endFrom, Position.next, hr]

/-- The end of a text is in its last line, behind all units of it. -/
theorem endFrom_eq (l k : Nat) (doc : Text) :
    ∃ before last, lines doc = before ++ [⟨last, []⟩] ∧
      endFrom (.of l k) false doc =
        .of (l + before.length) ((if before.isEmpty then k else 0) + units last) := by
  fun_induction lines doc generalizing l k with
  | case1 => exact ⟨[], [], rfl, by simp [endFrom, units]⟩
  | case2 rest ih =>
      obtain ⟨before, last, hlines, hend⟩ := ih (l + 1) 0
      refine ⟨_ :: before, last, by rw [hlines]; rfl, ?_⟩
      have hflag : (Glyph.char '\n' == Glyph.char '\r') = false := by decide
      have hpair : (Position.of (l + 1) 0).next true (.char '\n') = .of (l + 1) 0 := by
        simp [Position.next]
      rw [endFrom, next_of_endsLine l k rfl, endFrom, hflag, beq_self_eq_true, hpair, hend]
      simp [Nat.add_comm, Nat.add_left_comm]
  | case3 r rest hpair hends ih =>
      obtain ⟨before, last, hlines, hend⟩ := ih (l + 1) 0
      refine ⟨_ :: before, last, by rw [hlines]; rfl, ?_⟩
      have hflag : endFrom (.of (l + 1) 0) (r == .char '\r') rest =
          endFrom (.of (l + 1) 0) false rest := by
        by_cases hr : r = .char '\r'
        · subst hr
          refine endFrom_afterReturn _ fun hhead => ?_
          obtain ⟨tail, rfl⟩ := List.head?_eq_some_iff.mp hhead
          exact hpair tail rfl rfl
        · rw [beq_false_of_ne hr]
      rw [endFrom, next_of_endsLine l k hends, hflag, hend]
      simp [Nat.add_comm, Nat.add_left_comm]
  | case4 r rest _ hends ih =>
      have hends : endsLine r = false := by simpa using hends
      obtain ⟨before, last, hlines, hend⟩ := ih l (k + r.units)
      rw [endFrom, next_of_inside l k hends, beq_return_of_inside hends, hend]
      cases before with
      | nil => exact ⟨[], r :: last, by rw [hlines]; rfl, by simp [Nat.add_assoc]⟩
      | cons first before =>
          exact ⟨{ first with body := r :: first.body } :: before, last, by rw [hlines]; rfl, rfl⟩

/-- **The position of the end of a document**: the number of its line ends, and the units
of what follows the last of them. -/
theorem ofOffset_width (doc : Text) :
    Position.ofOffset doc doc.width = .of (lineEnds doc) (units (lastLine doc)) := by
  obtain ⟨before, last, hlines, hend⟩ := endFrom_eq 0 0 doc
  obtain ⟨before', hlines', hlength⟩ := lines_eq doc
  obtain ⟨rfl, hlast⟩ := List.append_inj' (hlines.symm.trans hlines') rfl
  obtain rfl : last = lastLine doc := by simpa using hlast
  have hwhole := ofOffset_eq doc []
  rw [List.append_nil] at hwhole
  rw [hwhole, ← hlength]
  simp only [Nat.zero_add, ite_self] at hend
  exact hend

/-- All of a document comes before its end. -/
theorem lead_end (doc : Text) :
    (Position.of (lineEnds doc) (units (lastLine doc))).lead doc = doc := by
  obtain ⟨before, last, hlines, hdoc⟩ := lines_spec doc
  obtain ⟨before', hlines', hlength⟩ := lines_eq doc
  obtain ⟨rfl, hlast⟩ := List.append_inj' (hlines.symm.trans hlines') rfl
  obtain rfl : last = lastLine doc := by simpa using hlast
  have hwhole : ∀ ls : List Line, leadIn ls.length (units (lastLine doc))
      (ls ++ [⟨lastLine doc, []⟩]) = ls.flatMap Line.text ++ lastLine doc := by
    intro ls
    induction ls with
    | nil => exact clip_of_units_le (Nat.le_refl _)
    | cons first rest ih => simpa [leadIn] using ih
  rw [← hlength, Position.lead, hlines]
  exact (hwhole before).trans hdoc

/-- Nothing comes before the start of a document. -/
theorem lead_start (doc : Text) : (Position.of 0 0).lead doc = [] := by
  obtain ⟨before, last, hlines, -⟩ := lines_spec doc
  have hclip : ∀ s, clip 0 s = [] := by
    intro s
    cases s <;> rfl
  rw [Position.lead, hlines]
  cases before <;> exact hclip _

end TemplateFormat.Editor
