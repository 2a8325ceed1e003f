import Mathlib.Data.List.Chain
import Mathlib.Data.List.Find
import TemplateFormat.Proofs.Interpolations
import TemplateFormat.Proofs.Quoting

/-!
# The operators of an expression

Operators are set off in one pass that looks at the glyphs around each of them.
Here the pass is taken apart: an expression is first read into **pieces** (glyphs
that are copied, single spaces, operators that are set off), and the pieces are
then written with a count of the spaces that wait to be written.

* `Reads` — the reading as a relation, with one case for each thing the pass can
  meet; `Reads.pieces_eq` ties it to the function `piecesFrom`;
* `spaceFrom_of_reads` — the pass is reading and then writing;
* `reblanked_write` — it changes blanks outside quotes only;
* `Reads.append` — expressions side by side are read one after the other where a
  space divides them.
-/

namespace TemplateFormat.Layout.Interpolation

open Text Markup

/-! ## Compound operators -/

/-- Operators hold no spaces and no quotes. -/
theorem compoundOperators_ink : ∀ op ∈ compoundOperators, op ≠ [] ∧
    ∀ r ∈ op, r.isBlank = false ∧ r.isQuote = false ∧ r ≠ .char '\\' := by
  decide

/-- The first two glyphs of an operator are an operator. -/
theorem take_two_mem : ∀ op ∈ compoundOperators, ∃ a b, op.take 2 = [a, b] ∧
    [a, b] ∈ compoundOperators ∧ b ≠ .char ' ' := by
  have h : ∀ op ∈ compoundOperators, op.take 2 ∈ compoundOperators ∧
      (op.take 2).length = 2 ∧ .char ' ' ∉ op.take 2 := by decide
  intro op hop
  obtain ⟨hmem, hlength, hspace⟩ := h op hop
  obtain ⟨a, b, hab⟩ := List.length_eq_two.mp hlength
  rw [hab] at hmem hspace
  exact ⟨a, b, hab, hmem, fun hb => hspace (by simp [hb])⟩

theorem mem_of_compoundAt? {s op : Text} (h : compoundAt? s = some op) :
    op ∈ compoundOperators ∧ op <+: s :=
  ⟨List.mem_of_find?_eq_some h, List.isPrefixOf_iff_prefix.mp (by simpa using List.find?_some h)⟩

theorem compoundAt?_eq_none {s : Text} :
    compoundAt? s = none ↔ ∀ op ∈ compoundOperators, ¬op <+: s := by
  simp [compoundAt?, List.find?_eq_none]

/-- A space ends every operator, so what follows it does not matter. -/
theorem compoundAt?_append (s : Text) {t : Text} (ht : ∀ r ∈ t.head?, r = .char ' ') :
    compoundAt? (s ++ t) = compoundAt? s := by
  unfold compoundAt?
  refine List.find?_congr fun op hop => ?_
  rw [Bool.eq_iff_iff, List.isPrefixOf_iff_prefix, List.isPrefixOf_iff_prefix]
  constructor
  · refine Lexeme.prefix_of_prefix_append fun r hr hmem => ?_
    have hink := ((compoundOperators_ink op hop).2 r hmem).1
    rw [ht r hr] at hink
    cases hink
  · exact fun h => h.trans (List.prefix_append s t)

/-- Whether an operator starts at a glyph is settled by the next one. -/
theorem compoundAt?_of_head {r : Glyph} {s t : Text} (h : compoundAt? (r :: s) = none)
    (ht : t.head? = s.head? ∨ ∀ a ∈ t.head?, a = .char ' ') : compoundAt? (r :: t) = none := by
  rw [compoundAt?_eq_none] at h ⊢
  intro op hop hlead
  obtain ⟨a, b, htake, hmem, hb⟩ := take_two_mem op hop
  have hpair : [a, b] <+: r :: t := htake ▸ (List.take_prefix 2 op).trans hlead
  obtain ⟨rfl, htail⟩ := List.cons_prefix_cons.mp hpair
  have hhead : t.head? = some b := by
    obtain ⟨u, rfl⟩ := htail
    rfl
  rcases ht with ht | ht
  · rw [hhead] at ht
    obtain ⟨c, u, rfl⟩ : ∃ c u, s = c :: u := by
      cases s with
      | nil => cases ht
      | cons c u => exact ⟨c, u, rfl⟩
    obtain rfl : b = c := by simpa using ht
    exact h _ hmem ⟨u, rfl⟩
  · exact hb (ht b hhead)

/-- An operator before a space or the end is found whole. -/
theorem compoundAt?_self {op t : Text} (hop : op ∈ compoundOperators)
    (ht : ∀ r ∈ t.head?, r = .char ' ') : compoundAt? (op ++ t) = some op := by
  have hself : ∀ op ∈ compoundOperators, compoundAt? op = some op := by decide
  rw [compoundAt?_append op ht, hself op hop]

/-! ## The pieces of an expression -/

/-- A part of an expression, as its operators are set off. -/
inductive Piece where
  /-- A glyph that is copied: of an operand or a quoted part, or an operator with a space
  beside it. -/
  | copied (r : Glyph)
  /-- A space outside quotes. -/
  | gap
  /-- An operator of one glyph between two operands. -/
  | single (r : Glyph)
  /-- An operator of several glyphs, with the spaces behind it. -/
  | compound (op : Text)
deriving DecidableEq, Repr

namespace Piece

/-- Whether the piece is an operator that is set off. -/
def isOperator : Piece → Bool
  | copied _ | gap => false
  | single _ | compound _ => true

/-- Whether the piece is an operator of one glyph that is set off. -/
def isSingle : Piece → Bool
  | single _ => true
  | copied _ | gap | compound _ => false

@[simp] theorem isOperator_copied (r : Glyph) : (copied r).isOperator = false := rfl
@[simp] theorem isOperator_gap : gap.isOperator = false := rfl
@[simp] theorem isOperator_single (r : Glyph) : (single r).isOperator = true := rfl
@[simp] theorem isOperator_compound (op : Text) : (compound op).isOperator = true := rfl
@[simp] theorem isSingle_copied (r : Glyph) : (copied r).isSingle = false := rfl
@[simp] theorem isSingle_gap : gap.isSingle = false := rfl
@[simp] theorem isSingle_single (r : Glyph) : (single r).isSingle = true := rfl
@[simp] theorem isSingle_compound (op : Text) : (compound op).isSingle = false := rfl

end Piece

/-- The pieces of a text.  `skip` glyphs, and then any spaces if `closeUp` is set, belong to an
operator already read; `prev` is the glyph before the text. -/
def piecesFrom : (skip : Nat) → (closeUp : Bool) → (prev : Option Glyph) → Quote → Text →
    List Piece
  | _, _, _, _, [] => []
  | skip + 1, closeUp, _, q, r :: s => piecesFrom skip closeUp (some r) q s
  | 0, closeUp, prev, q, r :: s =>
    if closeUp && r = .char ' ' then piecesFrom 0 true (some r) q s
    else if !(q.next prev r).isOutside || r.isQuote then
      .copied r :: piecesFrom 0 false (some r) (q.next prev r) s
    else
      match compoundAt? (r :: s) with
      | some op => .compound op :: piecesFrom (op.length - 1) true (some r) q s
      | none =>
        if isSingleOperator r && prev.any (· != .char ' ') && s.head?.any (· != .char ' ') then
          .single r :: piecesFrom 0 false (some r) q s
        else if r = .char ' ' then .gap :: piecesFrom 0 false (some r) q s
        else .copied r :: piecesFrom 0 false (some r) q s

/-- The pieces of an expression. -/
def pieces (expr : Text) : List Piece := piecesFrom 0 false none .outside expr

/-- The operators of one glyph that are set off stand behind no other operator. -/
def Roomy (ps : List Piece) : Prop :=
  ps.IsChain fun a b => a.isOperator = true → b.isSingle = false

@[simp] theorem roomy_nil : Roomy [] := List.isChain_nil

@[simp] theorem roomy_cons (p : Piece) (ps : List Piece) :
    Roomy (p :: ps) ↔
      (p.isOperator = true → ∀ p' ∈ ps.head?, p'.isSingle = false) ∧ Roomy ps := by
  rw [Roomy, Roomy, List.isChain_cons]
  exact and_congr_left fun _ => ⟨fun h hp p' hmem => h p' hmem hp, fun h p' hmem hp => h hp p' hmem⟩

/-- **How an expression is read**: everything that can stand at the front of the rest.
`closeUp` tells that spaces still belong to the operator before. -/
inductive Reads : (closeUp : Bool) → (prev : Option Glyph) → Quote → Text → List Piece → Prop
  | nil {closeUp : Bool} {prev : Option Glyph} {q : Quote} : Reads closeUp prev q [] []
  | passed {prev : Option Glyph} {s : Text} {ps : List Piece}
      (tail : Reads true (some (.char ' ')) .outside s ps) :
      Reads true prev .outside (.char ' ' :: s) ps
  | quoted {closeUp : Bool} {prev : Option Glyph} {q : Quote} {r : Glyph} {s : Text}
      {ps : List Piece} (hspace : closeUp = true → r ≠ .char ' ')
      (hr : q.next prev r ≠ .outside ∨ r.isQuote = true)
      (tail : Reads false (some r) (q.next prev r) s ps) :
      Reads closeUp prev q (r :: s) (.copied r :: ps)
  | gap {prev : Option Glyph} {s : Text} {ps : List Piece}
      (tail : Reads false (some (.char ' ')) .outside s ps) :
      Reads false prev .outside (.char ' ' :: s) (.gap :: ps)
  | plain {closeUp : Bool} {prev : Option Glyph} {r : Glyph} {s : Text} {ps : List Piece}
      (hquote : r.isQuote = false) (hspace : r ≠ .char ' ')
      (hcompound : compoundAt? (r :: s) = none)
      (hloose : isSingleOperator r = true →
        (∀ a ∈ prev, a = .char ' ') ∨ ∀ a ∈ s.head?, a = .char ' ')
      (tail : Reads false (some r) .outside s ps) :
      Reads closeUp prev .outside (r :: s) (.copied r :: ps)
  | single {closeUp : Bool} {prev : Option Glyph} {r : Glyph} {s : Text} {ps : List Piece}
      (hr : isSingleOperator r = true) (hcompound : compoundAt? (r :: s) = none)
      (hprev : ∃ a ∈ prev, a ≠ .char ' ') (hnext : ∃ a ∈ s.head?, a ≠ .char ' ')
      (tail : Reads false (some r) .outside s ps) :
      Reads closeUp prev .outside (r :: s) (.single r :: ps)
  | compound {closeUp : Bool} {prev : Option Glyph} {op s : Text} {ps : List Piece}
      (hop : compoundAt? (op ++ s) = some op)
      (tail : Reads true op.getLast? .outside s ps) :
      Reads closeUp prev .outside (op ++ s) (.compound op :: ps)

/-- An operator of one glyph is no quote, no space and no backslash. -/
theorem ink_of_isSingleOperator {r : Glyph} (h : isSingleOperator r = true) :
    r.isBlank = false ∧ r.isQuote = false ∧ r ≠ .char ' ' ∧ r ≠ .char '\\' := by
  simp only [isSingleOperator, Bool.or_eq_true, decide_eq_true_eq] at h
  rcases h with ((((rfl | rfl) | rfl) | rfl) | rfl) | rfl <;> decide

/-- Glyphs that belong to an operator already read are skipped. -/
theorem piecesFrom_skip (body rest : Text) (closeUp : Bool) (prev : Option Glyph) (q : Quote) :
    piecesFrom body.length closeUp prev q (body ++ rest) =
      piecesFrom 0 closeUp (body.getLast?.or prev) q rest := by
  induction body generalizing prev with
  | nil => rfl
  | cons r body ih =>
      rw [List.length_cons, List.cons_append, piecesFrom, ih, getLast?_cons_or]

/-- Each case of the reading is a case of the function. -/
theorem Reads.pieces_eq {closeUp : Bool} {prev : Option Glyph} {q : Quote} {s : Text}
    {ps : List Piece} (h : Reads closeUp prev q s ps) :
    piecesFrom 0 closeUp prev q s = ps := by
  induction h with
  | nil => rfl
  | passed tail ih => rw [piecesFrom, if_pos (by simp), ih]
  | @quoted closeUp prev q r s ps hspace hr tail ih =>
      have hclose : (closeUp && decide (r = .char ' ')) = false := by
        cases closeUp with
        | false => rfl
        | true => simp [hspace rfl]
      rw [piecesFrom, if_neg (by simp [hclose]), if_pos (by simpa [Quote.isOutside] using hr), ih]
  | @gap prev s ps tail ih =>
      have hnone : compoundAt? (.char ' ' :: s) = none := by
        rw [compoundAt?_eq_none]
        intro op hop hlead
        obtain ⟨hne, hink⟩ := compoundOperators_ink op hop
        obtain ⟨a, rest, rfl⟩ := List.exists_cons_of_ne_nil hne
        have hblank := (hink a List.mem_cons_self).1
        rw [(List.cons_prefix_cons.mp hlead).1] at hblank
        cases hblank
      have hquote : Quote.next .outside prev (.char ' ') = .outside :=
        Quote.next_of_isQuote rfl _ _
      rw [piecesFrom, if_neg (by simp), hquote, if_neg (by decide), hnone]
      simp [isSingleOperator, ih]
  | @plain closeUp prev r s ps hquote hspace hcompound hloose tail ih =>
      have hsingle : (isSingleOperator r && prev.any (· != .char ' ') &&
          s.head?.any (· != .char ' ')) = false := by
        cases hr : isSingleOperator r with
        | false => rfl
        | true =>
            rcases hloose hr with hprev | hnext
            · cases prev with
              | none => rfl
              | some a => simp [hprev a rfl]
            · cases hs : s.head? with
              | none => simp
              | some a => simp [hnext a hs]
      rw [piecesFrom, if_neg (by simp [hspace]), Quote.next_of_isQuote hquote,
        if_neg (by simp [Quote.isOutside, hquote]), hcompound]
      simp [hsingle, hspace, ih]
  | @single closeUp prev r s ps hr hcompound hprev hnext tail ih =>
      obtain ⟨-, hquote, hspace, -⟩ := ink_of_isSingleOperator hr
      obtain ⟨a, rfl, ha⟩ := hprev
      obtain ⟨b, hb, hnext⟩ := hnext
      rw [piecesFrom, if_neg (by simp [hspace]), Quote.next_of_isQuote hquote,
        if_neg (by simp [Quote.isOutside, hquote]), hcompound]
      have hb : s.head? = some b := hb
      simp [hr, ha, hb, hnext, ih]
  | @compound closeUp prev op s ps hop tail ih =>
      obtain ⟨hne, hink⟩ := compoundOperators_ink op (mem_of_compoundAt? hop).1
      obtain ⟨r, body, rfl⟩ := List.exists_cons_of_ne_nil hne
      obtain ⟨hblank, hquote, -⟩ := hink r List.mem_cons_self
      have hspace : r ≠ .char ' ' := by
        rintro rfl
        cases hblank
      rw [List.cons_append] at hop ⊢
      rw [piecesFrom, if_neg (by simp [hspace]), Quote.next_of_isQuote hquote,
        if_neg (by simp [Quote.isOutside, hquote]), hop]
      have hskip := piecesFrom_skip body s true (some r) .outside
      rw [← getLast?_cons_or r body none, Option.or_none] at hskip
      have hlength : (r :: body).length - 1 = body.length := rfl
      simp only [hlength, hskip, ih]

/-- **Every expression is read.** -/
theorem reads_piecesFrom (s : Text) {closeUp : Bool} (prev : Option Glyph) {q : Quote}
    (hclose : closeUp = true → q = .outside) :
    Reads closeUp prev q s (piecesFrom 0 closeUp prev q s) := by
  suffices h : ∃ ps, Reads closeUp prev q s ps by
    obtain ⟨ps, hps⟩ := h
    rw [hps.pieces_eq]
    exact hps
  induction hn : s.length using Nat.strongRecOn generalizing s closeUp prev q with
  | ind n ih =>
      cases s with
      | nil => exact ⟨[], .nil⟩
      | cons r s =>
          have hlater : ∀ (closeUp : Bool) (prev : Option Glyph) (q : Quote),
              (closeUp = true → q = .outside) → ∃ ps, Reads closeUp prev q s ps := by
            intro closeUp prev q hclose
            exact ih s.length (by simp at hn; omega) s prev hclose rfl
          by_cases hpassed : closeUp = true ∧ r = .char ' '
          · obtain ⟨rfl, rfl⟩ := hpassed
            obtain rfl := hclose rfl
            obtain ⟨ps, hps⟩ := hlater true (some (.char ' ')) .outside (fun _ => rfl)
            exact ⟨ps, .passed hps⟩
          have hspace : closeUp = true → r ≠ .char ' ' := fun hc hr => hpassed ⟨hc, hr⟩
          by_cases hquoted : q.next prev r ≠ .outside ∨ r.isQuote = true
          · obtain ⟨ps, hps⟩ := hlater false (some r) (q.next prev r) (by simp)
            exact ⟨_, .quoted hspace hquoted hps⟩
          -- a glyph that is no quote is read outside quotes
          obtain ⟨hnext, hquote⟩ : q.next prev r = .outside ∧ r.isQuote = false := by
            simpa using hquoted
          rw [Quote.next_of_isQuote hquote] at hnext
          subst hnext
          cases hcompound : compoundAt? (r :: s) with
          | some op =>
              obtain ⟨body, rest, rfl, rfl⟩ := compoundAt?_eq_some hcompound
              have hrest : ∃ ps, Reads true (r :: body).getLast? .outside rest ps :=
                ih rest.length (by simp at hn; omega) rest _ (fun _ => rfl) rfl
              obtain ⟨ps, hps⟩ := hrest
              have hreads : Reads closeUp prev .outside ((r :: body) ++ rest)
                (.compound (r :: body) :: ps) := .compound hcompound hps
              exact ⟨_, hreads⟩
          | none =>
              obtain ⟨ps, hps⟩ := hlater false (some r) .outside (by simp)
              by_cases hgap : r = .char ' '
              · obtain rfl : closeUp = false := by simpa using mt hspace (by simp [hgap])
                subst hgap
                exact ⟨_, .gap hps⟩
              · by_cases hsingle : isSingleOperator r = true ∧ (∃ a ∈ prev, a ≠ .char ' ') ∧
                    ∃ a ∈ s.head?, a ≠ .char ' '
                · obtain ⟨hr, hprev, hnext⟩ := hsingle
                  exact ⟨_, .single hr hcompound hprev hnext hps⟩
                · refine ⟨_, .plain hquote hgap hcompound (fun hr => ?_) hps⟩
                  by_contra hnot
                  rw [not_or] at hnot
                  exact hsingle ⟨hr, by simpa using hnot.1, by simpa using hnot.2⟩

/-- What stands before a text matters to its first glyph only, and there only as a backslash or
as a glyph that is no space. -/
theorem Reads.prev_congr {closeUp : Bool} {prev prev' : Option Glyph} {q : Quote} {s : Text}
    {ps : List Piece} (h : Reads closeUp prev q s ps) (hescapes : Escapes prev ↔ Escapes prev')
    (hspace : (∃ a ∈ prev, a ≠ .char ' ') ↔ ∃ a ∈ prev', a ≠ .char ' ') :
    Reads closeUp prev' q s ps := by
  cases h with
  | nil => exact .nil
  | passed tail => exact .passed tail
  | quoted hclose hr tail =>
      rw [Quote.next_congr hescapes] at hr tail
      exact .quoted hclose hr tail
  | gap tail => exact .gap tail
  | plain hquote hr hcompound hloose tail =>
      refine .plain hquote hr hcompound (fun hop => (hloose hop).imp_left fun hprev => ?_) tail
      by_contra hnot
      obtain ⟨a, ha, hne⟩ := hspace.mpr (by simpa using hnot)
      exact hne (hprev a ha)
  | single hr hcompound hprev hnext tail =>
      exact .single hr hcompound (hspace.mp hprev) hnext tail
  | compound hop tail => exact .compound hop tail

/-! ## Writing the pieces -/

/-- The pieces as they are written behind `n` spaces that wait for a glyph; spaces at the end are
left out.  A compound operator takes the place of the waiting spaces; an operator of one glyph
does so only if `keep` is not set. -/
def write (keep : Bool) (n : Nat) : List Piece → Text
  | [] => []
  | .copied r :: ps => List.replicate n (.char ' ') ++ r :: write keep 0 ps
  | .gap :: ps => write keep (n + 1) ps
  | .single r :: ps =>
    List.replicate (if keep then n else 0) (.char ' ') ++ .char ' ' :: r :: write keep 1 ps
  | .compound op :: ps => .char ' ' :: op ++ write keep 1 ps

/-- The spaces that still wait behind the pieces. -/
def waiting (n : Nat) : List Piece → Nat
  | [] => n
  | .copied _ :: ps => waiting 0 ps
  | .gap :: ps => waiting (n + 1) ps
  | .single _ :: ps | .compound _ :: ps => waiting 1 ps

/-- Pieces are written one after the other. -/
theorem write_append (keep : Bool) (n : Nat) (ps ps' : List Piece) :
    write keep n (ps ++ ps') = write keep n ps ++ write keep (waiting n ps) ps' := by
  induction ps generalizing n with
  | nil => rfl
  | cons p ps ih => cases p <;> simp [write, waiting, ih]

theorem waiting_append (n : Nat) (ps ps' : List Piece) :
    waiting n (ps ++ ps') = waiting (waiting n ps) ps' := by
  induction ps generalizing n with
  | nil => rfl
  | cons p ps ih => cases p <;> simp [waiting, ih]

/-- A glyph that is neither a quote nor inside quotes. -/
theorem outside_of_not_quoted {q : Quote} {prev : Option Glyph} {r : Glyph}
    (h : ¬(!(q.next prev r).isOutside || r = .char '\x27' || r = .char '\x22') = true) :
    r.isQuote = false ∧ q = .outside := by
  rw [Bool.or_assoc] at h
  obtain ⟨hout, hquote⟩ : (!(q.next prev r).isOutside) = false ∧ r.isQuote = false := by
    simpa only [Glyph.isQuote, Bool.not_eq_true, Bool.or_eq_false_iff] using h
  rw [Quote.next_of_isQuote hquote] at hout
  exact ⟨hquote, by simpa [Quote.isOutside] using hout⟩

/-- **Setting off operators is reading and writing.**  What was written before is `base` and `n`
spaces behind it. -/
theorem spaceFrom_eq (skip : Nat) (closeUp : Bool) (prev : Option Glyph) (q : Quote) (n : Nat)
    (base s : Text) (hbase : q = .outside → base.head? ≠ some (.char ' ')) :
    spaceFrom skip closeUp prev q (List.replicate n (.char ' ') ++ base) s =
      base.reverse ++ write true n (piecesFrom skip closeUp prev q s) ++
        List.replicate (waiting n (piecesFrom skip closeUp prev q s)) (.char ' ') := by
  generalize hseen : List.replicate n (.char ' ') ++ base = seen
  have hrev : seen.reverse = base.reverse ++ List.replicate n (.char ' ') := by
    rw [← hseen, List.reverse_append, List.reverse_replicate]
  fun_induction spaceFrom skip closeUp prev q seen s generalizing n base with
  | case1 => simp [piecesFrom, write, waiting, hrev]
  | case2 skip closeUp prev q seen r s ih =>
      rw [piecesFrom]
      exact ih n base hbase hseen hrev
  | case3 closeUp prev q seen r s h ih =>
      rw [piecesFrom, if_pos h]
      exact ih n base hbase hseen hrev
  | case4 closeUp prev q seen r s h q' hq ih =>
      have hquoted : (!(q.next prev r).isOutside || r.isQuote) = true := by
        simpa [Glyph.isQuote, or_assoc] using hq
      rw [piecesFrom, if_neg h, if_pos hquoted, ih 0 (r :: seen) ?_ rfl (by simp)]
      · simp [write, waiting, hrev, q']
      · intro hout hhead
        obtain rfl : r = .char ' ' := by simpa using hhead
        rw [hout] at hq
        exact absurd hq (by decide)
  | case5 closeUp prev q seen r s h q' hq op hop ih =>
      obtain ⟨hquote, rfl⟩ := outside_of_not_quoted hq
      have hnext : q' = .outside := Quote.next_of_isQuote hquote _ _
      obtain ⟨hne, hink⟩ := compoundOperators_ink op (mem_of_compoundAt? hop).1
      have hdrop : seen.dropWhile (· == .char ' ') = base := by
        have hspaces : ∀ a ∈ List.replicate n (Glyph.char ' '), (a == .char ' ') = true := by simp
        rw [← hseen, List.dropWhile_append_of_pos hspaces]
        cases base with
        | nil => rfl
        | cons a base => exact List.dropWhile_cons_of_neg (by simpa using hbase rfl)
      rw [piecesFrom, if_neg h, Quote.next_of_isQuote hquote,
        if_neg (by simp [Quote.isOutside, hquote])]
      simp only [hop]
      rw [hnext] at ih ⊢
      rw [ih 1 (op.reverse ++ .char ' ' :: base) ?_ (by simp [hdrop]) (by simp [hdrop])]
      · simp [write, waiting]
      · intro _ hhead
        rw [List.head?_append_of_ne_nil _ (by simpa using hne), List.head?_reverse] at hhead
        have hblank := (hink _ (List.mem_of_getLast? hhead)).1
        exact absurd hblank (by decide)
  | case6 closeUp prev q seen r s h q' hq hop hsingle ih =>
      obtain ⟨hquote, rfl⟩ := outside_of_not_quoted hq
      have hnext : q' = .outside := Quote.next_of_isQuote hquote _ _
      have hspace : r ≠ .char ' ' := by
        rw [Bool.and_assoc] at hsingle
        exact (ink_of_isSingleOperator (Bool.and_eq_true_iff.mp hsingle).1).2.2.1
      rw [piecesFrom, if_neg h, Quote.next_of_isQuote hquote,
        if_neg (by simp [Quote.isOutside, hquote])]
      simp only [hop]
      rw [if_pos hsingle]
      rw [hnext] at ih ⊢
      rw [ih 1 (r :: .char ' ' :: seen) (by simp [hspace]) rfl (by simp)]
      simp [write, waiting, hrev]
  | case7 closeUp prev q seen r s h q' hq hop hsingle ih =>
      obtain ⟨hquote, rfl⟩ := outside_of_not_quoted hq
      have hnext : q' = .outside := Quote.next_of_isQuote hquote _ _
      rw [piecesFrom, if_neg h, Quote.next_of_isQuote hquote,
        if_neg (by simp [Quote.isOutside, hquote])]
      simp only [hop]
      rw [if_neg hsingle]
      rw [hnext] at ih ⊢
      by_cases hspace : r = .char ' '
      · subst hspace
        rw [if_pos rfl, ih (n + 1) base hbase (by rw [← hseen]; rfl)
          (by simp [hrev, List.replicate_succ'])]
        simp [write, waiting]
      · rw [if_neg hspace, ih 0 (r :: seen) (by simp [hspace]) rfl (by simp)]
        simp [write, waiting, hrev]

/-- The expression with its operators set off. -/
theorem spaceOperators_eq (expr : Text) :
    spaceOperators expr = write true 0 (pieces expr) ++
      List.replicate (waiting 0 (pieces expr)) (.char ' ') := by
  rw [spaceOperators]
  exact spaceFrom_eq 0 false none .outside 0 [] expr (by simp)

/-- Spaces that wait behind a glyph that is no backslash hide it from what follows. -/
theorem escapes_replicate {n : Nat} {prev : Option Glyph} (prev' : Option Glyph)
    (hn : 0 < n → ¬Escapes prev) (hzero : n = 0 → (Escapes prev ↔ Escapes prev')) :
    Escapes prev ↔ Escapes ((List.replicate n (.char ' ')).getLast?.or prev') := by
  cases n with
  | zero => exact hzero rfl
  | succ n =>
      have hspace : ¬Escapes (some (.char ' ')) := not_escapes_of_isBlank rfl
      rw [List.replicate_succ', List.getLast?_concat]
      exact iff_of_false (hn n.succ_pos) hspace

/-- **Setting off operators changes blanks outside quotes only.**  Spaces wait only outside quotes,
and not behind a backslash. -/
theorem Reads.reblanked_write {closeUp : Bool} {prev prev' : Option Glyph} {q : Quote} {n : Nat}
    {s : Text} {ps : List Piece} (h : Reads closeUp prev q s ps)
    (hn : 0 < n → q = .outside ∧ ¬Escapes prev) (hzero : n = 0 → (Escapes prev ↔ Escapes prev'))
    (hclose : closeUp = true → 0 < n) :
    Reblanked prev prev' q s (write true n ps ++ List.replicate (waiting n ps) (.char ' ')) := by
  induction h generalizing prev' n with
  | @nil closeUp prev q =>
      cases n with
      | zero => exact .nil
      | succ n =>
          obtain ⟨rfl, -⟩ := hn n.succ_pos
          exact .addBlanks isBlank_of_mem_spaces _ _
  | passed tail ih =>
      exact .drop rfl (ih (fun _ => ⟨rfl, not_escapes_of_isBlank rfl⟩)
        (fun h => absurd (hclose rfl) (by omega)) (fun _ => hclose rfl))
  | @quoted closeUp prev q r s ps hspace hr tail ih =>
      have hrest : Reblanked (some r) (some r) (q.next prev r) s
          (write true 0 ps ++ List.replicate (waiting 0 ps) (.char ' ')) :=
        ih (by simp) (fun _ => Iff.rfl) (by simp)
      have hescapes := escapes_replicate prev' (fun h => (hn h).2) hzero
      cases n with
      | zero => exact .copy (fun _ => hescapes) hrest
      | succ n =>
          obtain ⟨rfl, -⟩ := hn n.succ_pos
          simp only [write, waiting, List.append_assoc]
          refine (Reblanked.addBlanks isBlank_of_mem_spaces prev prev').append (s := []) ?_
          exact .copy (fun _ => hescapes) hrest
  | gap tail ih =>
      exact .drop rfl (ih (fun _ => ⟨rfl, not_escapes_of_isBlank rfl⟩) (by simp) (by simp))
  | @plain closeUp prev r s ps hquote hspace hcompound hloose tail ih =>
      have hrest : Reblanked (some r) (some r) .outside s
          (write true 0 ps ++ List.replicate (waiting 0 ps) (.char ' ')) :=
        ih (by simp) (fun _ => Iff.rfl) (by simp)
      simp only [write, waiting, List.append_assoc]
      refine (Reblanked.addBlanks isBlank_of_mem_spaces prev prev').append (s := []) ?_
      refine .copy (by simp [hquote]) ?_
      rwa [Quote.after, Quote.next_of_isQuote hquote]
  | @single closeUp prev r s ps hr hcompound hprev hnext tail ih =>
      obtain ⟨-, hquote, -, hslash⟩ := ink_of_isSingleOperator hr
      have hescapes : ¬Escapes (some r) := by simpa [Escapes] using hslash
      have hrest : Reblanked (some r) (some r) .outside s
          (write true 1 ps ++ List.replicate (waiting 1 ps) (.char ' ')) :=
        ih (fun _ => ⟨rfl, hescapes⟩) (by simp) (by simp)
      simp only [write, waiting, List.append_assoc]
      refine (Reblanked.addBlanks isBlank_of_mem_spaces prev prev').append (s := []) ?_
      refine .add rfl (.copy (by simp [hquote]) ?_)
      rwa [Quote.next_of_isQuote hquote]
  | @compound closeUp prev op s ps hop tail ih =>
      obtain ⟨hne, hink⟩ := compoundOperators_ink op (mem_of_compoundAt? hop).1
      have hlast : ∃ a ∈ op, op.getLast? = some a :=
        ⟨op.getLast hne, List.getLast_mem hne, List.getLast?_eq_some_getLast hne⟩
      obtain ⟨a, ha, hlast⟩ := hlast
      have hescapes : ¬Escapes op.getLast? := by
        rw [hlast]
        simpa [Escapes] using (hink a ha).2.2
      have hrest : Reblanked op.getLast? op.getLast? .outside s
          (write true 1 ps ++ List.replicate (waiting 1 ps) (.char ' ')) :=
        ih (fun _ => ⟨rfl, hescapes⟩) (by simp) (by simp)
      simp only [write, waiting, List.cons_append, List.append_assoc]
      refine .add rfl ?_
      refine (Reblanked.refl _ op fun r hr hquote => ?_).append ?_
      · rw [(hink r (List.mem_of_mem_head? hr)).2.1] at hquote
        cases hquote
      · rw [hlast] at hrest ⊢
        rwa [Quote.after_of_isQuote fun r hr => (hink r hr).2.1]

/-! ## Expressions side by side -/

/-- Whether spaces behind the pieces belong to the operator before them. -/
def closing (closeUp : Bool) : List Piece → Bool
  | [] => closeUp
  | .compound _ :: ps => closing true ps
  | .copied _ :: ps | .gap :: ps | .single _ :: ps => closing false ps

/-- **Where a space divides an expression**, its parts are read one after the other. -/
theorem Reads.append {closeUp : Bool} {prev : Option Glyph} {q : Quote} {s t : Text}
    {ps ps' : List Piece} (h : Reads closeUp prev q s ps) (ht : ∀ r ∈ t.head?, r = .char ' ')
    (hnext : Reads (closing closeUp ps) (s.getLast?.or prev) (q.after prev s) t ps') :
    Reads closeUp prev q (s ++ t) (ps ++ ps') := by
  induction h with
  | nil => exact hnext
  | passed tail ih =>
      rw [getLast?_cons_or, Quote.after, Quote.next_of_isQuote rfl] at hnext
      exact .passed (ih hnext)
  | quoted hspace hr tail ih =>
      rw [getLast?_cons_or, Quote.after] at hnext
      exact .quoted hspace hr (ih hnext)
  | gap tail ih =>
      rw [getLast?_cons_or, Quote.after, Quote.next_of_isQuote rfl] at hnext
      exact .gap (ih hnext)
  | @plain closeUp prev r s ps hquote hspace hcompound hloose tail ih =>
      rw [getLast?_cons_or, Quote.after, Quote.next_of_isQuote hquote] at hnext
      refine .plain hquote hspace ?_ (fun hr => (hloose hr).imp_right fun hs => ?_) (ih hnext)
      · exact (compoundAt?_append (r :: s) ht).trans hcompound
      · cases s with
        | nil => exact ht
        | cons a s => exact hs
  | @single closeUp prev r s ps hr hcompound hprev hs tail ih =>
      have hquote := (ink_of_isSingleOperator hr).2.1
      rw [getLast?_cons_or, Quote.after, Quote.next_of_isQuote hquote] at hnext
      refine .single hr ?_ hprev ?_ (ih hnext)
      · exact (compoundAt?_append (r :: s) ht).trans hcompound
      · obtain ⟨a, ha, hne⟩ := hs
        exact ⟨a, List.mem_head?_append_of_mem_head? ha, hne⟩
  | @compound closeUp prev op s ps hop tail ih =>
      obtain ⟨hne, hink⟩ := compoundOperators_ink op (mem_of_compoundAt? hop).1
      rw [Quote.after_append, Quote.after_of_isQuote fun r hr => (hink r hr).2.1,
        List.getLast?_append, Option.or_assoc] at hnext
      obtain ⟨last, hlast⟩ : ∃ a, op.getLast? = some a := ⟨_, List.getLast?_eq_some_getLast hne⟩
      rw [hlast, Option.some_or, ← hlast] at hnext
      rw [List.append_assoc]
      refine .compound ?_ (ih hnext)
      rw [← List.append_assoc, compoundAt?_append _ ht, hop]

end TemplateFormat.Layout.Interpolation
