import TemplateFormat.Proofs.CacheFile
import TemplateFormat.Proofs.SpreadElements

/-!
# Lookups that were made before

The index of a source is asked how an element was written, whether it was spread over lines,
and whether it stays on one line.  Answers are remembered: that for a look-alike under its name,
a NUL and the start of its content, and that for a spread element under the place where it
starts.  The memo saves work only.  That needs two things: no key stands for two look-alikes,
and an element that is found under its start tag is the only one that starts at its place.

* `nul_notMem_firstName`, `resemblanceKey_inj` — a key determines the name and the start;
* `Recalls` — what is remembered is what would be answered without it;
* `Steady` — a question whose answer does not depend on what is remembered, and which leaves
  the memo true; `Steady.bind` takes two of them together;
* `steady_written`, `steady_wasSpread`, `steady_keepInline` — the three questions;
* `answers_eq` — any number of questions, one after the other.
-/

namespace TemplateFormat.Layout

open Text Markup

/-! ## The key of a look-alike -/

/-- The glyphs of a name are ASCII characters. -/
theorem exists_ascii_of_isNamePart {r : Glyph} (h : Tag.isNamePart r = true) :
    ∃ n < 128, r = .char (Char.ofNat n) := by
  cases r with
  | stray b => simp [Tag.isNamePart, Glyph.isWord] at h
  | char c =>
      refine ⟨c.toNat, ?_, by rw [Char.ofNat_toNat]⟩
      unfold Tag.isNamePart Glyph.isWord Char.isAlphanum Char.isAlpha Char.isUpper Char.isLower
        Char.isDigit at h
      simp only [Bool.or_eq_true, Bool.and_eq_true, decide_eq_true_eq, beq_iff_eq,
        Glyph.char.injEq, UInt32.le_iff_toNat_le, ge_iff_le] at h
      have hcode : c.toNat = c.val.toNat := rfl
      have hupper : 'Z'.val.toNat = 90 := rfl
      have hlower : 'z'.val.toNat = 122 := rfl
      have hdigit : '9'.val.toNat = 57 := rfl
      rcases h with (((h | rfl) | rfl) | rfl) | rfl
      · omega
      all_goals decide

/-- A letter may stand in a name. -/
theorem isNamePart_of_isLetter {r : Glyph} (h : r.isLetter = true) :
    Tag.isNamePart r = true := by
  cases r with
  | stray b => cases h
  | char c =>
      have hletter : c.isAlpha = true := h
      simp [Tag.isNamePart, Glyph.isWord, Char.isAlphanum, hletter]

/-- The lower case of a glyph of a name is no NUL. -/
theorem lower_ne_nul {r : Glyph} (h : Tag.isNamePart r = true) : r.lower ≠ .char '\x00' := by
  have hcodes : ∀ n < 128, Tag.isNamePart (.char (Char.ofNat n)) = true →
      (Glyph.char (Char.ofNat n)).lower ≠ .char '\x00' := by decide +kernel
  obtain ⟨n, hn, rfl⟩ := exists_ascii_of_isNamePart h
  exact hcodes n hn h

/-- **The name of an element holds no NUL**, whatever the text it is read off. -/
theorem nul_notMem_firstName (s : Text) : .char '\x00' ∉ Tag.firstName s := by
  fun_induction Tag.firstName s with
  | case1 => simp
  | case2 r a rest hname =>
      intro hmem
      obtain ⟨x, hx, hlower⟩ := List.mem_map.mp hmem
      rw [Bool.and_eq_true] at hname
      refine lower_ne_nul ?_ hlower
      rcases List.mem_cons.mp hx with rfl | hx
      · exact isNamePart_of_isLetter hname.2
      · exact List.all_eq_true.mp List.all_takeWhile x hx
  | case3 r a rest hname ih => exact ih
  | case4 r => simp

/-- **A key determines the name and the start of the content**: the first NUL ends the name,
also where the content holds others. -/
theorem resemblanceKey_inj {name name' start start' : Text} (hname : .char '\x00' ∉ name)
    (hname' : .char '\x00' ∉ name')
    (h : name ++ .char '\x00' :: start = name' ++ .char '\x00' :: start') :
    name = name' ∧ start = start' := by
  have hsort : ∀ {s : Text}, .char '\x00' ∉ s → ∀ x ∈ s, (x != .char '\x00') = true := by
    intro s hs x hx
    rw [bne_iff_ne]
    intro heq
    exact hs (heq ▸ hx)
  obtain ⟨hfront, hback⟩ :=
    append_inj_of_sort (hsort hname) (hsort hname') (by decide) (by decide) h
  exact ⟨hfront, (List.cons.inj hback).2⟩

/-! ## What is remembered -/

/-- The index of a source. -/
abbrev SourceIndex.ofSource (source : Text) : SourceIndex :=
  SourceIndex.build source (Token.scan source)

/-- **What is remembered is true**: it is what would be answered without it. -/
structure SourceIndex.Memo.Recalls (source : Text) (memo : SourceIndex.Memo) : Prop where
  resembling : ∀ name start w, .char '\x00' ∉ name →
    memo.resembling.lookup (name ++ .char '\x00' :: start) = some w →
      w = (SourceIndex.ofSource source).resembling name start
  spread : memo.Faithful source

/-- Nothing is remembered at first. -/
theorem recalls_empty (source : Text) : SourceIndex.Memo.Recalls source {} where
  resembling := by
    intro name start w _ h
    cases h
  spread := by
    intro e _ b h
    cases h

/-- A question whose answer does not depend on what is remembered, as long as that is true,
and which leaves the memo true. -/
def Steady (source : Text) {α : Type} (ask : SourceIndex.Memo → α × SourceIndex.Memo) : Prop :=
  ∀ memo, memo.Recalls source → (ask memo).1 = (ask {}).1 ∧ (ask memo).2.Recalls source

namespace Steady

variable {source : Text} {α β : Type}

/-- An answer that is known at once. -/
theorem pure (a : α) : Steady source fun memo => (a, memo) :=
  fun _ h => ⟨rfl, h⟩

/-- **A question that is asked with the answer to another.** -/
theorem bind {ask : SourceIndex.Memo → α × SourceIndex.Memo}
    {next : α → SourceIndex.Memo → β × SourceIndex.Memo} (hask : Steady source ask)
    (hnext : ∀ a, Steady source (next a)) :
    Steady source fun memo => next (ask memo).1 (ask memo).2 := by
  intro memo hmemo
  obtain ⟨hanswer, hleft⟩ := hask memo hmemo
  obtain ⟨-, hfresh⟩ := hask {} (recalls_empty source)
  obtain ⟨hanswer', hleft'⟩ := hnext (ask memo).1 (ask memo).2 hleft
  refine ⟨?_, hleft'⟩
  calc (next (ask memo).1 (ask memo).2).1
      = (next (ask {}).1 {}).1 := by rw [hanswer', hanswer]
    _ = (next (ask {}).1 (ask {}).2).1 := (hnext _ _ hfresh).1.symm

/-- A question that is one of two. -/
theorem ite {c : Prop} [Decidable c] {ask other : SourceIndex.Memo → α × SourceIndex.Memo}
    (hask : Steady source ask) (hother : Steady source other) :
    Steady source fun memo => if c then ask memo else other memo := by
  by_cases hc : c
  · simpa only [hc, if_true] using hask
  · simpa only [hc, if_false] using hother

end Steady

/-! ## The three questions -/

section Questions

variable (source : Text)

/-- **How an element was written** does not depend on what is remembered. -/
theorem steady_written (element : Text) :
    Steady source ((SourceIndex.ofSource source).written element) := by
  intro memo hmemo
  unfold SourceIndex.written
  dsimp only
  split
  · exact ⟨rfl, hmemo⟩
  · split
    · exact ⟨rfl, hmemo⟩
    · split
      · exact ⟨rfl, hmemo⟩
      · next content hcontent =>
          split
          · exact ⟨rfl, hmemo⟩
          · have hname := nul_notMem_firstName element.trim
            split
            · next w hw => exact ⟨hmemo.resembling _ _ w hname hw, hmemo⟩
            · refine ⟨rfl, ?_, hmemo.spread⟩
              intro name start w hnul hw
              rw [List.lookup_cons] at hw
              split at hw
              · next hkey =>
                  obtain ⟨rfl, rfl⟩ := resemblanceKey_inj hnul hname (beq_iff_eq.mp hkey)
                  exact (Option.some.inj hw).symm
              · exact hmemo.resembling name start w hnul hw

/-- Whether the first element with a start tag is spread does not depend on what is
remembered. -/
theorem steady_isSpread (tag : Text) :
    Steady source ((SourceIndex.ofSource source).isSpread tag) := by
  intro memo hmemo
  refine ⟨?_, ?_, SourceIndex.faithful_isSpread hmemo.spread tag⟩
  · rw [Bool.eq_iff_iff, SourceIndex.isSpread_iff hmemo.spread,
      SourceIndex.isSpread_iff (recalls_empty source).spread]
  · have hsame : ((SourceIndex.ofSource source).isSpread tag memo).2.resembling =
        memo.resembling := by
      unfold SourceIndex.isSpread
      split
      · rfl
      · split <;> rfl
    rw [hsame]
    exact hmemo.resembling

/-- **Whether an element was spread over lines** does not depend on what is remembered. -/
theorem steady_wasSpread (element : Text) :
    Steady source (wasSpread (SourceIndex.ofSource source) element) := by
  unfold wasSpread
  split
  · exact .pure false
  · exact .ite (.pure false) (steady_isSpread source _)

/-- **Whether an element stays on one line** does not depend on what is remembered. -/
theorem steady_keepInline (o : Options) (line : Text) :
    Steady source (keepInline o (SourceIndex.ofSource source) line) := by
  have hspread : Steady source fun memo =>
      if o.keepMultiline then wasSpread (SourceIndex.ofSource source) line memo
      else (false, memo) :=
    .ite (steady_wasSpread source line) (.pure false)
  have hwritten : Steady source fun memo =>
      if 2 * (line.trim.length : Int) ≤ 3 * o.threshold then
        (SourceIndex.ofSource source).written line.trim memo
      else (.absent, memo) :=
    .ite (steady_written source line.trim) (.pure Written.absent)
  have hweighed : ∀ w : Written, Steady source fun memo =>
      if w = .compact then (true, memo)
      else (2 * (line.trim.length : Int) ≤ o.threshold && !hasComplexAttributes line.trim, memo) :=
    fun w => .ite (.pure true) (.pure _)
  have hasked : ∀ spread : Bool, Steady source fun memo =>
      if spread then (false, memo)
      else if inlineEligible (Tag.firstName line.trim) && !hasNestedTags line.trim &&
          (line.trim.length : Int) ≤ o.threshold then (true, memo)
      else
        let found := if 2 * (line.trim.length : Int) ≤ 3 * o.threshold then
            (SourceIndex.ofSource source).written line.trim memo
          else (.absent, memo)
        if found.1 = .compact then (true, found.2)
        else (2 * (line.trim.length : Int) ≤ o.threshold && !hasComplexAttributes line.trim,
          found.2) :=
    fun spread => .ite (.pure false) (.ite (.pure true) (.bind hwritten hweighed))
  exact .ite (.pure false) (.bind hspread hasked)

end Questions

/-! ## Questions one after the other -/

/-- What the index of a source is asked about a text. -/
inductive Question where
  /-- How the element was written. -/
  | written (element : Text)
  /-- Whether the element was spread over lines around nested tags. -/
  | wasSpread (element : Text)
  /-- Whether the element stays on one line. -/
  | staysInline (element : Text)
deriving DecidableEq, Repr

/-- What is answered. -/
inductive Answer where
  | written (w : Written)
  | truth (b : Bool)
deriving DecidableEq, Repr

namespace Printer

/-- The answer to a question, with the memo afterwards. -/
def answer (p : Printer) (memo : SourceIndex.Memo) : Question → Answer × SourceIndex.Memo
  | .written element =>
    let (w, memo) := p.index.written element memo
    (.written w, memo)
  | .wasSpread element =>
    let (b, memo) := Layout.wasSpread p.index element memo
    (.truth b, memo)
  | .staysInline element =>
    let (b, memo) := keepInline p.options p.index element memo
    (.truth b, memo)

/-- The answers to questions that are asked one after the other. -/
def answers (p : Printer) : SourceIndex.Memo → List Question → List Answer
  | _, [] => []
  | memo, question :: rest =>
    let (a, memo) := p.answer memo question
    a :: answers p memo rest

/-- One question. -/
theorem steady_answer (o : Options) (source : Text) (question : Question) :
    Steady source fun memo => (ofSource o source).answer memo question := by
  cases question with
  | written element => exact .bind (steady_written source element) fun w => .pure _
  | wasSpread element => exact .bind (steady_wasSpread source element) fun b => .pure _
  | staysInline element => exact .bind (steady_keepInline source o element) fun b => .pure _

/-- The answers of a printer that remembers true things are those of a new one. -/
theorem answers_of_recalls (o : Options) {source : Text} {memo : SourceIndex.Memo}
    (h : memo.Recalls source) (questions : List Question) :
    (ofSource o source).answers memo questions =
      questions.map fun question => ((ofSource o source).answer {} question).1 := by
  induction questions generalizing memo with
  | nil => rfl
  | cons question rest ih =>
      obtain ⟨hanswer, hleft⟩ := steady_answer o source question memo h
      rw [answers, List.map_cons, ← hanswer]
      exact congrArg _ (ih hleft)

/-- **Lookups do not influence each other.**  Whatever questions a printer was asked before, about
whatever texts, each answer is that of a new printer for the same source. -/
theorem answers_eq (o : Options) (source : Text) (questions : List Question) :
    (ofSource o source).answers {} questions =
      questions.map fun question => ((ofSource o source).answer {} question).1 :=
  answers_of_recalls o (recalls_empty source) questions

end Printer

end TemplateFormat.Layout
