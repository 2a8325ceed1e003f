import TemplateFormat.Proofs.Spacing

/-!
# The segments of a pipe

An expression is divided at the pipe characters that stand alone, inside quotes
as well as outside.  The passes that squeeze spaces and set off operators know
nothing of segments, and see quotes where the division sees none.  Still both
work segment by segment, if each segment is taken with the state of quotes before
it: `threaded`.

* `Paired` — a text without a pipe character that stands alone; squeezing,
  trimming and setting off operators keep it so;
* `Segmented` — the division of a text as a relation;
* `segments_squeeze` — squeezing an expression squeezes its segments;
* `reads_join` — the operators of joined segments are those of the segments;
* `segments_join` — joined segments are divided again where they were joined.
-/

namespace TemplateFormat.Layout.Interpolation

open Text Markup

/-! ## Pipe characters in pairs -/

/-- A scan for a pipe character that stands alone. -/
inductive Pipes where
  /-- Every pipe character stands in a pair. -/
  | even
  /-- The last glyph is a pipe character that needs another. -/
  | half
  /-- A pipe character stands alone. -/
  | lone
deriving DecidableEq, Repr

/-- The scan after one more glyph. -/
def Pipes.next : Pipes → Glyph → Pipes
  | .even, r => if r = .char '|' then .half else .even
  | .half, r => if r = .char '|' then .even else .lone
  | .lone, _ => .lone

/-- The scan after a text. -/
def Pipes.run (p : Pipes) (s : Text) : Pipes := s.foldl Pipes.next p

/-- All pipe characters of the text stand in pairs. -/
def Paired (s : Text) : Prop := Pipes.run .even s = .even

namespace Pipes

@[simp] theorem run_nil (p : Pipes) : p.run [] = p := rfl

@[simp] theorem run_cons (p : Pipes) (r : Glyph) (s : Text) : p.run (r :: s) = (p.next r).run s :=
  rfl

@[simp] theorem run_append (p : Pipes) (s t : Text) : p.run (s ++ t) = (p.run s).run t :=
  List.foldl_append

/-- Nothing brings a lone pipe character a partner. -/
@[simp] theorem run_lone (s : Text) : Pipes.run .lone s = .lone := by
  induction s with
  | nil => rfl
  | cons r s ih => exact ih

/-- A glyph that is no pipe character. -/
theorem next_of_ne {r : Glyph} (hr : r ≠ .char '|') (p : Pipes) :
    p.next r = if p = .even then .even else .lone := by
  cases p <;> simp [next, hr]

/-- A text without pipe characters leaves no pair open. -/
theorem run_of_ne {s : Text} (hs : ∀ r ∈ s, r ≠ .char '|') : Pipes.run .even s = .even := by
  induction s with
  | nil => rfl
  | cons r s ih =>
      rw [run_cons, next_of_ne (hs r List.mem_cons_self), if_pos rfl]
      exact ih fun a ha => hs a (List.mem_cons_of_mem r ha)

/-- Where a scan goes on with no pipe character and ends well, no pair was open. -/
theorem even_of_run_cons {p : Pipes} {r : Glyph} {s : Text} (hr : r ≠ .char '|')
    (h : p.run (r :: s) = .even) : p = .even := by
  by_contra hp
  rw [run_cons, next_of_ne hr, if_neg hp, run_lone] at h
  cases h

end Pipes

/-- A blank is no pipe character. -/
theorem ne_pipe_of_isBlank {r : Glyph} (hr : r.isBlank = true) : r ≠ .char '|' := by
  rintro rfl
  exact absurd hr (by decide)

namespace Paired

theorem append {s t : Text} (hs : Paired s) (ht : Paired t) : Paired (s ++ t) := by
  rw [Paired, Pipes.run_append, hs, ht]

theorem of_blank {w : Text} (hw : ∀ r ∈ w, r.isBlank = true) : Paired w :=
  Pipes.run_of_ne fun r hr => ne_pipe_of_isBlank (hw r hr)

/-- Blanks at the ends can be left out. -/
theorem between {w s w' : Text} (h : Paired (w ++ s ++ w')) (hw : ∀ r ∈ w, r.isBlank = true)
    (hw' : ∀ r ∈ w', r.isBlank = true) : Paired s := by
  rw [Paired, Pipes.run_append, Pipes.run_append, of_blank hw] at h
  cases w' with
  | nil => exact h
  | cons r w' => exact Pipes.even_of_run_cons (ne_pipe_of_isBlank (hw' r List.mem_cons_self)) h

theorem trim {s : Text} (h : Paired s) : Paired (Text.trim s) := by
  obtain ⟨a, b, hs, ha, hb⟩ := trim_spec s
  rw [hs] at h
  exact h.between ha hb

/-- Induction over a text whose pipe characters stand in pairs. -/
@[elab_as_elim] theorem induct {P : Text → Prop} (nil : P [])
    (other : ∀ r s, r ≠ .char '|' → P s → P (r :: s))
    (pair : ∀ s, P s → P (.char '|' :: .char '|' :: s)) {s : Text} (h : Paired s) : P s := by
  induction hn : s.length using Nat.strongRecOn generalizing s with
  | ind n ih =>
      match s with
      | [] => exact nil
      | [r] =>
          by_cases hr : r = .char '|'
          · rw [hr] at h
            cases h
          · exact other r [] hr nil
      | a :: b :: s =>
          by_cases ha : a = .char '|'
          · subst ha
            obtain rfl : b = .char '|' := by
              by_contra hb
              have hhalf := Pipes.even_of_run_cons (p := .half) hb h
              cases hhalf
            exact pair s (ih s.length (by simp at hn; omega) h rfl)
          · rw [Paired, Pipes.run_cons, Pipes.next_of_ne ha, if_pos rfl] at h
            exact other a _ ha (ih (b :: s).length (by simp at hn; simp; omega) h rfl)

end Paired

/-- Squeezing keeps pairs together. -/
theorem run_squeeze {p : Pipes} {prev : Option Glyph} {q : Quote} {gap : Bool} {s : Text}
    (hgap : gap = true → p = .even) (h : p.run s = .even) :
    p.run (Tag.squeeze prev q gap s) = .even := by
  induction s generalizing p prev q gap with
  | nil => exact h
  | cons r s ih =>
      rw [Tag.squeeze]
      split
      · next hspace =>
          have hr := ne_pipe_of_isBlank
            (Glyph.isBlank_of_isSpace (Bool.and_eq_true_iff.mp hspace).2)
          obtain rfl := Pipes.even_of_run_cons hr h
          rw [Pipes.run_cons, Pipes.next_of_ne hr, if_pos rfl] at h
          exact ih (fun _ => rfl) h
      · have hrest : (p.next r).run (Tag.squeeze (some r) (q.next prev r) false s) = .even :=
          ih (by simp) h
        split
        · next hg =>
            obtain rfl := hgap hg
            exact hrest
        · exact hrest

/-- Setting off operators keeps pairs together: outside quotes a pair is an operator. -/
theorem Reads.run_write {closeUp : Bool} {prev : Option Glyph} {q : Quote} {n : Nat} {s : Text}
    {ps : List Piece} (h : Reads closeUp prev q s ps) {p : Pipes} (hp : q = .outside → p = .even)
    (hn : 0 < n → q = .outside) (hrun : p.run s = .even) (keep : Bool) :
    p.run (write keep n ps) = .even := by
  have hspaces : ∀ n, Pipes.run .even (List.replicate n (.char ' ')) = .even := fun n =>
    Pipes.run_of_ne (by simp +contextual)
  have hspace : Pipes.next .even (.char ' ') = .even := rfl
  induction h generalizing p n with
  | @nil closeUp prev q => exact hrun
  | passed tail ih =>
      obtain rfl := hp rfl
      exact ih (fun _ => rfl) (fun _ => rfl) hrun
  | @quoted closeUp prev q r s ps hblank hr tail ih =>
      have hnext : q.next prev r = .outside → p.next r = .even := by
        intro hout
        have hquote : r.isQuote = true := hr.resolve_left (not_not_intro hout)
        have hne : r ≠ .char '|' := by
          rintro rfl
          cases hquote
        rw [Pipes.next_of_ne hne, if_pos (Pipes.even_of_run_cons hne hrun)]
      have hrest := ih (n := 0) hnext (by simp) hrun
      cases n with
      | zero => exact hrest
      | succ n =>
          obtain rfl := hp (hn n.succ_pos)
          rw [write, Pipes.run_append, hspaces]
          exact hrest
  | gap tail ih =>
      obtain rfl := hp rfl
      exact ih (fun _ => rfl) (fun _ => rfl) hrun
  | @plain closeUp prev r s ps hquote hblank hcompound hloose tail ih =>
      obtain rfl := hp rfl
      have hnext : Pipes.next .even r = .even := by
        by_cases hr : r = .char '|'
        · -- the next glyph would make it an operator
          subst hr
          cases s with
          | nil => cases hrun
          | cons a s =>
              by_cases ha : a = .char '|'
              · subst ha
                refine absurd ?_ (compoundAt?_eq_none.mp hcompound (text "||") (by decide))
                exact ⟨s, rfl⟩
              · have hhalf := Pipes.even_of_run_cons (p := .half) ha hrun
                cases hhalf
        · rw [Pipes.next_of_ne hr, if_pos rfl]
      rw [Pipes.run_cons, hnext] at hrun
      rw [write, Pipes.run_append, hspaces, Pipes.run_cons, hnext]
      exact ih (fun _ => rfl) (by simp) hrun
  | @single closeUp prev r s ps hr hcompound hprev hnext tail ih =>
      obtain rfl := hp rfl
      have hne : r ≠ .char '|' := by
        rintro rfl
        exact absurd hr (by decide)
      rw [Pipes.run_cons, Pipes.next_of_ne hne, if_pos rfl] at hrun
      rw [write, Pipes.run_append, hspaces, Pipes.run_cons, hspace, Pipes.run_cons,
        Pipes.next_of_ne hne, if_pos rfl]
      exact ih (fun _ => rfl) (fun _ => rfl) hrun
  | @compound closeUp prev op s ps hop tail ih =>
      obtain rfl := hp rfl
      have hpairs : ∀ op ∈ compoundOperators, Pipes.run .even op = .even := by decide
      have hop := hpairs op (mem_of_compoundAt? hop).1
      rw [Pipes.run_append, hop] at hrun
      rw [write, List.cons_append, Pipes.run_cons, hspace, Pipes.run_append, hop]
      exact ih (fun _ => rfl) (fun _ => rfl) hrun

/-- Tidying a segment keeps pairs together. -/
theorem Paired.tidy {s : Text} (h : Paired s) (q : Quote) : Paired (tidy q s) := by
  have hsqueeze : Paired (Text.trim (Tag.squeeze none q false s)) :=
    Paired.trim (run_squeeze (by simp) h)
  rw [tidy_eq]
  exact Paired.trim ((reads_tidyPieces q s).run_write (fun _ => rfl) (by simp) hsqueeze true)

/-! ## Dividing an expression -/

theorem pipeSegments_of_ne {r : Glyph} (hr : r ≠ .char '|') (pending s : Text) :
    pipeSegments pending (r :: s) = pipeSegments (r :: pending) s := by
  cases s with
  | nil => simp [pipeSegments, hr]
  | cons a s => rw [pipeSegments, if_neg hr]

theorem pipeSegments_of_pipe {s : Text} (hs : s.head? ≠ some (.char '|')) (pending : Text) :
    pipeSegments pending (.char '|' :: s) = pending.reverse :: pipeSegments [] s := by
  cases s with
  | nil => rfl
  | cons a s =>
      have ha : a ≠ .char '|' := by simpa using hs
      rw [pipeSegments, if_pos rfl, if_neg ha]

/-- A text without a lone pipe character is one segment. -/
theorem Paired.pipeSegments_eq {a : Text} (ha : Paired a) (pending : Text) :
    pipeSegments pending a = [pending.reverse ++ a] := by
  revert pending
  refine Paired.induct ?_ ?_ ?_ ha
  · simp [pipeSegments]
  · intro r s hr ih pending
    simp [pipeSegments_of_ne hr, ih]
  · intro s ih pending
    simp [pipeSegments, ih]

/-- The first segment ends at the first lone pipe character. -/
theorem Paired.pipeSegments_append {a : Text} (ha : Paired a) {t : Text}
    (ht : t.head? ≠ some (.char '|')) (pending : Text) :
    pipeSegments pending (a ++ .char '|' :: t) =
      (pending.reverse ++ a) :: pipeSegments [] t := by
  revert pending
  refine Paired.induct ?_ ?_ ?_ ha
  · intro pending
    simpa using pipeSegments_of_pipe ht pending
  · intro r s hr ih pending
    simp [pipeSegments_of_ne hr, ih]
  · intro s ih pending
    simp [pipeSegments, ih]

/-- **The division of a text into segments.** -/
inductive Segmented : List Text → Text → Prop
  | last {a : Text} (ha : Paired a) : Segmented [a] a
  | cons {a t : Text} {segments : List Text} (ha : Paired a) (ht : t.head? ≠ some (.char '|'))
      (tail : Segmented segments t) : Segmented (a :: segments) (a ++ .char '|' :: t)

/-- Every text is divided. -/
theorem segmented_pipeSegments (pending s : Text) (hpending : Paired pending.reverse) :
    Segmented (pipeSegments pending s) (pending.reverse ++ s) := by
  fun_induction pipeSegments pending s with
  | case1 pending => simpa using Segmented.last hpending
  | case2 pending =>
      exact .cons hpending (by simp) (.last rfl)
  | case3 pending r hr =>
      have hlast : Paired (r :: pending).reverse := by
        rw [List.reverse_cons]
        exact hpending.append (Pipes.run_of_ne (by simpa using hr))
      simpa using Segmented.last hlast
  | case4 pending s ih =>
      have hnext : Paired (.char '|' :: .char '|' :: pending).reverse := by
        rw [List.reverse_cons, List.reverse_cons, List.append_assoc]
        exact hpending.append rfl
      simpa using ih hnext
  | case5 pending b s hb ih => exact .cons hpending (by simpa using hb) (ih rfl)
  | case6 pending a b s ha ih =>
      have hnext : Paired (a :: pending).reverse := by
        rw [List.reverse_cons]
        exact hpending.append (Pipes.run_of_ne (by simpa using ha))
      simpa using ih hnext

/-- The segments of an expression, trimmed. -/
def segments (s : Text) : List Text := (pipeSegments [] s).map trim

theorem segmented (s : Text) : Segmented (pipeSegments [] s) s := by
  simpa using segmented_pipeSegments [] s rfl

theorem segments_ne_nil (s : Text) : segments s ≠ [] := by
  simpa [segments] using pipeSegments_ne_nil [] s

theorem segments_of_paired {a : Text} (ha : Paired a) : segments a = [trim a] := by
  rw [segments, ha.pipeSegments_eq]
  rfl

theorem segments_append {a t : Text} (ha : Paired a) (ht : t.head? ≠ some (.char '|')) :
    segments (a ++ .char '|' :: t) = trim a :: segments t := by
  rw [segments, ha.pipeSegments_append ht]
  rfl

/-- Every segment is trimmed and has no lone pipe character. -/
theorem mem_segments {s g : Text} (h : g ∈ segments s) : Trimmed g ∧ Paired g := by
  have hpaired : ∀ {segments s}, Segmented segments s → ∀ a ∈ segments, Paired a := by
    intro segments s h
    induction h with
    | last ha => simpa using ha
    | cons ha ht tail ih => simpa [ha] using ih
  obtain ⟨a, ha, rfl⟩ := List.mem_map.mp h
  exact ⟨trimmed_trim a, (hpaired (segmented s) a ha).trim⟩

theorem segments_blank_append {w : Text} (hw : ∀ r ∈ w, r.isBlank = true) (s : Text) :
    segments (w ++ s) = segments s := by
  obtain ⟨gs, h⟩ : ∃ gs, Segmented gs s := ⟨_, segmented s⟩
  cases h with
  | last ha =>
      rw [segments_of_paired ((Paired.of_blank hw).append ha), segments_of_paired ha,
        trim_blank_append hw]
  | cons ha ht tail =>
      rw [← List.append_assoc, segments_append ((Paired.of_blank hw).append ha) ht,
        segments_append ha ht, trim_blank_append hw]

theorem segments_append_blank (s : Text) {w : Text} (hw : ∀ r ∈ w, r.isBlank = true) :
    segments (s ++ w) = segments s := by
  obtain ⟨gs, h⟩ : ∃ gs, Segmented gs s := ⟨_, segmented s⟩
  induction h with
  | @last a ha =>
      rw [segments_of_paired (ha.append (.of_blank hw)), segments_of_paired ha,
        trim_append_blank hw]
  | @cons a t gs ha ht tail ih =>
      have hhead : (t ++ w).head? ≠ some (.char '|') := by
        cases t with
        | nil =>
            intro hpipe
            exact ne_pipe_of_isBlank (hw _ (List.mem_of_mem_head? hpipe)) rfl
        | cons r t => exact ht
      rw [List.append_assoc, List.cons_append, segments_append ha hhead, ih, segments_append ha ht]

/-- Blanks at the ends of an expression do not matter to its segments. -/
theorem segments_trim (s : Text) : segments (trim s) = segments s := by
  obtain ⟨a, b, hs, ha, hb⟩ := trim_spec s
  conv => rhs; rw [hs, segments_append_blank _ hb, segments_blank_append ha]

/-- **Joined segments** are divided again where they were joined. -/
theorem segments_join {gs : List Text} (hne : gs ≠ []) (hgs : ∀ g ∈ gs, Trimmed g ∧ Paired g) :
    segments (join (text " | ") gs) = gs := by
  induction gs with
  | nil => exact absurd rfl hne
  | cons g gs ih =>
      obtain ⟨htrimmed, hpaired⟩ := hgs g List.mem_cons_self
      cases gs with
      | nil => rw [join_singleton, segments_of_paired hpaired, htrimmed.trim_eq]
      | cons g' gs =>
          have hrest := ih (by simp) fun a ha => hgs a (List.mem_cons_of_mem g ha)
          have hshape : join (text " | ") (g :: g' :: gs) =
              (g ++ [.char ' ']) ++ .char '|' :: ([.char ' '] ++ join (text " | ") (g' :: gs)) := by
            simp [join_cons_cons, text]
          have hfirst : Paired (g ++ [.char ' ']) := hpaired.append (.of_blank (by simp))
          rw [hshape, segments_append hfirst (by simp), segments_blank_append (by simp), hrest,
            htrimmed.trim_append (by simp)]

/-! ## Segments with the quotes before them -/

/-- The segments of an expression, each with the state of quotes before it. -/
def threaded (q : Quote) : List Text → List (Quote × Text)
  | [] => []
  | g :: gs => (q, g) :: threaded (q.after none g) gs

/-- What is done to segments leaves the quotes before them alone if it keeps the quotes behind
each. -/
theorem threaded_map {f : Quote → Text → Text}
    (hf : ∀ (q : Quote) g, q.after none (f q g) = q.after none g) (q : Quote) (gs : List Text) :
    threaded q ((threaded q gs).map fun at_ => f at_.1 at_.2) =
      (threaded q gs).map fun at_ => (at_.1, f at_.1 at_.2) := by
  induction gs generalizing q with
  | nil => rfl
  | cons g gs ih => simp [threaded, hf, ih]

theorem mem_of_mem_threaded {q : Quote} {gs : List Text} {at_ : Quote × Text}
    (h : at_ ∈ threaded q gs) : at_.2 ∈ gs := by
  induction gs generalizing q with
  | nil => cases h
  | cons g gs ih =>
      rcases List.mem_cons.mp h with rfl | h
      · exact List.mem_cons_self
      · exact List.mem_cons_of_mem g (ih h)

/-- Squeezing does not bring a pipe character to the front. -/
theorem head?_squeeze {prev : Option Glyph} {q : Quote} {s : Text}
    (hs : s.head? ≠ some (.char '|')) :
    (Tag.squeeze prev q false s).head? ≠ some (.char '|') := by
  have hgap : ∀ (s : Text) prev q, (Tag.squeeze prev q true s).head? ≠ some (.char '|') := by
    intro s
    induction s with
    | nil => simp [Tag.squeeze]
    | cons r s ih =>
        intro prev q
        rw [Tag.squeeze]
        split
        · exact ih _ _
        · simp
  cases s with
  | nil => simp [Tag.squeeze]
  | cons r s =>
      rw [Tag.squeeze]
      split
      · exact hgap _ _ _
      · simpa using hs

/-- Squeezing copies a pipe character. -/
theorem exists_squeeze_pipe (prev : Option Glyph) (q : Quote) (gap : Bool) (a t : Text) :
    ∃ w : Text, (∀ r ∈ w, r.isBlank = true) ∧
      Tag.squeeze prev q gap (a ++ .char '|' :: t) =
        Tag.squeeze prev q gap a ++ w ++
          .char '|' :: Tag.squeeze (some (.char '|')) (q.after prev a) false t := by
  have hcopy : ∀ prev (q : Quote) gap, ∃ w : Text, (∀ r ∈ w, r.isBlank = true) ∧
      Tag.squeeze prev q gap (.char '|' :: t) =
        w ++ .char '|' :: Tag.squeeze (some (.char '|')) q false t := by
    intro prev q gap
    have hspace : ¬(q.isOutside && Glyph.isSpace (.char '|')) = true := by
      rw [Bool.and_eq_true]
      exact fun h => absurd h.2 (by decide)
    rw [Tag.squeeze, if_neg hspace, Quote.next_of_isQuote rfl]
    cases gap with
    | false => exact ⟨[], by simp, rfl⟩
    | true => exact ⟨[.char ' '], by simp, rfl⟩
  obtain ⟨w, hw, hcopy⟩ := hcopy (Tag.Place.after ⟨prev, q, gap⟩ a).prev
    (Tag.Place.after ⟨prev, q, gap⟩ a).quote (Tag.Place.after ⟨prev, q, gap⟩ a).gap
  refine ⟨w, hw, ?_⟩
  rw [Tag.squeeze_append ⟨prev, q, gap⟩, hcopy, (place_after ⟨prev, q, gap⟩ a).2, List.append_assoc]

/-- **Squeezing an expression** squeezes its segments. -/
theorem segments_squeeze (s : Text) {prev : Option Glyph} (hprev : ¬Escapes prev) (q : Quote)
    (gap : Bool) :
    segments (Tag.squeeze prev q gap s) =
      (threaded q (segments s)).map fun at_ => trim (Tag.squeeze none at_.1 false at_.2) := by
  have htrim : ∀ (a : Text) {prev : Option Glyph} (q : Quote) gap, ¬Escapes prev →
      trim (Tag.squeeze prev q gap a) = trim (Tag.squeeze none q false (trim a)) ∧
        q.after prev a = q.after none (trim a) := by
    intro a prev q gap hprev
    obtain ⟨w, w', ha, hw, hw'⟩ := trim_spec a
    constructor
    · conv => lhs; rw [ha, trim_squeeze_between hw _ hw' hprev]
    · conv => lhs; rw [ha, Quote.after_between hw _ hw' q hprev]
  obtain ⟨gs, h⟩ : ∃ gs, Segmented gs s := ⟨_, segmented s⟩
  induction h generalizing prev q gap with
  | @last a ha =>
      rw [segments_of_paired (run_squeeze (fun _ => rfl) ha), segments_of_paired ha,
        (htrim a q gap hprev).1]
      rfl
  | @cons a t gs ha ht tail ih =>
      obtain ⟨w, hw, hsqueeze⟩ := exists_squeeze_pipe prev q gap a t
      have hfirst : Paired (Tag.squeeze prev q gap a ++ w) :=
        Paired.append (run_squeeze (fun _ => rfl) ha) (.of_blank hw)
      rw [hsqueeze, segments_append hfirst (head?_squeeze ht), trim_append_blank hw,
        segments_append ha ht,
        threaded, List.map_cons, ih (by simp [Escapes]), (htrim a q gap hprev).1,
        (htrim a q gap hprev).2]

/-! ## The operators of joined segments -/

/-- Nothing is read from an empty text. -/
theorem Reads.eq_nil {closeUp : Bool} {prev : Option Glyph} {q : Quote} {ps : List Piece}
    (h : Reads closeUp prev q [] ps) : ps = [] :=
  h.pieces_eq.symm

/-- Behind a segment that does not end in a blank, a space waits only for an operator at its
end. -/
theorem Reads.waiting_eq {closeUp : Bool} {prev : Option Glyph} {q : Quote} {s : Text}
    {ps : List Piece} (h : Reads closeUp prev q s ps) (hne : s ≠ [])
    (hs : ∀ a ∈ s.getLast?, a.isBlank = false) (n : Nat) :
    waiting n ps = if closing closeUp ps then 1 else 0 := by
  induction h generalizing n with
  | nil => exact absurd rfl hne
  | @passed prev s ps tail ih =>
      cases s with
      | nil => exact absurd (hs _ rfl) (by decide)
      | cons a s => exact ih (by simp) (last_of_cons hs) n
  | @quoted closeUp prev q r s ps hspace hr tail ih =>
      cases s with
      | nil => rw [tail.eq_nil]; rfl
      | cons a s => exact ih (by simp) (last_of_cons hs) 0
  | @gap prev s ps tail ih =>
      cases s with
      | nil => exact absurd (hs _ rfl) (by decide)
      | cons a s => exact ih (by simp) (last_of_cons hs) (n + 1)
  | @plain closeUp prev r s ps hquote hspace hcompound hloose tail ih =>
      cases s with
      | nil => rw [tail.eq_nil]; rfl
      | cons a s => exact ih (by simp) (last_of_cons hs) 0
  | @single closeUp prev r s ps hr hcompound hprev hnext tail ih =>
      cases s with
      | nil => simp at hnext
      | cons a s => exact ih (by simp) (last_of_cons hs) 1
  | @compound closeUp prev op s ps hop tail ih =>
      cases s with
      | nil => rw [tail.eq_nil]; rfl
      | cons a s =>
          refine ih (by simp) (fun b hb => hs b ?_) 1
          rw [List.getLast?_append, Option.mem_def.mp hb]
          rfl

/-- An operator at the end of a segment stands outside quotes. -/
theorem Reads.after_of_closing {closeUp : Bool} {prev : Option Glyph} {q : Quote} {s : Text}
    {ps : List Piece} (h : Reads closeUp prev q s ps) (hq : closeUp = true → q = .outside)
    (hclosing : closing closeUp ps = true) : q.after prev s = .outside := by
  induction h with
  | nil => exact hq hclosing
  | passed tail ih =>
      rw [Quote.after, Quote.next_of_isQuote rfl]
      exact ih (fun _ => rfl) hclosing
  | quoted hspace hr tail ih => exact ih (by simp) hclosing
  | gap tail ih =>
      rw [Quote.after, Quote.next_of_isQuote rfl]
      exact ih (by simp) hclosing
  | plain hquote hspace hcompound hloose tail ih =>
      rw [Quote.after, Quote.next_of_isQuote hquote]
      exact ih (by simp) hclosing
  | single hr hcompound hprev hnext tail ih =>
      rw [Quote.after, Quote.next_of_isQuote (ink_of_isSingleOperator hr).2.1]
      exact ih (by simp) hclosing
  | @compound closeUp prev op s ps hop tail ih =>
      obtain ⟨hne, hink⟩ := compoundOperators_ink op (mem_of_compoundAt? hop).1
      obtain ⟨last, hlast⟩ : ∃ a, op.getLast? = some a := ⟨_, List.getLast?_eq_some_getLast hne⟩
      rw [Quote.after_append, Quote.after_of_isQuote fun r hr => (hink r hr).2.1, hlast,
        Option.some_or, ← hlast]
      exact ih (fun _ => rfl) hclosing

/-- The spaces that wait behind a space that was read. -/
def behindSpace (q : Quote) : Nat := if q.isOutside then 1 else 0

/-- A segment behind a space is written behind it. -/
theorem Reads.write_behindSpace {prev : Option Glyph} {q : Quote} {s : Text} {ps : List Piece}
    (h : Reads false prev q s ps) (hprev : ∀ a ∈ prev, a = .char ' ') (hs : Trimmed s)
    (hne : s ≠ []) :
    write true (behindSpace q) ps =
      List.replicate (behindSpace q) (.char ' ') ++ trim (write true 0 ps) := by
  have hlast := h.last_write hs.last true 0
  have hcopied : ∀ {r ps'}, ps = .copied r :: ps' → r.isBlank = false →
      write true (behindSpace q) ps =
        List.replicate (behindSpace q) (.char ' ') ++ trim (write true 0 ps) := by
    rintro r ps' rfl hr
    rw [Trimmed.trim_eq ⟨by simpa [write] using hr, hlast⟩]
    simp [write]
  cases h with
  | nil => exact absurd rfl hne
  | quoted hspace hr tail => exact hcopied rfl (hs.head _ rfl)
  | gap tail => exact absurd (hs.head _ rfl) (by decide)
  | plain hquote hspace hcompound hloose tail => exact hcopied rfl (hs.head _ rfl)
  | single hr hcompound hspace hnext tail =>
      obtain ⟨a, ha, hne⟩ := hspace
      exact absurd (hprev a ha) hne
  | compound hop tail =>
      rw [trim_write_compound (mem_of_compoundAt? hop).1 hlast]
      rfl

/-- What the text between two segments is read as. -/
theorem exists_reads_pipe (closeUp : Bool) (prev : Option Glyph) {q : Quote} {rest : Text}
    {ps : List Piece} (h : Reads false (some (.char ' ')) q rest ps)
    (hclose : closeUp = true → q = .outside) :
    ∃ sep, Reads closeUp prev q (.char ' ' :: .char '|' :: .char ' ' :: rest) (sep ++ ps) ∧
      (Roomy (sep ++ ps) ↔ Roomy ps) ∧ (∀ p ∈ (sep ++ ps).head?, p.isSingle = false) ∧
      ∀ n, (n = 0 ∨ q = .outside) →
        write true n (sep ++ ps) = List.replicate (if closeUp then n else n + 1) (.char ' ') ++
          .char '|' :: (List.replicate (1 - behindSpace q) (.char ' ') ++
            write true (behindSpace q) ps) ∧
        waiting n (sep ++ ps) = waiting (behindSpace q) ps := by
  by_cases hq : q = .outside
  · subst hq
    have hnone : compoundAt? (.char '|' :: .char ' ' :: rest) = none :=
      (compoundAt?_append [.char '|'] (t := .char ' ' :: rest) (by simp)).trans (by decide)
    have hpipe : ∀ closeUp prev, Reads closeUp prev .outside (.char '|' :: .char ' ' :: rest)
        (.copied (.char '|') :: .gap :: ps) := fun _ _ =>
      .plain rfl (by decide) hnone (fun hr => absurd hr (by decide)) (.gap h)
    cases closeUp with
    | true =>
        refine ⟨[.copied (.char '|'), .gap], .passed (hpipe true _), by simp, by simp, ?_⟩
        exact fun n _ => ⟨rfl, rfl⟩
    | false =>
        refine ⟨[.gap, .copied (.char '|'), .gap], .gap (hpipe false _), by simp, by simp, ?_⟩
        exact fun n _ => ⟨rfl, rfl⟩
  · obtain rfl : closeUp = false := by simpa using mt hclose hq
    have hnext : ∀ prev {r : Glyph}, r.isQuote = false → q.next prev r = q := fun prev _ hr =>
      Quote.next_of_isQuote hr q prev
    have hquoted : ∀ prev {r : Glyph} {s ps}, r.isQuote = false → Reads false (some r) q s ps →
        Reads false prev q (r :: s) (.copied r :: ps) := by
      intro prev r s ps hr hreads
      refine .quoted (by simp) (.inl (by rwa [hnext prev hr])) ?_
      rwa [hnext prev hr]
    refine ⟨[.copied (.char ' '), .copied (.char '|'), .copied (.char ' ')],
      hquoted _ rfl (hquoted _ rfl (hquoted _ rfl h)), by simp, by simp, fun n hn => ?_⟩
    obtain rfl : n = 0 := hn.resolve_right hq
    have hzero : behindSpace q = 0 := by simp [behindSpace, Quote.isOutside, hq]
    rw [hzero]
    exact ⟨rfl, rfl⟩

/-- Side by side, pieces are roomy if each part is, unless an operator of one glyph starts the
second. -/
theorem roomy_append {ps ps' : List Piece} (h : ∀ p ∈ ps'.head?, p.isSingle = false) :
    Roomy (ps ++ ps') ↔ Roomy ps ∧ Roomy ps' := by
  rw [Roomy, List.isChain_append]
  exact ⟨fun hchain => ⟨hchain.1, hchain.2.1⟩, fun hboth =>
    ⟨hboth.1, hboth.2, fun _ _ p hp _ => h p hp⟩⟩

/-- A segment behind a space is written behind it, and with the spaces up to the next pipe
character one space stands behind it. -/
theorem Reads.write_segment {prev : Option Glyph} {q : Quote} {s : Text} {ps : List Piece}
    (h : Reads false prev q s ps) (hprev : ∀ a ∈ prev, a = .char ' ') (hs : Trimmed s) :
    (∃ k, write true (behindSpace q) ps ++
        List.replicate (waiting (behindSpace q) ps) (.char ' ') =
      List.replicate (behindSpace q) (.char ' ') ++ trim (write true 0 ps) ++
        List.replicate k (.char ' ')) ∧
    (write true (behindSpace q) ps ++ List.replicate (if closing false ps then
        waiting (behindSpace q) ps else waiting (behindSpace q) ps + 1) (.char ' ') =
      List.replicate (behindSpace q) (.char ' ') ++ trim (write true 0 ps) ++ [.char ' ']) ∧
    (waiting (behindSpace q) ps = 0 ∨ q.after prev s = .outside) := by
  by_cases hne : s = []
  · subst hne
    obtain rfl := h.eq_nil
    refine ⟨⟨0, by simp [write, waiting]; rfl⟩, ?_, ?_⟩
    · simp [write, waiting, closing, List.replicate_succ']
      rfl
    · by_cases hq : q = .outside
      · exact .inr hq
      · exact .inl (by simp [waiting, behindSpace, Quote.isOutside, hq])
  · have hwrite := h.write_behindSpace hprev hs hne
    have hwaiting := h.waiting_eq hne hs.last (behindSpace q)
    refine ⟨⟨_, by rw [hwrite]⟩, ?_, ?_⟩
    · rw [hwrite, hwaiting]
      cases closing false ps <;> rfl
    · cases hclosing : closing false ps with
      | false => exact .inl (by rw [hwaiting, hclosing]; rfl)
      | true => exact .inr (h.after_of_closing (by simp) hclosing)

/-- A segment, a separator and the segments behind it: the spaces around the bar are those
that the segment is filled up with, and those that the later text is written behind. -/
theorem append_pipe {first filled lead t gap later lead' rest tail tail' : Text}
    (hfirst : first ++ filled = lead ++ t ++ [.char ' ']) (hgap : gap ++ lead' = [.char ' '])
    (hlater : later ++ tail = lead' ++ rest ++ tail') :
    first ++ (filled ++ .char '|' :: (gap ++ later)) ++ tail =
      lead ++ (t ++ text " | " ++ rest) ++ tail' :=
  calc first ++ (filled ++ .char '|' :: (gap ++ later)) ++ tail
      = (first ++ filled) ++ .char '|' :: (gap ++ (later ++ tail)) := by
        simp only [List.append_assoc, List.cons_append]
    _ = (lead ++ t ++ [.char ' ']) ++ .char '|' :: ((gap ++ lead') ++ (rest ++ tail')) := by
        rw [hfirst, hlater]
        simp only [List.append_assoc]
    _ = lead ++ (t ++ text " | " ++ rest) ++ tail' := by
        rw [hgap]
        simp [text]

/-- **The operators of joined segments** are those of the segments.  The text is written behind
`behindSpace q` spaces, as it stands behind the separator before it. -/
theorem reads_join {gs : List Text} (hne : gs ≠ []) (hgs : ∀ g ∈ gs, Trimmed g)
    {prev : Option Glyph} (hprev : ∀ a ∈ prev, a = .char ' ') (q : Quote) :
    ∃ ps k, Reads false prev q (join (text " | ") gs) ps ∧
      (Roomy ps ↔ ∀ at_ ∈ threaded q gs, Roomy (piecesFrom 0 false none at_.1 at_.2)) ∧
      write true (behindSpace q) ps ++
          List.replicate (waiting (behindSpace q) ps) (.char ' ') =
        List.replicate (behindSpace q) (.char ' ') ++
          join (text " | ") ((threaded q gs).map fun at_ =>
            trim (spaceFrom 0 false none at_.1 [] at_.2)) ++
          List.replicate k (.char ' ') := by
  induction gs generalizing prev q with
  | nil => exact absurd rfl hne
  | cons g gs ih =>
      have hescapes : Escapes none ↔ Escapes prev := by
        refine iff_of_false (by simp [Escapes]) fun h => ?_
        exact absurd (hprev _ h) (by decide)
      have hpieces : Reads false none q g (piecesFrom 0 false none q g) :=
        reads_piecesFrom g none (by simp)
      have hspace := trim_spaceFrom hpieces
      have hreads : Reads false prev q g (piecesFrom 0 false none q g) :=
        hpieces.prev_congr hescapes (by simpa using hprev)
      clear hpieces
      generalize hpieces : piecesFrom 0 false none q g = pg at hreads hspace
      obtain ⟨⟨k, hlast⟩, hmore, hwaiting⟩ := hreads.write_segment hprev (hgs g List.mem_cons_self)
      cases gs with
      | nil =>
          refine ⟨pg, k, by simpa using hreads, by simp [threaded, hpieces], ?_⟩
          simpa [threaded, hspace] using hlast
      | cons g' gs =>
          have hlater : ∀ a ∈ some (Glyph.char ' '), a = .char ' ' := by simp
          obtain ⟨ps, k, hrest, hroomy, hwrite⟩ := ih (by simp)
            (fun a ha => hgs a (List.mem_cons_of_mem g ha)) hlater (q.after none g)
          rw [Quote.after_congr hescapes] at hrest hroomy hwrite
          obtain ⟨sep, hsep, hsepRoomy, hhead, hsepWrite⟩ :=
            exists_reads_pipe (closing false pg) (g.getLast?.or prev) hrest
              (hreads.after_of_closing (by simp))
          obtain ⟨hsepWrite, hsepWaiting⟩ := hsepWrite _ hwaiting
          have hthread : threaded q (g :: g' :: gs) =
              (q, g) :: threaded (q.after prev g) (g' :: gs) := by
            rw [threaded, Quote.after_congr hescapes]
          refine ⟨pg ++ (sep ++ ps), k, ?_, ?_, ?_⟩
          · have hall := hreads.append (by simp) hsep
            simpa [join_cons_cons, text] using hall
          · rw [roomy_append hhead, hsepRoomy, hroomy, hthread, List.forall_mem_cons, hpieces]
          · have hspaces : List.replicate (1 - behindSpace (q.after prev g)) (Glyph.char ' ') ++
                List.replicate (behindSpace (q.after prev g)) (.char ' ') = [.char ' '] := by
              rw [behindSpace]
              split <;> rfl
            obtain ⟨part, parts, hparts⟩ : ∃ part parts, (threaded (q.after prev g) (g' :: gs)).map
                (fun at_ => trim (spaceFrom 0 false none at_.1 [] at_.2)) = part :: parts :=
              ⟨_, _, rfl⟩
            rw [hparts] at hwrite
            rw [hthread, List.map_cons, hparts, join_cons_cons, hspace, write_append, hsepWrite,
              waiting_append, hsepWaiting]
            exact append_pipe hmore hspaces hwrite

end TemplateFormat.Layout.Interpolation
