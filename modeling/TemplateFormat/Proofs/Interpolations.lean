import TemplateFormat.Layout.Interpolation
import TemplateFormat.Proofs.Pieces

/-!
# Rewritten interpolations

An interpolation is rewritten in three passes over its expression: runs of
spaces are collapsed, the segments of a pipe are spaced, and so are the
operators.  None of them looks at the markers of nested interpolations, and
none has to.

* `strip_normalize` — rewriting adds and removes blanks only;
* `run_normalize` — it does so only next to glyphs that are no braces, or at the
  ends of the expression, so the count of open markers comes out the same;
* `closed_normalize`, `running_normalize` — an interpolation that ends still
  ends, and one that runs on still does.
-/

namespace TemplateFormat.Layout.Interpolation

open Text Markup

/-! ## The glyphs of an expression -/

/-- Collapsing an expression changes nothing but blanks. -/
theorem strip_collapseFrom (prev : Option Glyph) (q : Quote) (gap : Bool)
    (seen s : Text) :
    strip (collapseFrom prev q gap seen s) = strip seen.reverse ++ strip s := by
  induction s generalizing prev q gap seen with
  | nil => simp [collapseFrom]
  | cons r s ih =>
      rw [collapseFrom]
      split
      · next h =>
          have hr := Glyph.isBlank_of_isSpace (Bool.and_eq_true_iff.mp h).2
          rw [ih, strip_cons_of_blank s hr]
      · have hcons : strip (r :: s) = strip [r] ++ strip s := strip_append [r] s
        rw [ih, hcons]
        split <;> simp

/-- An expression has at least one segment. -/
theorem pipeSegments_ne_nil (pending s : Text) : pipeSegments pending s ≠ [] := by
  fun_induction pipeSegments pending s <;> simp_all

/-- A segment and the segments behind it, with `|` between them. -/
theorem join_pipe_cons (segment pending s : Text) :
    join [.char '|'] (segment :: pipeSegments pending s) =
      segment ++ .char '|' :: join [.char '|'] (pipeSegments pending s) := by
  obtain ⟨next, rest, h⟩ :=
    List.exists_cons_of_ne_nil (pipeSegments_ne_nil pending s)
  simp [h, join_cons_cons]

/-- The segments of a pipe with `|` between them are the expression. -/
theorem join_pipeSegments (pending s : Text) :
    join [.char '|'] (pipeSegments pending s) = pending.reverse ++ s := by
  fun_induction pipeSegments pending s with
  | case1 pending => simp
  | case2 pending => simp [join_cons_cons]
  | case3 pending r h => simp
  | case4 pending s ih => simpa using ih
  | case5 pending b s h ih => simp [join_pipe_cons, ih]
  | case6 pending a b s h ih => simpa using ih

/-- Spacing the segments of a pipe changes nothing but blanks. -/
theorem strip_join_pipe (segments : List Text) :
    strip (join (text " | ") (segments.map trim)) = strip (join [.char '|'] segments) := by
  induction segments with
  | nil => rfl
  | cons segment rest ih =>
      cases rest with
      | nil => simp
      | cons next rest =>
          have hpipe : strip (text " | ") = strip [.char '|'] := rfl
          simp only [List.map_cons, join_cons_cons, strip_append, strip_trim,
            hpipe] at ih ⊢
          rw [ih]

theorem strip_splitPipes (expr : Text) : strip (splitPipes expr) = strip expr := by
  rw [splitPipes]
  split
  · rfl
  · rw [strip_join_pipe, join_pipeSegments]
    rfl

/-- The operator that stands at the start of a text is its first glyphs. -/
theorem compoundAt?_eq_some {r : Glyph} {s op : Text}
    (h : compoundAt? (r :: s) = some op) :
    ∃ body rest, op = r :: body ∧ s = body ++ rest := by
  have hmem := List.mem_of_find?_eq_some h
  have hlead : op.isPrefixOf (r :: s) = true := by
    simpa using List.find?_some h
  obtain ⟨rest, hrest⟩ := List.isPrefixOf_iff_prefix.mp hlead
  cases op with
  | nil => exact absurd hmem (by decide)
  | cons a body =>
      rw [List.cons_append] at hrest
      cases hrest
      exact ⟨body, rest, rfl, rfl⟩

/-- Spacing operators changes nothing but blanks. -/
theorem strip_spaceFrom (skip : Nat) (closeUp : Bool) (prev : Option Glyph) (q : Quote)
    (seen s : Text) :
    strip (spaceFrom skip closeUp prev q seen s) =
      strip seen.reverse ++ strip (s.drop skip) := by
  have hcons : ∀ r s, strip (r :: s) = strip [r] ++ strip s :=
    fun r s => strip_append [r] s
  fun_induction spaceFrom skip closeUp prev q seen s with
  | case1 => simp
  | case2 skip closeUp prev q seen r s ih => simpa using ih
  | case3 closeUp prev q seen r s h ih =>
      have hr : r = .char ' ' := by simpa using (Bool.and_eq_true_iff.mp h).2
      simpa [hr] using ih
  | case4 closeUp prev q seen r s h q' hq ih => simpa [hcons r s] using ih
  | case5 closeUp prev q seen r s h q' hq op hop ih =>
      obtain ⟨body, rest, rfl, rfl⟩ := compoundAt?_eq_some hop
      have hseen : strip (seen.dropWhile (· == .char ' ')).reverse = strip seen.reverse := by
        rw [strip_reverse, strip_dropWhile (by simp +contextual), strip_reverse]
      have hop : strip (r :: (body ++ rest)) = strip (r :: body) ++ strip rest :=
        strip_append (r :: body) rest
      rw [ih]
      simp [hseen, hop, hcons r body, hcons r (body ++ [.char ' '])]
  | case6 closeUp prev q seen r s h q' hq hop hsingle ih =>
      simpa [hcons r s, hcons r [.char ' ']] using ih
  | case7 closeUp prev q seen r s h q' hq hop hsingle ih =>
      simpa [hcons r s] using ih

/-- The expression of a closed interpolation stands between its markers. -/
theorem eq_of_inner? {literal expr : Text} (h : inner? literal = some expr) :
    literal = interpolationOpen ++ expr ++ interpolationClose := by
  rw [inner?] at h
  split at h
  · next rest hrest =>
      split at h
      · next hend =>
          obtain ⟨body, rfl⟩ := List.isSuffixOf_iff_suffix.mp hend
          obtain rfl : body = expr := by simpa using h
          rw [after?_eq_some hrest, List.append_assoc]
      · cases h
  · cases h

/-- **Rewriting an interpolation** changes nothing but blanks. -/
@[simp] theorem strip_normalize (literal : Text) :
    strip (normalize literal) = strip literal := by
  rw [normalize]
  split
  · rfl
  · next expr h =>
      have hspaces : strip (text " ") = [] ∧ strip (text "  ") = [] := ⟨rfl, rfl⟩
      rw [eq_of_inner? h]
      simp only [strip_append]
      split
      · next hempty =>
          have hexpr : strip expr = [] := by
            rw [← strip_trim, List.isEmpty_iff.mp hempty]
            rfl
          simp [hexpr, hspaces]
      · simp [hspaces, spaceOperators, strip_spaceFrom, strip_splitPipes,
          collapseOutside,
          strip_collapseFrom]

/-! ## The markers of an expression -/

/-- Collapsing an expression keeps the count of open markers.  A pending gap
counts as a glyph that is no brace. -/
theorem run_collapseFrom (n : Nesting) (prev : Option Glyph) (q : Quote)
    (gap : Bool)
    (seen s : Text) :
    (n.run (collapseFrom prev q gap seen s)).reset =
      ((if gap then (n.run seen.reverse).reset else n.run seen.reverse).run s).reset := by
  induction s generalizing prev q gap seen with
  | nil => cases gap <;> simp [collapseFrom]
  | cons r s ih =>
      rw [collapseFrom]
      split
      · next h =>
          have hr := Glyph.isBlank_of_isSpace (Bool.and_eq_true_iff.mp h).2
          rw [ih, Nesting.run_cons]
          cases gap <;> simp [Nesting.next_of_blank _ hr]
      · rw [ih]
        cases gap <;> simp [Nesting.reset]

/-- Trimming keeps the count of open markers, behind a glyph that is no
brace. -/
theorem run_trim {n : Nesting} (hn : n.reset = n) (s : Text) :
    (n.run (trim s)).reset = (n.run s).reset := by
  obtain ⟨a, b, hs, ha, hb⟩ := trim_spec s
  conv => rhs; rw [hs, Nesting.run_append, Nesting.run_append,
    Nesting.run_of_blank hn ha,
    Nesting.reset_run_of_blank _ hb]

/-- Spacing the segments of a pipe keeps the count of open markers. -/
theorem run_join_pipe {n : Nesting} (hn : n.reset = n) (segments : List Text) :
    (n.run (join (text " | ") (segments.map trim))).reset =
      (n.run (join [.char '|'] segments)).reset := by
  induction segments generalizing n with
  | nil => rfl
  | cons segment rest ih =>
      cases rest with
      | nil => simpa using run_trim hn segment
      | cons next rest =>
          have hpipe : ∀ m : Nesting, m.run (text " | ") = m.reset ∧
            m.run [.char '|'] = m.reset :=
            fun m => ⟨m.run_of_no_brace (by decide) (by decide),
              m.run_of_no_brace (by decide) (by decide)⟩
          have hrest := ih (n := (n.run segment).reset) (Nesting.reset_reset _)
          simp only [List.map_cons, join_cons_cons, Nesting.run_append, hpipe,
            run_trim hn]
            at hrest ⊢
          exact hrest

theorem run_splitPipes {n : Nesting} (hn : n.reset = n) (expr : Text) :
    (n.run (splitPipes expr)).reset = (n.run expr).reset := by
  rw [splitPipes]
  split
  · rfl
  · rw [run_join_pipe hn, join_pipeSegments]
    rfl

/-- Operators hold no braces. -/
theorem compoundOperators_no_brace : ∀ op ∈ compoundOperators,
    ∀ r ∈ op, r ≠ .char '\x7b' ∧ r ≠ .char '\x7d' := by
  decide

/-- Spacing operators keeps the count of open markers: spaces are added and
left out next to operators only. -/
theorem run_spaceFrom (n : Nesting) (skip : Nat) (closeUp : Bool)
    (prev : Option Glyph) (q : Quote)
    (seen s : Text)
    (hclose : closeUp = true → (n.run seen.reverse).reset = n.run seen.reverse) :
    (n.run (spaceFrom skip closeUp prev q seen s)).reset =
      ((n.run seen.reverse).run (s.drop skip)).reset := by
  fun_induction spaceFrom skip closeUp prev q seen s with
  | case1 => simp
  | case2 skip closeUp prev q seen r s ih => simpa using ih hclose
  | case3 closeUp prev q seen r s h ih =>
      obtain ⟨hc, hr⟩ : closeUp = true ∧ r = .char ' ' := by simpa using h
      have hnext : (n.run seen.reverse).next r = n.run seen.reverse := by
        rw [hr]
        exact hclose hc
      simpa [hnext] using ih fun _ => hclose hc
  | case4 closeUp prev q seen r s h q' hq ih => simpa using ih (by simp)
  | case5 closeUp prev q seen r s h q' hq op hop ih =>
      have hbrace := compoundOperators_no_brace op (List.mem_of_find?_eq_some hop)
      obtain ⟨body, rest, rfl, rfl⟩ := compoundAt?_eq_some hop
      have hseen : (n.run (seen.dropWhile (· == .char ' ')).reverse).reset =
          (n.run seen.reverse).reset := by
        have hspaces : ∀ r ∈ (seen.takeWhile (· == .char ' ')).reverse, r.isBlank = true := by
          intro r hr
          have hr := List.all_eq_true.mp List.all_takeWhile r
            (List.mem_reverse.mp hr)
          rw [beq_iff_eq.mp hr]
          rfl
        conv => rhs; rw [← List.takeWhile_append_dropWhile (p := (· == .char ' '))
          (l := seen),
          List.reverse_append, Nesting.run_append,
          Nesting.reset_run_of_blank _ hspaces]
      have hop : ∀ m : Nesting, m.run (r :: body) = m.reset := fun m =>
        m.run_of_no_brace (by simp) hbrace
      have hwritten : n.run (.char ' ' :: (r :: body).reverse ++
          .char ' ' :: seen.dropWhile (· == .char ' ')).reverse =
          (n.run seen.reverse).reset := by
        have hsplit : (.char ' ' :: (r :: body).reverse ++
            .char ' ' :: seen.dropWhile (· == .char ' ')).reverse =
            (seen.dropWhile (· == .char ' ')).reverse ++
            ([.char ' '] ++ ((r :: body) ++ [.char ' '])) := by
          simp
        have hspace : ∀ m : Nesting, m.run [.char ' '] = m.reset := fun _ => rfl
        rw [hsplit, Nesting.run_append, Nesting.run_append, Nesting.run_append,
          hspace, hop, hspace,
          hseen, Nesting.reset_reset, Nesting.reset_reset]
      have hdrop : (body ++ rest).drop ((r :: body).length - 1) = rest := by simp
      rw [ih fun _ => by rw [hwritten, Nesting.reset_reset], hwritten, hdrop,
        List.drop_zero,
        ← List.cons_append, Nesting.run_append, hop]
  | case6 closeUp prev q seen r s h q' hq hop hsingle ih =>
      have hr : ∀ m : Nesting, m.next r = m.reset := by
        intro m
        refine m.next_of_not_brace ?_ ?_ <;> rintro rfl <;>
          exact absurd (Bool.and_eq_true_iff.mp
            (Bool.and_eq_true_iff.mp hsingle).1).1 (by decide)
      have hspace : ∀ m : Nesting, m.next (.char ' ') = m.reset := fun _ => rfl
      have hspaced : n.run (.char ' ' :: r :: .char ' ' :: seen).reverse =
          (n.run seen.reverse).reset := by
        simp [hspace, hr]
      rw [ih (by simp), hspaced, List.drop_zero, List.drop_zero, Nesting.run_cons, hr]
  | case7 closeUp prev q seen r s h q' hq hop hsingle ih =>
      simpa using ih (by simp)

/-- **The markers of a rewritten interpolation.**  Between its markers the count
comes out as before, with no brace left over. -/
theorem run_normalize {literal expr : Text} (h : inner? literal = some expr)
    {n : Nesting}
    (hn : n.reset = n) :
    ∃ body, normalize literal = interpolationOpen ++ (.char ' ' :: body) ++ interpolationClose ∧
      n.run (.char ' ' :: body) = (n.run expr).reset := by
  have hspace : ∀ m : Nesting, m.run (text " ") = m.reset ∧
    m.run (text "  ") = m.reset :=
    fun m => ⟨rfl, m.run_of_no_brace (by decide) (by decide)⟩
  rw [normalize, h]
  dsimp only
  split
  · next hempty =>
      refine ⟨text " ", rfl, ?_⟩
      have htwo : .char ' ' :: text " " = text "  " := rfl
      rw [htwo, (hspace n).2, ← run_trim hn expr, List.isEmpty_iff.mp hempty]
      rfl
  · refine ⟨trim (spaceOperators (splitPipes (collapseOutside (trim expr)))) ++ text " ",
      by simp [text], ?_⟩
    have hfirst : n.next (.char ' ') = n := hn
    rw [Nesting.run_cons, hfirst, Nesting.run_append, (hspace _).1, run_trim hn,
      spaceOperators, run_spaceFrom n 0 false none .outside [] _ (by simp),
      List.drop_zero,
      List.reverse_nil, Nesting.run_nil, run_splitPipes hn, collapseOutside,
      run_collapseFrom,
      if_neg (by simp), List.reverse_nil, Nesting.run_nil, run_trim hn]

/-- A brace left over before the closing marker would have closed the
interpolation one glyph earlier. -/
theorem run_close_reset (m : Nesting) :
    (m.run interpolationClose = .closed →
      m.reset.run interpolationClose = .closed) ∧
    ((∃ depth half, m.run interpolationClose = .opened depth half) →
      ∃ depth half, m.reset.run interpolationClose = .opened depth half) := by
  have hclose : interpolationClose = [.char '\x7d', .char '\x7d'] := rfl
  cases m with
  | opened depth half =>
      rw [hclose, Nesting.reset_opened]
      by_cases hhalf : half =
        some (.char '\x7d') <;> by_cases hdepth : depth ≤ 1 <;>
        simp [Nesting.next, hhalf, hdepth]
  | closed => simp [hclose, Nesting.next]
  | passed => simp [hclose, Nesting.next]

/-- The markers of a literal whose expression is known. -/
theorem eq_cons_of_inner? {s expr : Text}
    (h : inner? (.char '\x7b' :: .char '\x7b' :: s) = some expr) :
    s = expr ++ interpolationClose := by
  simpa [interpolationOpen, text] using eq_of_inner? h

/-- **An interpolation that ends** still ends when it is rewritten. -/
theorem closed_normalize {literal : Text}
    (h : Lexeme.Closed .interpolation literal) :
    Lexeme.Closed .interpolation (normalize literal) := by
  cases hinner : inner? literal with
  | none => simpa [normalize, hinner] using h
  | some expr =>
      cases h with
      | @interpolation s h =>
          obtain ⟨body, hbody, hrun⟩ :=
            run_normalize hinner (n := .opened 1 none) rfl
          rw [eq_cons_of_inner? hinner, Nesting.run_append] at h
          rw [hbody, List.append_assoc]
          refine .interpolation (s := .char ' ' :: body ++ interpolationClose) ?_
          rw [Nesting.run_append, hrun]
          exact (run_close_reset _).1 h

/-- The expression of an interpolation that ends can be read off it. -/
theorem inner?_of_closed {literal : Text}
    (h : Lexeme.Closed .interpolation literal) :
    ∃ expr, inner? literal = some expr := by
  cases h with
  | @interpolation s h =>
      obtain ⟨body, rfl⟩ := Nesting.last_two_of_run h
      have hend : (body ++
        interpolationClose).endsWith interpolationClose = true :=
        List.isSuffixOf_iff_suffix.mpr (List.suffix_append _ _)
      have hafter : after? interpolationOpen
        (.char '\x7b' :: .char '\x7b' :: (body ++ interpolationClose)) =
          some (body ++ interpolationClose) := rfl
      exact ⟨_, by rw [inner?, hafter]; simp only [hend, if_true]; rfl⟩

/-- A brace that comes to stand before a rewritten interpolation becomes part of
it: the space behind the marker keeps it from counting. -/
theorem closed_brace_normalize {literal : Text}
    (h : Lexeme.Closed .interpolation (normalize literal)) :
    Lexeme.Closed .interpolation (.char '\x7b' :: normalize literal) := by
  obtain ⟨expr, hinner⟩ : ∃ expr, inner? literal = some expr := by
    cases hinner : inner? literal with
    | some expr => exact ⟨expr, rfl⟩
    | none =>
        -- then it is left alone, and lacks its end
        have hself : normalize literal = literal := by simp [normalize, hinner]
        obtain ⟨expr, hsome⟩ := inner?_of_closed (hself ▸ h)
        rw [hinner] at hsome
        cases hsome
  obtain ⟨body, hbody, -⟩ := run_normalize hinner (n := .opened 1 none) rfl
  rw [hbody] at h ⊢
  cases h with
  | interpolation hrun => exact .interpolation hrun

/-- An interpolation that runs on still does when it is rewritten. -/
theorem running_normalize {literal : Text}
    (h : Lexeme.Running .interpolation literal) :
    Lexeme.Running .interpolation (normalize literal) := by
  cases hinner : inner? literal with
  | none => simpa [normalize, hinner] using h
  | some expr =>
      cases h with
      | @interpolation s depth half h =>
          obtain ⟨body, hbody, hrun⟩ :=
            run_normalize hinner (n := .opened 1 none) rfl
          rw [eq_cons_of_inner? hinner, Nesting.run_append] at h
          obtain ⟨depth', half', hend⟩ := (run_close_reset _).2 ⟨depth, half, h⟩
          rw [hbody, List.append_assoc]
          refine .interpolation (s := .char ' ' :: body ++ interpolationClose)
            (?_ : _ = Nesting.opened depth' half')
          rw [Nesting.run_append, hrun]
          exact hend

/-- A rewritten interpolation ends in a glyph that is not blank if the
interpolation does. -/
theorem last_normalize {literal : Text}
    (h : ∀ r ∈ literal.getLast?, r.isBlank = false) :
    ∀ r ∈ (normalize literal).getLast?, r.isBlank = false := by
  cases hinner : inner? literal with
  | none => simpa [normalize, hinner] using h
  | some expr =>
      obtain ⟨body, hbody, -⟩ := run_normalize hinner (n := .opened 1 none) rfl
      have hclose : interpolationClose.getLast? = some (.char '\x7d') := rfl
      intro r hr
      rw [hbody, List.getLast?_append, hclose] at hr
      cases hr
      rfl

end TemplateFormat.Layout.Interpolation
