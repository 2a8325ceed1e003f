import TemplateFormat.Proofs.StartTags

/-!
# What the index of a source holds

Elements are found in the order of their closing tags, from a stack of start tags and over
markup that need not be balanced.  Still they lie in the source as one expects: each tag is in
one element at most, elements of one name are disjoint or one stands in the content of the
other, and the tables of the index list exactly the elements, in the order of their start
tags.

* `Element.closings_sublist`, `Element.nested_pairFrom` — what the stack leaves of the order
  of the tags;
* `NameTable.lookup_add`, `SourceIndex.lookup_byName` — the elements under a name;
* `FirstTable.Holds.lookup_eq_some_iff` — the first element under a key;
* `represents_build` — all of it for the index of a source.
-/

namespace TemplateFormat.Layout

open Text Markup

namespace Placed

/-- The first token ends before the second one starts. -/
def Before (a b : Placed) : Prop := a.token.stop ≤ b.token.pos

/-- Placed tokens stand in the order of the source. -/
theorem pairwise_before (source : Text) :
    (all source (Token.scan source)).Pairwise Before := by
  have hseparated := (Token.spans_scan source).separated
  rwa [← map_token 0 0 source (Token.scan source), List.pairwise_map] at hseparated

end Placed

namespace Element

/-- Closing tags are taken in their order, each once at most. -/
theorem closings_sublist (unclosed rest : List Placed) :
    ((pairFrom unclosed rest).map closing).Sublist rest := by
  induction rest generalizing unclosed with
  | nil => exact .slnil
  | cons p rest ih =>
      rw [pairFrom]
      split
      · exact (ih _).cons p
      · split
        · split
          · exact (ih _).cons_cons p
          · exact (ih _).cons p
        · exact (ih _).cons p

/-- **Elements of one name** found one after the other are disjoint, or the later one has the
earlier one in its content: its start tag waited below on the stack. -/
theorem nested_pairFrom {unclosed rest : List Placed}
    (h : (unclosed.reverse ++ rest).Pairwise Placed.Before) :
    (pairFrom unclosed rest).Pairwise fun e e' => e.name = e'.name →
      e.stop ≤ e'.start ∨ (e'.innerStart ≤ e.start ∧ e.stop ≤ e'.innerStop) := by
  induction rest generalizing unclosed with
  | nil => exact .nil
  | cons p rest ih =>
      have hskip : (unclosed.reverse ++ rest).Pairwise Placed.Before :=
        h.sublist ((List.sublist_cons_self p rest).append_left _)
      rw [pairFrom]
      split
      · exact ih (by simpa using h)
      · split
        · split
          · next opening hfind =>
              obtain ⟨front, back, rfl, hname, hother, herase⟩ := stack_of_find? hfind
              rw [herase]
              have hleft : ((front ++ back).reverse ++ rest).Pairwise Placed.Before := by
                refine hskip.sublist (List.Sublist.append_right ?_ rest)
                exact ((List.sublist_cons_self opening back).append_left front).reverse
              refine .cons (fun e' he' hsame => ?_) (ih hleft)
              obtain ⟨hopening, hclosing⟩ := placed_of_mem he'
              rw [List.pairwise_append] at h
              obtain ⟨hstack, hrest, -⟩ := h
              have hbehind : ∀ q ∈ rest, Placed.Before p q := (List.pairwise_cons.mp hrest).1
              rcases hopening with hopening | hopening
              · -- a start tag of the name that is left on the stack stands below
                have hequal : opening.token.name = e'.opening.token.name := hsame
                have hbelow : e'.opening ∈ back := by
                  rcases List.mem_append.mp hopening with hfront | hback
                  · exact absurd (hequal.symm.trans hname) (hother _ hfront)
                  · exact hback
                rw [List.reverse_append, List.reverse_cons, List.append_assoc,
                  List.pairwise_append] at hstack
                exact .inr ⟨hstack.2.2 _ (List.mem_reverse.mpr hbelow) opening (by simp),
                  hbehind _ hclosing⟩
              · exact .inl (hbehind _ hopening)
          · exact ih hskip
        · exact ih hskip

end Element

/-! ## The elements under a name -/

/-- Entering an element changes what is found under its name only. -/
theorem NameTable.lookup_add (e : Element) (table : NameTable) (name : Text) :
    (table.add e).lookup name =
      if name = e.name then some (e :: (table.lookup name).getD []) else table.lookup name := by
  induction table with
  | nil =>
      by_cases hname : name = e.name
      · simp [add, hname]
      · have hother : (name == e.name) = false := beq_eq_false_iff_ne.mpr hname
        simp [add, List.lookup_cons, hother, hname]
  | cons entry table ih =>
      obtain ⟨key, es⟩ := entry
      by_cases hkey : key = e.name
      · by_cases hname : name = e.name
        · simp [add, hkey, hname]
        · have hother : (name == e.name) = false := beq_eq_false_iff_ne.mpr hname
          simp [add, List.lookup_cons, hkey, hother, hname]
      · rw [add, if_neg hkey]
        simp only [List.lookup_cons]
        by_cases hname : name = key
        · subst hname
          simp [hkey]
        · have hother : (name == key) = false := beq_eq_false_iff_ne.mpr hname
          simp only [hother]
          exact ih

namespace SourceIndex

/-- Entering elements one after the other lists each under its name, the latest first. -/
theorem lookup_byName_foldl (es : List Element) (ix : SourceIndex) (name : Text) :
    ((es.foldl add ix).byName.lookup name).getD [] =
      (es.filter (·.name == name)).reverse ++ (ix.byName.lookup name).getD [] := by
  induction es generalizing ix with
  | nil => rfl
  | cons e es ih =>
      have hadd : ((ix.add e).byName.lookup name).getD [] =
          (if e.name == name then [e] else []) ++ (ix.byName.lookup name).getD [] := by
        rw [add, NameTable.lookup_add]
        by_cases hname : name = e.name
        · simp [hname]
        · have hother : (e.name == name) = false := beq_eq_false_iff_ne.mpr (Ne.symm hname)
          simp [hname, hother]
      rw [List.foldl_cons, ih, hadd, ← List.append_assoc]
      cases hname : e.name == name <;> simp [hname]

/-- Sorting a table keeps the elements under each name. -/
theorem lookup_sorted (ix : SourceIndex) (name : Text) :
    (ix.sorted.byName.lookup name).getD [] =
      ((ix.byName.lookup name).getD []).mergeSort fun a b => a.start ≤ b.start := by
  simp only [sorted]
  induction ix.byName with
  | nil => simp
  | cons entry table ih =>
      obtain ⟨key, es⟩ := entry
      rw [List.map_cons, List.lookup_cons, List.lookup_cons]
      cases hname : name == key with
      | true => rfl
      | false => exact ih

/-- **The elements under a name** are the elements of that name, in the order of their
start. -/
theorem lookup_byName (source : Text) (tokens : List Token) (name : Text) :
    ((build source tokens).byName.lookup name).getD [] =
      ((Element.all source tokens).filter (·.name == name)).reverse.mergeSort
        fun a b => a.start ≤ b.start := by
  rw [build, lookup_sorted, lookup_byName_foldl]
  simp

end SourceIndex

/-- **The first element under a key** is found there, where no two elements start at one
place. -/
theorem FirstTable.Holds.lookup_eq_some_iff {table : FirstTable}
    {entered : Text → Element → Prop} (h : table.Holds entered)
    (hstart : ∀ key e e', entered key e → entered key e' → e.start = e'.start → e = e')
    {key : Text} {first : Element} :
    table.lookup key = some first ↔
      entered key first ∧ ∀ e, entered key e → first.start ≤ e.start := by
  have hkey := h key
  cases hlookup : table.lookup key with
  | none =>
      rw [hlookup] at hkey
      constructor
      · rintro ⟨⟩
      · exact fun hfirst => absurd hfirst.1 (hkey first)
  | some found =>
      rw [hlookup] at hkey
      obtain ⟨hfound, hleast⟩ := hkey
      constructor
      · rintro ⟨⟩
        exact ⟨hfound, hleast⟩
      · rintro ⟨hfirst, hleast'⟩
        have hequal := Nat.le_antisymm (hleast first hfirst) (hleast' found hfound)
        rw [hstart key found first hfound hfirst hequal]

/-! ## The index of a source -/

namespace Element

/-- The source of a start tag is the part between its ends. -/
theorem openingTag_eq {source : Text} {e : Element} (h : e ∈ all source (Token.scan source)) :
    e.openingTag = source.slice e.start e.innerStart := by
  obtain ⟨hopening, -⟩ := placed_of_mem h
  have hmem : e.opening ∈ Placed.allFrom 0 0 source (Token.scan source) := by
    rcases hopening with hnil | hmem
    · cases hnil
    · exact hmem
  rw [openingTag, (Placed.head_eq (Token.spans_scan source) [] rfl hmem).1]
  rfl

/-- The tags of an element stand one after the other in the source. -/
theorem offsets_of_mem {source : Text} {e : Element} (h : e ∈ all source (Token.scan source)) :
    e.start < e.innerStart ∧ e.innerStart ≤ e.innerStop ∧ e.innerStop < e.stop ∧
      e.stop ≤ source.width := by
  obtain ⟨before, inner, rest, htokens, -⟩ := exists_tokens h
  have hopening : e.opening.token ∈ Token.scan source := by simp [htokens]
  have hclosing : e.closing.token ∈ Token.scan source := by simp [htokens]
  have hseparated := (Token.spans_scan source).separated
  rw [htokens, List.pairwise_append] at hseparated
  have hbetween := (List.pairwise_cons.mp hseparated.2.1).1 e.closing.token (by simp)
  obtain ⟨front, span, back, hsource, -, hpos, hstop, -⟩ :=
    (Token.spans_scan source).exists_span hclosing
  have hwidth : source.width = front.width + span.width + back.width := by
    rw [hsource, width_append, width_append]
  refine ⟨Token.pos_lt_stop hopening, hbetween, Token.pos_lt_stop hclosing, ?_⟩
  rw [stop]
  omega

/-- A tag is in one element at most, and the elements come in the order of their closing
tags. -/
theorem pairwise_tags (source : Text) :
    (all source (Token.scan source)).Pairwise fun e e' =>
      e.opening.token ≠ e'.opening.token ∧ e.closing.token ≠ e'.closing.token ∧
        e.stop ≤ e'.innerStop := by
  have hplaced := Placed.pairwise_before source
  have hstarts : (all source (Token.scan source)).Pairwise fun e e' => e.start ≠ e'.start :=
    List.pairwise_map.mp (nodup_start source)
  have hclosings : (all source (Token.scan source)).Pairwise fun e e' =>
      Placed.Before e.closing e'.closing :=
    List.pairwise_map.mp (hplaced.sublist (closings_sublist [] _))
  refine (hstarts.and hclosings).imp_of_mem fun {e e'} he _ hboth => ?_
  obtain ⟨hstart, hclosing⟩ := hboth
  refine ⟨fun hsame => hstart (congrArg Token.pos hsame), fun hsame => ?_, hclosing⟩
  have hspan := (offsets_of_mem he).2.2.1
  rw [innerStop, stop, hsame] at hspan
  rw [Placed.Before, hsame] at hclosing
  omega

end Element

/-- What an index promises of a source with its tokens, where `elements` are the elements that
were entered, in the order in which they were. -/
structure SourceIndex.Represents (ix : SourceIndex) (source : Text) (tokens : List Token)
    (elements : List Element) : Prop where
  /-- The tags of an element are two tokens, with the content between them. -/
  tags : ∀ e ∈ elements, e.opening.token ∈ tokens ∧ e.closing.token ∈ tokens
  offsets : ∀ e ∈ elements, e.start < e.innerStart ∧ e.innerStart ≤ e.innerStop ∧
    e.innerStop < e.stop ∧ e.stop ≤ source.width
  /-- A tag is in one element at most. -/
  once : elements.Pairwise fun e e' =>
    e.opening.token ≠ e'.opening.token ∧ e.closing.token ≠ e'.closing.token
  /-- Elements are entered in the order of their closing tags. -/
  ordered : elements.Pairwise fun e e' => e.stop ≤ e'.innerStop
  /-- Two elements of a name are disjoint, or one stands in the content of the other. -/
  nested : ∀ e ∈ elements, ∀ e' ∈ elements, e.name = e'.name → e = e' ∨
    e.stop ≤ e'.start ∨ e'.stop ≤ e.start ∨
    (e'.innerStart ≤ e.start ∧ e.stop ≤ e'.innerStop) ∨
    (e.innerStart ≤ e'.start ∧ e'.stop ≤ e.innerStop)
  /-- A name lists its elements in the order of their start tags. -/
  byName : ∀ name, ((ix.byName.lookup name).getD []).Pairwise (fun e e' => e.start < e'.start) ∧
    ∀ e, e ∈ (ix.byName.lookup name).getD [] ↔ e ∈ elements ∧ e.name = name
  /-- A squashed start tag gives the first element that it opens. -/
  byOpening : ∀ key first, ix.byOpening.lookup key = some first ↔
    (first ∈ elements ∧ (source.slice first.start first.innerStart).squash = key) ∧
      ∀ e, e ∈ elements ∧ (source.slice e.start e.innerStart).squash = key →
        first.start ≤ e.start
  /-- A squashed element gives the first one whose closing tag a merge can reach. -/
  byKey : ∀ key first, ix.byKey.lookup key = some first ↔
    (first ∈ elements ∧ first.isReachable = true ∧
      (source.slice first.start first.stop).squash = key) ∧
      ∀ e, e ∈ elements ∧ e.isReachable = true ∧ (source.slice e.start e.stop).squash = key →
        first.start ≤ e.start

/-- The elements under a name are listed in the order of their start tags. -/
theorem SourceIndex.byName_build (source name : Text) :
    let es := ((build source (Token.scan source)).byName.lookup name).getD []
    es.Pairwise (fun e e' => e.start < e'.start) ∧
      ∀ e, e ∈ es ↔ e ∈ Element.all source (Token.scan source) ∧ e.name = name := by
  intro es
  have hes : es = ((Element.all source (Token.scan source)).filter
      (·.name == name)).reverse.mergeSort fun a b => a.start ≤ b.start :=
    lookup_byName source (Token.scan source) name
  have hperm := List.mergeSort_perm ((Element.all source (Token.scan source)).filter
    (·.name == name)).reverse fun a b => decide (a.start ≤ b.start)
  rw [← hes] at hperm
  constructor
  · have hsorted : es.Pairwise fun a b => decide (a.start ≤ b.start) = true := by
      rw [hes]
      refine List.pairwise_mergeSort ?_ ?_ _
      · intro a b c
        simp only [decide_eq_true_eq]
        exact Nat.le_trans
      · intro a b
        simp only [Bool.or_eq_true, decide_eq_true_eq]
        exact Nat.le_total _ _
    have hdistinct : es.Pairwise fun a b => a.start ≠ b.start := by
      have hnodup : (es.map Element.start).Nodup := by
        rw [(hperm.map Element.start).nodup_iff, List.map_reverse, List.nodup_reverse]
        exact (Element.nodup_start source).sublist (List.filter_sublist.map Element.start)
      exact List.pairwise_map.mp hnodup
    refine (hsorted.and hdistinct).imp fun {a b} h => ?_
    have hle := of_decide_eq_true h.1
    have hne := h.2
    omega
  · intro e
    rw [hperm.mem_iff, List.mem_reverse, List.mem_filter, beq_iff_eq]

/-- **The index of a source** holds what it promises. -/
theorem represents_build (source : Text) :
    (SourceIndex.build source (Token.scan source)).Represents source (Token.scan source)
      (Element.all source (Token.scan source)) where
  tags := by
    intro e he
    obtain ⟨before, inner, rest, htokens, -⟩ := Element.exists_tokens he
    simp [htokens]
  offsets := fun e he => Element.offsets_of_mem he
  once := (Element.pairwise_tags source).imp fun h => ⟨h.1, h.2.1⟩
  ordered := (Element.pairwise_tags source).imp fun h => h.2.2
  nested := by
    intro e he e' he' hname
    have hnested : (Element.all source (Token.scan source)).Pairwise fun e e' =>
        e.name = e'.name → e.stop ≤ e'.start ∨
          (e'.innerStart ≤ e.start ∧ e.stop ≤ e'.innerStop) :=
      Element.nested_pairFrom (by simpa using Placed.pairwise_before source)
    obtain ⟨front, back, hall⟩ := List.append_of_mem he
    rw [hall, List.pairwise_append] at hnested
    rw [hall] at he'
    rcases List.mem_append.mp he' with he' | he'
    · rcases hnested.2.2 e' he' e List.mem_cons_self hname.symm with h | h
      · exact .inr (.inr (.inl h))
      · exact .inr (.inr (.inr (.inr h)))
    · rcases List.mem_cons.mp he' with rfl | he'
      · exact .inl rfl
      · rcases (List.pairwise_cons.mp hnested.2.1).1 e' he' hname with h | h
        · exact .inr (.inl h)
        · exact .inr (.inr (.inr (.inl h)))
  byName := SourceIndex.byName_build source
  byOpening := by
    intro key first
    rw [(SourceIndex.holds_byOpening source (Token.scan source)).lookup_eq_some_iff
      fun key e e' he he' => Element.eq_of_start he.1 he'.1]
    have hsource : ∀ e, (e ∈ Element.all source (Token.scan source) ∧
        e.openingTag.squash = key) ↔ (e ∈ Element.all source (Token.scan source) ∧
        (source.slice e.start e.innerStart).squash = key) :=
      fun e => and_congr_right fun he => by rw [Element.openingTag_eq he]
    simp only [hsource]
  byKey := by
    intro key first
    rw [(SourceIndex.holds_byKey source (Token.scan source)).lookup_eq_some_iff
      fun key e e' he he' => Element.eq_of_start he.1 he'.1]
    have hsource : ∀ e, (e ∈ Element.all source (Token.scan source) ∧ e.HasKey key) ↔
        (e ∈ Element.all source (Token.scan source) ∧ e.isReachable = true ∧
        (source.slice e.start e.stop).squash = key) :=
      fun e => and_congr_right fun he => by rw [Element.HasKey, (Element.whole_eq he).1]
    simp only [hsource]

end TemplateFormat.Layout
