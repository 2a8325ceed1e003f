import TemplateFormat.Proofs.Blanks
import TemplateFormat.Layout.SourceIndex

/-!
# The keys of the source index

The index of a source enters each element that a merge can rebuild under a key, its
squashed source, and keeps the first one where several have the same key.

* `squash_eq` — keys look at the glyphs that are not blank only;
* `FirstTable.Holds`, `FirstTable.holds_setFirst` — a table that gives the first of the
  elements entered under a key;
* `SourceIndex.holds_byKey` — the table of keys is one;
* `SourceIndex.written_of_lookup`, `SourceIndex.Finds.exists_first` — what is found under its
  key is answered by the element that is found, the first one with that key.
-/

namespace TemplateFormat.Layout

open Text Markup

/-- Squashing looks at the glyphs that are not blank only. -/
theorem squash_eq (s : Text) : s.squash = (strip s).map Glyph.lower := by
  induction s with
  | nil => rfl
  | cons r s ih =>
      cases hr : r.isBlank with
      | true => rw [strip_cons_of_blank s hr, ← ih]; simp [squash, hr]
      | false => rw [strip_cons_of_ink s hr, List.map_cons, ← ih]; simp [squash, hr]

/-! ## The first element under a key -/

namespace FirstTable

/-- The table gives the first of the elements entered under a key, if there is one. -/
def Holds (table : FirstTable) (entered : Text → Element → Prop) : Prop :=
  ∀ key, match table.lookup key with
    | some first => entered key first ∧ ∀ e, entered key e → first.start ≤ e.start
    | none => ∀ e, ¬entered key e

theorem Holds.congr {table : FirstTable} {entered entered' : Text → Element → Prop}
    (h : table.Holds entered) (hiff : ∀ key e, entered key e ↔ entered' key e) :
    table.Holds entered' := by
  have heq : entered = entered' := by
    funext key e
    exact propext (hiff key e)
  exact heq ▸ h

/-- Entering an element changes what is found under its key only. -/
theorem lookup_setFirst (key : Text) (e : Element) (table : FirstTable) (k : Text) :
    (table.setFirst key e).lookup k =
      if k = key then
        some (match table.lookup key with
          | some first => if e.start < first.start then e else first
          | none => e)
      else table.lookup k := by
  induction table with
  | nil =>
      by_cases hk : k = key
      · simp [setFirst, hk]
      · have hother : (k == key) = false := beq_eq_false_iff_ne.mpr hk
        simp [setFirst, List.lookup_cons, hother, hk]
  | cons entry table ih =>
      obtain ⟨name, first⟩ := entry
      by_cases hname : name = key
      · by_cases hk : k = key
        · simp [setFirst, hname, hk]
        · have hother : (k == key) = false := beq_eq_false_iff_ne.mpr hk
          simp [setFirst, List.lookup_cons, hname, hother, hk]
      · have hkey : (key == name) = false := beq_eq_false_iff_ne.mpr (Ne.symm hname)
        rw [setFirst, if_neg hname]
        simp only [List.lookup_cons, hkey]
        by_cases hk : k = name
        · simp [hk, hname]
        · have hother : (k == name) = false := beq_eq_false_iff_ne.mpr hk
          simp only [hother]
          exact ih

/-- **Entering an element** keeps the first one under each key. -/
theorem holds_setFirst {table : FirstTable} {entered : Text → Element → Prop}
    (h : table.Holds entered) (key : Text) (e : Element) :
    (table.setFirst key e).Holds fun k x => entered k x ∨ (k = key ∧ x = e) := by
  intro k
  have hk := h k
  rw [lookup_setFirst]
  by_cases hkey : k = key
  · subst hkey
    rw [if_pos rfl]
    cases hlookup : table.lookup k with
    | none =>
        rw [hlookup] at hk
        refine ⟨.inr ⟨rfl, rfl⟩, ?_⟩
        rintro x (hx | ⟨-, rfl⟩)
        · exact absurd hx (hk x)
        · exact Nat.le_refl _
    | some first =>
        rw [hlookup] at hk
        obtain ⟨hfirst, hleast⟩ := hk
        dsimp only
        split
        · next hearlier =>
            refine ⟨.inr ⟨rfl, rfl⟩, ?_⟩
            rintro x (hx | ⟨-, rfl⟩)
            · exact Nat.le_trans (Nat.le_of_lt hearlier) (hleast x hx)
            · exact Nat.le_refl _
        · next hlater =>
            refine ⟨.inl hfirst, ?_⟩
            rintro x (hx | ⟨-, rfl⟩)
            · exact hleast x hx
            · exact Nat.le_of_not_lt hlater
  · rw [if_neg hkey]
    cases hlookup : table.lookup k with
    | none =>
        rw [hlookup] at hk
        rintro x (hx | ⟨hsame, -⟩)
        · exact hk x hx
        · exact hkey hsame
    | some first =>
        rw [hlookup] at hk
        refine ⟨.inl hk.1, ?_⟩
        rintro x (hx | ⟨hsame, -⟩)
        · exact hk.2 x hx
        · exact absurd hsame hkey

end FirstTable

/-- Whether an element is entered under a key: a merge can reach its closing tag, and
the key is its squashed source. -/
def Element.HasKey (key : Text) (e : Element) : Prop :=
  e.isReachable = true ∧ e.whole.squash = key

namespace SourceIndex

/-- Entering elements one after the other enters them all. -/
theorem holds_foldl (es : List Element) {ix : SourceIndex} {entered : Text → Element → Prop}
    (h : ix.byKey.Holds entered) :
    (es.foldl add ix).byKey.Holds fun key e => entered key e ∨ (e ∈ es ∧ e.HasKey key) := by
  induction es generalizing ix entered with
  | nil => simpa using h
  | cons first es ih =>
      rw [List.foldl_cons]
      by_cases hreach : first.isReachable = true
      · have hfirst : (ix.add first).byKey.Holds fun k x =>
            entered k x ∨ (k = first.whole.squash ∧ x = first) := by
          simp only [add, hreach, if_true]
          exact FirstTable.holds_setFirst h _ _
        refine (ih hfirst).congr fun key e => ?_
        rw [List.mem_cons, or_and_right, or_assoc]
        have hone : (key = first.whole.squash ∧ e = first) ↔ (e = first ∧ e.HasKey key) := by
          constructor
          · rintro ⟨rfl, rfl⟩
            exact ⟨rfl, hreach, rfl⟩
          · rintro ⟨rfl, -, rfl⟩
            exact ⟨rfl, rfl⟩
        rw [hone]
      · have hsame : (ix.add first).byKey = ix.byKey := by simp [add, hreach]
        refine (ih (hsame ▸ h)).congr fun key e => ?_
        have hnone : ¬(e = first ∧ e.HasKey key) := by
          rintro ⟨rfl, hkey, -⟩
          exact hreach hkey
        rw [List.mem_cons, or_and_right, or_iff_right hnone]

/-- **The table of keys** gives the first element of the source under each key. -/
theorem holds_byKey (source : Text) (tokens : List Token) :
    (build source tokens).byKey.Holds fun key e =>
      e ∈ Element.all source tokens ∧ e.HasKey key := by
  have hempty : (SourceIndex.byKey {}).Holds fun _ _ => False := fun key e h => h
  refine (holds_foldl (Element.all source tokens) hempty).congr fun key e => ?_
  rw [false_or]

/-- Whether a line is answered under its key. -/
def Finds (ix : SourceIndex) (line : Text) : Prop :=
  strip line ≠ [] ∧ ∃ first, ix.byKey.lookup line.squash = some first

/-- A line that is found under its key is answered by the element that is found, and
nothing is remembered. -/
theorem written_of_lookup {ix : SourceIndex} {line : Text} {first : Element}
    (hink : strip line ≠ []) (h : ix.byKey.lookup line.squash = some first) (memo : Memo) :
    ix.written line memo = (Written.ofContent first.content, memo) := by
  have hne : line.trim.isEmpty = false := by
    cases hempty : line.trim.isEmpty with
    | false => rfl
    | true =>
        rw [← strip_trim, List.isEmpty_iff.mp hempty] at hink
        exact absurd rfl hink
  have hkey : line.trim.squash = line.squash := by rw [squash_eq, strip_trim, squash_eq]
  rw [written]
  simp only [hne, hkey, h, Bool.false_eq_true, if_false]

/-- **A line that is found is answered by the first element** of the source that has its
key, whatever is remembered. -/
theorem Finds.exists_first {source line : Text} {tokens : List Token}
    (h : (build source tokens).Finds line) :
    ∃ first ∈ Element.all source tokens, first.HasKey line.squash ∧
      (∀ e ∈ Element.all source tokens, e.HasKey line.squash → first.start ≤ e.start) ∧
      ∀ memo, (build source tokens).written line memo =
        (Written.ofContent first.content, memo) := by
  obtain ⟨hink, first, hlookup⟩ := h
  have hholds := holds_byKey source tokens line.squash
  rw [hlookup] at hholds
  obtain ⟨⟨hmem, hkey⟩, hleast⟩ := hholds
  exact ⟨first, hmem, hkey, fun e he hkey => hleast e ⟨he, hkey⟩, written_of_lookup hink hlookup⟩

end SourceIndex

end TemplateFormat.Layout
