import Mathlib.Data.List.Induction
import TemplateFormat.Proofs.Blanks
import TemplateFormat.Storage.Disk

/-!
# Paths as lists of names

A cleaned path from the root is a list of names, none of which is empty, a dot or two dots or
holds a slash.  The functions on paths become functions on that list: the directory of a path
drops the last name, and a name that is joined to a path is added to it.

* `names`, `rooted` — the names along a path, and the path along some names;
* `exists_clean` — a path from the root that is cleaned is `rooted` of proper names;
* `dir_rooted_concat`, `join_rooted` — one name less, and one more;
* `exists_absolute` — every path seen from the root is of this form.
-/

namespace TemplateFormat.Text

/-- The parts before and behind the last occurrence of a glyph. -/
theorem cutLast?_append (sep : Glyph) (a : Text) {b : Text} (h : sep ∉ b) :
    (a ++ sep :: b).cutLast? sep = some (a, b) := by
  have hinside : ∀ r ∈ b.reverse, (r != sep) = true := by
    intro r hr
    rw [bne_iff_ne]
    intro heq
    exact h (heq ▸ List.mem_reverse.mp hr)
  have hreverse : (a ++ sep :: b).reverse = b.reverse ++ sep :: a.reverse := by simp
  unfold cutLast?
  rw [hreverse, List.dropWhile_append_of_pos hinside, List.takeWhile_append_of_pos hinside]
  simp

end TemplateFormat.Text

namespace TemplateFormat.Storage

namespace Path

open Text

/-- The names along a path. -/
def names (path : Text) : List Text := (components path).filter (!·.isEmpty)

/-- The path from the root along some names. -/
def rooted (names : List Text) : Text := .char '/' :: Text.join (text "/") names

/-- Whether a name stands in a cleaned path from the root. -/
def isProper (name : Text) : Bool :=
  !name.isEmpty && name ≠ here && name ≠ above && !name.contains (.char '/')

/-! ## Names along a path -/

/-- No component of a path holds a slash. -/
theorem slash_notMem_of_mem_components {path part : Text} (h : part ∈ components path) :
    .char '/' ∉ part := by
  unfold components splitOn at h
  induction path generalizing part with
  | nil =>
      rw [List.mem_singleton.mp h]
      exact List.not_mem_nil
  | cons r s ih =>
      rw [List.splitOnP_cons_eq_if_modifyHead] at h
      split at h
      · rcases List.mem_cons.mp h with rfl | h
        · exact List.not_mem_nil
        · exact ih h
      · next hr =>
          obtain ⟨first, rest, hsplit⟩ :=
            List.exists_cons_of_ne_nil (List.splitOnP_ne_nil (· == .char '/') s)
          rw [hsplit, List.modifyHead_cons] at h
          rw [hsplit] at ih
          rcases List.mem_cons.mp h with rfl | h
          · rw [List.mem_cons, not_or]
            refine ⟨?_, ih List.mem_cons_self⟩
            intro heq
            exact hr (by rw [← heq]; rfl)
          · exact ih (List.mem_cons_of_mem first h)

/-- The names on both sides of a slash. -/
theorem names_append_slash (a b : Text) : names (a ++ .char '/' :: b) = names a ++ names b := by
  have hsplit : components (a ++ .char '/' :: b) = components a ++ components b :=
    List.splitOn_append_cons_self a b
  rw [names, hsplit, List.filter_append]
  rfl

theorem isProper_iff {name : Text} :
    isProper name = true ↔ name ≠ [] ∧ name ≠ here ∧ name ≠ above ∧ .char '/' ∉ name := by
  simp [isProper, and_assoc]

/-- A proper name is the only one along it. -/
theorem names_of_isProper {name : Text} (h : isProper name = true) : names name = [name] := by
  obtain ⟨hne, -, -, hslash⟩ := isProper_iff.mp h
  have hwhole : components name = [name] := List.splitOn_eq_singleton hslash
  rw [names, hwhole]
  simp [hne]

/-- A path along at least one name has a slash before each. -/
theorem rooted_eq_flatMap {ns : List Text} (hne : ns ≠ []) :
    rooted ns = ns.flatMap (.char '/' :: ·) := by
  induction ns with
  | nil => exact absurd rfl hne
  | cons first rest ih =>
      cases rest with
      | nil => simp [rooted]
      | cons second rest =>
          have hrest := ih (List.cons_ne_nil second rest)
          rw [List.flatMap_cons, ← hrest, rooted, join_cons_cons, rooted]
          simp [text]

/-- The last name of a path stands behind a slash. -/
theorem rooted_concat (ns : List Text) (name : Text) :
    rooted (ns ++ [name]) = ns.flatMap (.char '/' :: ·) ++ .char '/' :: name := by
  rw [rooted_eq_flatMap (by simp), List.flatMap_append, List.flatMap_singleton]

/-- The names behind slashes are those along the path. -/
theorem names_flatMap {ns : List Text} (h : ∀ name ∈ ns, isProper name = true) :
    names (ns.flatMap (.char '/' :: ·)) = ns := by
  induction ns using List.reverseRecOn with
  | nil => rfl
  | append_singleton ns name ih =>
      have hname := h name (by simp)
      rw [List.flatMap_append, List.flatMap_singleton, names_append_slash,
        ih fun n hn => h n (List.mem_append_left _ hn), names_of_isProper hname]

/-- **The names along a path along some names** are these. -/
theorem names_rooted {ns : List Text} (h : ∀ name ∈ ns, isProper name = true) :
    names (rooted ns) = ns := by
  by_cases hne : ns = []
  · subst hne
    decide
  · rw [rooted_eq_flatMap hne, names_flatMap h]

/-- A path has at least as many glyphs as names. -/
theorem length_le_length_rooted (ns : List Text) : ns.length ≤ (rooted ns).length := by
  by_cases hne : ns = []
  · simp [hne]
  · rw [rooted_eq_flatMap hne]
    clear hne
    induction ns with
    | nil => simp
    | cons name ns ih =>
        simp only [List.flatMap_cons, List.length_cons, List.length_append]
        omega

/-! ## Cleaned paths -/

/-- An empty component adds nothing. -/
theorem foldl_push_filter (fromRoot : Bool) (stack parts : List Text) :
    parts.foldl (push fromRoot) stack =
      (parts.filter (!·.isEmpty)).foldl (push fromRoot) stack := by
  induction parts generalizing stack with
  | nil => rfl
  | cons part parts ih =>
      cases hempty : part.isEmpty with
      | true => simp [push, hempty, ih]
      | false => simp [hempty, ih]

/-- A proper name is added to the others. -/
theorem push_of_isProper {name : Text} (h : isProper name = true) (fromRoot : Bool)
    (stack : List Text) : push fromRoot stack name = name :: stack := by
  obtain ⟨hne, hhere, habove, -⟩ := isProper_iff.mp h
  simp [push, hne, hhere, habove]

theorem foldl_push_of_isProper {parts : List Text} (h : ∀ part ∈ parts, isProper part = true)
    (fromRoot : Bool) (stack : List Text) :
    parts.foldl (push fromRoot) stack = parts.reverse ++ stack := by
  induction parts generalizing stack with
  | nil => rfl
  | cons part parts ih =>
      rw [List.foldl_cons, push_of_isProper (h part List.mem_cons_self),
        ih fun p hp => h p (List.mem_cons_of_mem part hp)]
      simp

/-- From the root, a component leaves proper names. -/
theorem isProper_of_mem_push {stack : List Text} {part : Text}
    (hstack : ∀ name ∈ stack, isProper name = true) (hslash : .char '/' ∉ part) :
    ∀ name ∈ push true stack part, isProper name = true := by
  intro name hname
  unfold push at hname
  split at hname
  · exact hstack name hname
  · next hskipped =>
      simp only [Bool.or_eq_true, List.isEmpty_iff, decide_eq_true_eq, not_or] at hskipped
      split at hname
      · split at hname
        · cases hname
        · next top rest =>
            -- two dots never stand on the stack of a path from the root
            obtain ⟨-, -, hdots, -⟩ := isProper_iff.mp (hstack top List.mem_cons_self)
            rw [if_neg hdots] at hname
            exact hstack name (List.mem_cons_of_mem top hname)
      · next habove =>
          rcases List.mem_cons.mp hname with rfl | hname
          · exact isProper_iff.mpr ⟨hskipped.1, hskipped.2, habove, hslash⟩
          · exact hstack name hname

theorem isProper_of_mem_foldl {parts stack : List Text}
    (hstack : ∀ name ∈ stack, isProper name = true) (hparts : ∀ part ∈ parts, .char '/' ∉ part) :
    ∀ name ∈ parts.foldl (push true) stack, isProper name = true := by
  induction parts generalizing stack with
  | nil => exact hstack
  | cons part parts ih =>
      rw [List.foldl_cons]
      exact ih (isProper_of_mem_push hstack (hparts part List.mem_cons_self))
        fun p hp => hparts p (List.mem_cons_of_mem part hp)

/-- **A path from the root, cleaned**, runs along proper names. -/
theorem exists_clean {path : Text} (hroot : isRooted path = true) :
    ∃ ns, (∀ name ∈ ns, isProper name = true) ∧ clean path = rooted ns := by
  refine ⟨((components path).foldl (push true) []).reverse, ?_, ?_⟩
  · intro name hname
    exact isProper_of_mem_foldl (by simp) (fun part hpart => slash_notMem_of_mem_components hpart)
      name (List.mem_reverse.mp hname)
  · simp only [clean, hroot, if_true]
    rfl

/-- A path from the root along proper names is cleaned by leaving out slashes. -/
theorem clean_of_isProper {path : Text} (hroot : isRooted path = true)
    (h : ∀ name ∈ names path, isProper name = true) : clean path = rooted (names path) := by
  simp only [clean, hroot, if_true]
  rw [foldl_push_filter, ← names, foldl_push_of_isProper h, List.append_nil, List.reverse_reverse]
  rfl

/-! ## One name less, and one more -/

/-- **The directory of a path** drops its last name. -/
theorem dir_rooted_concat {ns : List Text} {name : Text}
    (h : ∀ n ∈ ns ++ [name], isProper n = true) : dir (rooted (ns ++ [name])) = rooted ns := by
  have hns : ∀ n ∈ ns, isProper n = true := fun n hn => h n (List.mem_append_left _ hn)
  obtain ⟨-, -, -, hslash⟩ := isProper_iff.mp (h name (by simp))
  have hnames : names (ns.flatMap (.char '/' :: ·) ++ text "/") = ns := by
    have hslashed := names_append_slash (ns.flatMap (.char '/' :: ·)) []
    rw [names_flatMap hns] at hslashed
    exact hslashed.trans (List.append_nil ns)
  have hroot : isRooted (ns.flatMap (.char '/' :: ·) ++ text "/") = true := by
    cases ns <;> simp [isRooted, startsWith, text]
  rw [rooted_concat, dir, cutLast?_append _ _ hslash]
  show clean (ns.flatMap (.char '/' :: ·) ++ text "/") = rooted ns
  rw [clean_of_isProper hroot (by rwa [hnames]), hnames]

/-- The directory of the root is the root. -/
theorem dir_rooted_nil : dir (rooted []) = rooted [] := by decide

/-- **A name joined to a path** is added to its names. -/
theorem join_rooted {ns : List Text} {name : Text} (h : ∀ n ∈ ns ++ [name], isProper n = true) :
    Path.join (rooted ns) name = rooted (ns ++ [name]) := by
  have hns : ∀ n ∈ ns, isProper n = true := fun n hn => h n (List.mem_append_left _ hn)
  have hname := h name (by simp)
  obtain ⟨hne, -, -, -⟩ := isProper_iff.mp hname
  have hnames : names (rooted ns ++ .char '/' :: name) = ns ++ [name] := by
    rw [names_append_slash, names_rooted hns, names_of_isProper hname]
  have hempty : name.isEmpty = false := by simpa using hne
  have hrooted : (rooted ns).isEmpty = false := rfl
  rw [Path.join, hempty, hrooted]
  show clean (rooted ns ++ .char '/' :: name) = _
  rw [clean_of_isProper (by simp [isRooted, startsWith, rooted, text]) (by rwa [hnames]), hnames]

end Path

/-- **Every path seen from the root** runs along proper names. -/
theorem Disk.exists_absolute (d : Disk) (path : Text) :
    ∃ ns, (∀ name ∈ ns, Path.isProper name = true) ∧ d.absolute path = Path.rooted ns := by
  unfold absolute Path.absolute
  split
  · next hroot => exact Path.exists_clean hroot
  · have hjoin : ∃ path', Path.isRooted path' = true ∧
        Path.join d.workingDir path = Path.clean path' := by
      cases hempty : path.isEmpty with
      | true => exact ⟨d.workingDir, rfl, by simp [Path.join, hempty, workingDir]⟩
      | false =>
          exact ⟨d.workingDir ++ .char '/' :: path, rfl, by simp [Path.join, hempty, workingDir]⟩
    obtain ⟨path', hroot, hjoin⟩ := hjoin
    rw [hjoin]
    exact Path.exists_clean hroot

end TemplateFormat.Storage
