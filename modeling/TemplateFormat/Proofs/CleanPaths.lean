import TemplateFormat.Proofs.Ancestors
import TemplateFormat.Proofs.Offsets

/-!
# Cleaned paths

A cleaned path is spelled from its parts: some steps up, of which a path from
the root has none, and proper names behind them.  Reading the spelling gives the
parts back, so that a cleaned path is its own cleaned form, and a name joined to
a path is one more part.

* `clean_eq`, `parts_spell` — a cleaned path is the spelling of its parts, and
  has these parts;
* `clean_clean`, `clean_join` — what is cleaned stays as it is;
* `join_eq_spell` — a name joined to a path is one more part;
* `foldl_join` — so are the names of a place, joined one after the other;
* `width_clean_le`, `mem_of_mem_clean` — a cleaned path is not longer, and holds
  nothing new but dots and slashes.
-/

namespace TemplateFormat.Storage

namespace Path

open Text

/-- The parts of a path once it is cleaned. -/
def parts (path : Text) : List Text := ((components path).foldl (push (isRooted path)) []).reverse

/-- The cleaned path with some parts. -/
def spell (fromRoot : Bool) (parts : List Text) : Text :=
  if fromRoot then rooted parts
  else if parts.isEmpty then here
  else Text.join (text "/") parts

/-- Whether a cleaned path can have these parts: steps up, but not from the root, and
proper names behind them. -/
def IsCleaned (fromRoot : Bool) (parts : List Text) : Prop :=
  ∃ ups names, parts = List.replicate ups above ++ names ∧
    (∀ name ∈ names, isProper name = true) ∧ (fromRoot = true → ups = 0)

/-! ## The parts of a path -/

/-- Two dots take the last name away, or go up from where there is none. -/
theorem push_above (fromRoot : Bool) (stack : List Text) : push fromRoot stack above =
    match stack with
    | [] => if fromRoot then [] else [above]
    | top :: rest => if top = above then above :: stack else rest := rfl

/-- A name is added to the others. -/
theorem push_name {name : Text} (fromRoot : Bool) (stack : List Text) (hne : name ≠ [])
    (hhere : name ≠ here) (habove : name ≠ above) : push fromRoot stack name = name :: stack := by
  simp [push, hne, hhere, habove]

/-- Going up keeps the form of the parts. -/
theorem IsCleaned.push_above {fromRoot : Bool} {stack : List Text}
    (h : IsCleaned fromRoot stack.reverse) :
    IsCleaned fromRoot (push fromRoot stack above).reverse := by
  obtain ⟨ups, names, hstack, hnames, hups⟩ := h
  rw [Path.push_above]
  cases stack with
  | nil =>
      cases fromRoot with
      | true => exact ⟨0, [], rfl, by simp, fun _ => rfl⟩
      | false => exact ⟨1, [], rfl, by simp, by simp⟩
  | cons top rest =>
      rw [List.reverse_cons] at hstack
      simp only
      rcases List.eq_nil_or_concat names with rfl | ⟨front, name, rfl⟩
      · -- only steps up so far: one more
        have hmem : top ∈ List.replicate ups above := by
          rw [← List.append_nil (List.replicate ups above), ← hstack]
          simp
        obtain ⟨hpos, rfl⟩ := List.mem_replicate.mp hmem
        rw [if_pos rfl, List.reverse_cons, List.reverse_cons, hstack]
        refine ⟨ups + 1, [], ?_, by simp, fun hroot => absurd (hups hroot) hpos⟩
        simp [List.replicate_succ']
      · -- the last name is taken away
        rw [List.concat_eq_append, ← List.append_assoc] at hstack
        obtain ⟨hrest, htop⟩ := List.append_inj' hstack rfl
        obtain rfl : top = name := List.singleton_inj.mp htop
        rw [List.concat_eq_append] at hnames
        obtain ⟨-, -, habove, -⟩ := isProper_iff.mp (hnames top (by simp))
        rw [if_neg habove]
        exact ⟨ups, front, hrest, fun n hn => hnames n (List.mem_append_left _ hn), hups⟩

/-- More proper names keep it. -/
theorem IsCleaned.append {fromRoot : Bool} {parts names : List Text}
    (h : IsCleaned fromRoot parts) (hnames : ∀ name ∈ names, isProper name = true) :
    IsCleaned fromRoot (parts ++ names) := by
  obtain ⟨ups, front, rfl, hfront, hups⟩ := h
  refine ⟨ups, front ++ names, List.append_assoc _ _ _, fun name hname => ?_, hups⟩
  rcases List.mem_append.mp hname with hname | hname
  · exact hfront name hname
  · exact hnames name hname

/-- Every component keeps it. -/
theorem IsCleaned.push {fromRoot : Bool} {stack : List Text} {part : Text}
    (h : IsCleaned fromRoot stack.reverse) (hslash : .char '/' ∉ part) :
    IsCleaned fromRoot (push fromRoot stack part).reverse := by
  by_cases hskipped : part = [] ∨ part = here
  · have hsame : Path.push fromRoot stack part = stack := by
      rcases hskipped with rfl | rfl <;> rfl
    rwa [hsame]
  · rw [not_or] at hskipped
    by_cases habove : part = above
    · rw [habove]
      exact h.push_above
    · have hpart : isProper part = true :=
        isProper_iff.mpr ⟨hskipped.1, hskipped.2, habove, hslash⟩
      rw [push_of_isProper hpart, List.reverse_cons]
      exact h.append (by simpa using hpart)

/-- **The parts of a path** are those of a cleaned path. -/
theorem isCleaned_parts (path : Text) : IsCleaned (isRooted path) (parts path) := by
  have hfold : ∀ (components stack : List Text), (∀ part ∈ components, .char '/' ∉ part) →
      IsCleaned (isRooted path) stack.reverse →
      IsCleaned (isRooted path) (components.foldl (push (isRooted path)) stack).reverse := by
    intro components
    induction components with
    | nil => exact fun _ _ hstack => hstack
    | cons part components ih =>
        intro stack hslash hstack
        exact ih _ (fun p hp => hslash p (List.mem_cons_of_mem part hp))
          (hstack.push (hslash part List.mem_cons_self))
  exact hfold _ [] (fun part hpart => slash_notMem_of_mem_components hpart)
    ⟨0, [], rfl, by simp, fun _ => rfl⟩

/-- The parts of a cleaned path are names or two dots. -/
theorem IsCleaned.mem {fromRoot : Bool} {parts : List Text} (h : IsCleaned fromRoot parts)
    {part : Text} (hpart : part ∈ parts) : part ≠ [] ∧ part ≠ here ∧ .char '/' ∉ part := by
  obtain ⟨ups, names, rfl, hnames, -⟩ := h
  rcases List.mem_append.mp hpart with hpart | hpart
  · rw [(List.mem_replicate.mp hpart).2]
    decide
  · obtain ⟨hne, hhere, -, hslash⟩ := isProper_iff.mp (hnames part hpart)
    exact ⟨hne, hhere, hslash⟩

/-- Put on a stack one after the other, the parts of a cleaned path stay as they are. -/
theorem IsCleaned.foldl_push {fromRoot : Bool} {parts : List Text}
    (h : IsCleaned fromRoot parts) : parts.foldl (Path.push fromRoot) [] = parts.reverse := by
  obtain ⟨ups, names, rfl, hnames, hups⟩ := h
  have hrise : ∀ n, (List.replicate n above).foldl (Path.push false) [] =
      List.replicate n above := by
    intro n
    induction n with
    | zero => rfl
    | succ n ih =>
        rw [List.replicate_succ', List.foldl_append, ih]
        cases n with
        | zero => rfl
        | succ n =>
            rw [← List.replicate_succ', List.foldl_cons, List.replicate_succ]
            rfl
  have hfirst : (List.replicate ups above).foldl (Path.push fromRoot) [] =
      List.replicate ups above := by
    cases fromRoot with
    | false => exact hrise ups
    | true =>
        rw [hups rfl]
        rfl
  rw [List.foldl_append, hfirst, foldl_push_of_isProper hnames, List.reverse_append,
    List.reverse_replicate]

/-! ## Spelling parts and reading them -/

/-- Joined parts are the components of what they make. -/
theorem components_join {parts : List Text} (hne : parts ≠ [])
    (hslash : ∀ part ∈ parts, .char '/' ∉ part) :
    components (Text.join (text "/") parts) = parts := by
  have hsplit : List.splitOn (Glyph.char '/') ([Glyph.char '/'].intercalate parts) = parts :=
    List.splitOn_intercalate _ hslash hne
  exact hsplit

/-- A text without a slash in front does not start at the root. -/
theorem isRooted_join {fromRoot : Bool} {parts : List Text} (h : IsCleaned fromRoot parts) :
    isRooted (Text.join (text "/") parts) = false := by
  cases parts with
  | nil => rfl
  | cons part rest =>
      obtain ⟨hne, -, hslash⟩ := h.mem List.mem_cons_self
      obtain ⟨r, s, rfl⟩ := List.exists_cons_of_ne_nil hne
      have hr : r ≠ .char '/' := fun heq => hslash (heq ▸ List.mem_cons_self)
      cases rest with
      | nil => simp [isRooted, startsWith, text, List.isPrefixOf, hr.symm]
      | cons next rest =>
          rw [join_cons_cons]
          simp [isRooted, startsWith, text, List.isPrefixOf, hr.symm]

/-- **A cleaned path** is the spelling of its parts. -/
theorem clean_eq (path : Text) : clean path = spell (isRooted path) (parts path) := by
  have hparts := isCleaned_parts path
  have hempty : (Text.join (text "/") (parts path)).isEmpty = (parts path).isEmpty := by
    cases hcase : parts path with
    | nil => rfl
    | cons part rest =>
        have hne := (hparts.mem (hcase ▸ List.mem_cons_self)).1
        cases rest with
        | nil => simpa using hne
        | cons next rest => simp [join_cons_cons, text]
  unfold clean
  simp only
  rw [← parts, hempty]
  rfl

/-- A cleaned path starts at the root as the path does. -/
theorem isRooted_spell {fromRoot : Bool} {ps : List Text} (h : IsCleaned fromRoot ps) :
    isRooted (spell fromRoot ps) = fromRoot := by
  cases fromRoot with
  | true => rfl
  | false =>
      unfold spell
      rw [if_neg (by decide)]
      split
      · rfl
      · exact isRooted_join h

/-- **The parts that are read off a spelling** are those it was made of. -/
theorem parts_spell {fromRoot : Bool} {ps : List Text} (h : IsCleaned fromRoot ps) :
    parts (spell fromRoot ps) = ps := by
  have hfold : (components (spell fromRoot ps)).foldl (Path.push fromRoot) [] =
      ps.foldl (Path.push fromRoot) [] := by
    have hslash : ∀ part ∈ ps, .char '/' ∉ part := fun part hpart => (h.mem hpart).2.2
    unfold spell
    split
    · next hroot =>
        have hcut : components (rooted ps) = [] :: components (Text.join (text "/") ps) :=
          List.splitOn_append_cons_self [] _
        rw [hcut, List.foldl_cons]
        by_cases hne : ps = []
        · subst hne
          rfl
        · rw [components_join hne hslash]
          rfl
    · split
      · next hempty =>
          rw [List.isEmpty_iff.mp hempty]
          rfl
      · next hne =>
          rw [components_join (by simpa using hne) hslash]
  rw [parts, isRooted_spell h, hfold, h.foldl_push, List.reverse_reverse]

/-- The spelling of parts is cleaned. -/
theorem clean_spell {fromRoot : Bool} {ps : List Text} (h : IsCleaned fromRoot ps) :
    clean (spell fromRoot ps) = spell fromRoot ps := by
  rw [clean_eq, isRooted_spell h, parts_spell h]

/-- **A cleaned path** is its own cleaned form. -/
theorem clean_clean (path : Text) : clean (clean path) = clean path := by
  rw [clean_eq path, clean_spell (isCleaned_parts path)]

/-- What is joined is cleaned. -/
theorem clean_join {a b : Text} (h : a ≠ [] ∨ b ≠ []) :
    clean (Path.join a b) = Path.join a b := by
  unfold Path.join
  split
  · next hboth =>
      simp only [Bool.and_eq_true, List.isEmpty_iff] at hboth
      simp [hboth] at h
  · split
    · exact clean_clean b
    · split
      · exact clean_clean a
      · exact clean_clean _

/-! ## Names joined to a path -/

/-- A cleaned path is not empty. -/
theorem spell_ne_nil {fromRoot : Bool} {ps : List Text} (h : IsCleaned fromRoot ps) :
    spell fromRoot ps ≠ [] := by
  unfold spell
  split
  · exact List.cons_ne_nil _ _
  · split
    · decide
    · next hne =>
        cases ps with
        | nil => exact absurd rfl hne
        | cons part rest =>
            have hpart := (h.mem List.mem_cons_self).1
            cases rest with
            | nil => simpa using hpart
            | cons next rest => simp [join_cons_cons, hpart]

theorem clean_ne_nil (path : Text) : clean path ≠ [] := by
  rw [clean_eq]
  exact spell_ne_nil (isCleaned_parts path)

theorem join_ne_nil {a b : Text} (h : a ≠ [] ∨ b ≠ []) : Path.join a b ≠ [] := by
  rw [← clean_join h]
  exact clean_ne_nil _

/-- **A name joined to a path** is one more part. -/
theorem join_eq_spell {path name : Text} (hpath : path ≠ []) (hname : isProper name = true) :
    Path.join path name = spell (isRooted path) (parts path ++ [name]) := by
  obtain ⟨hne, -, -, hslash⟩ := isProper_iff.mp hname
  have hroot : isRooted (path ++ .char '/' :: name) = isRooted path := by
    obtain ⟨r, s, rfl⟩ := List.exists_cons_of_ne_nil hpath
    rfl
  have hwhole : components name = [name] := List.splitOn_eq_singleton hslash
  have hcut : components (path ++ .char '/' :: name) = components path ++ components name :=
    List.splitOn_append_cons_self path name
  have hparts : parts (path ++ .char '/' :: name) = parts path ++ [name] := by
    rw [parts, hroot, hcut, hwhole, List.foldl_append, List.foldl_cons, List.foldl_nil,
      push_of_isProper hname, List.reverse_cons]
    rfl
  rw [Path.join, if_neg (by simp [hpath]), if_neg (by simpa using hpath),
    if_neg (by simpa using hne), clean_eq, hroot, hparts]

variable {path : Text} {place : List Text}

/-- The names of a place, joined to a path one after the other, are further parts. -/
theorem foldl_join (hpath : path ≠ []) (hne : place ≠ [])
    (hplace : ∀ name ∈ place, isProper name = true) :
    place.foldl Path.join path = spell (isRooted path) (parts path ++ place) := by
  induction place generalizing path with
  | nil => exact absurd rfl hne
  | cons name rest ih =>
      have hname := hplace name List.mem_cons_self
      have hcleaned : IsCleaned (isRooted path) (parts path ++ [name]) :=
        (isCleaned_parts path).append (by simpa using hname)
      rw [List.foldl_cons]
      by_cases hrest : rest = []
      · subst hrest
        exact join_eq_spell hpath hname
      · have hjoined : Path.join path name ≠ [] := by
          rw [join_eq_spell hpath hname]
          exact spell_ne_nil hcleaned
        rw [ih hjoined hrest fun n hn => hplace n (List.mem_cons_of_mem name hn),
          join_eq_spell hpath hname, isRooted_spell hcleaned, parts_spell hcleaned,
          List.append_assoc]
        rfl

/-- The parts of a path with the names of a place joined to it. -/
theorem parts_foldl_join (hpath : path ≠ []) (hplace : ∀ name ∈ place, isProper name = true) :
    parts (place.foldl Path.join path) = parts path ++ place := by
  by_cases hne : place = []
  · subst hne
    simp
  · rw [foldl_join hpath hne hplace, parts_spell ((isCleaned_parts path).append hplace)]

/-- **Places below a path** are told apart by their paths. -/
theorem foldl_join_inj {place' : List Text} (hpath : path ≠ [])
    (hplace : ∀ name ∈ place, isProper name = true)
    (hplace' : ∀ name ∈ place', isProper name = true)
    (h : place.foldl Path.join path = place'.foldl Path.join path) : place = place' := by
  have hparts := congrArg parts h
  rw [parts_foldl_join hpath hplace, parts_foldl_join hpath hplace'] at hparts
  exact List.append_cancel_left hparts

/-- The path of a place below a path is cleaned, and not empty. -/
theorem clean_foldl_join (hpath : path ≠ []) (hne : place ≠ [])
    (hplace : ∀ name ∈ place, isProper name = true) :
    place.foldl Path.join path ≠ [] ∧
      clean (place.foldl Path.join path) = place.foldl Path.join path := by
  have hcleaned := (isCleaned_parts path).append hplace
  rw [foldl_join hpath hne hplace]
  exact ⟨spell_ne_nil hcleaned, clean_spell hcleaned⟩

/-- The path of a place below a path is another path. -/
theorem foldl_join_ne (hpath : path ≠ []) (hne : place ≠ [])
    (hplace : ∀ name ∈ place, isProper name = true) : place.foldl Path.join path ≠ path := by
  intro heq
  have hparts := parts_foldl_join hpath hplace
  rw [heq] at hparts
  exact hne (List.self_eq_append_right.mp hparts)

theorem width_spell_lt {fromRoot : Bool} {ps : List Text} {name : Text} (hne : ps ≠ []) :
    (spell fromRoot ps).width < (spell fromRoot (ps ++ [name])).width := by
  have hmore : (Text.join (text "/") ps).width < (Text.join (text "/") (ps ++ [name])).width := by
    rw [join_append_singleton _ _ hne, width_append, width_append]
    have hslash : (text "/").width = 1 := by decide
    omega
  unfold spell
  cases fromRoot with
  | true => simpa [rooted] using hmore
  | false => simpa [hne] using hmore

/-- **One more name** makes the path of a place longer. -/
theorem width_foldl_join_lt {name : Text} (hpath : path ≠ []) (hne : place ≠ [])
    (hplace : ∀ n ∈ place ++ [name], isProper n = true) :
    (place.foldl Path.join path).width < ((place ++ [name]).foldl Path.join path).width := by
  have hfront : ∀ n ∈ place, isProper n = true := fun n hn => hplace n (List.mem_append_left _ hn)
  rw [foldl_join hpath hne hfront, foldl_join hpath (by simp) hplace, ← List.append_assoc]
  exact width_spell_lt (by simp [hne])

/-! ## Cleaning a path adds nothing to it -/

/-- The bytes of some parts, a slash behind each. -/
def breadth : List Text → Nat
  | [] => 0
  | p :: ps => p.width + 1 + breadth ps

theorem breadth_append (ps qs : List Text) : breadth (ps ++ qs) = breadth ps + breadth qs := by
  induction ps with
  | nil => simp [breadth]
  | cons p ps ih =>
      rw [List.cons_append, breadth, breadth, ih]
      omega

theorem breadth_reverse (ps : List Text) : breadth ps.reverse = breadth ps := by
  induction ps with
  | nil => rfl
  | cons p ps ih =>
      rw [List.reverse_cons, breadth_append, ih, breadth, breadth, breadth]
      omega

theorem width_join {ps : List Text} (hne : ps ≠ []) :
    (Text.join (text "/") ps).width + 1 = breadth ps := by
  induction ps with
  | nil => exact absurd rfl hne
  | cons part rest ih =>
      cases rest with
      | nil => simp [breadth]
      | cons next rest =>
          have hslash : (text "/").width = 1 := by decide
          have hrest := ih (List.cons_ne_nil next rest)
          rw [join_cons_cons, width_append, width_append, breadth]
          omega

/-- The components of a path make up the path. -/
theorem join_components (path : Text) : Text.join (text "/") (components path) = path :=
  List.intercalate_splitOn (Glyph.char '/')

theorem components_ne_nil (path : Text) : components path ≠ [] := List.splitOnP_ne_nil _ _

theorem breadth_components (path : Text) : breadth (components path) = path.width + 1 := by
  rw [← width_join (components_ne_nil path), join_components]

/-- What a component does to the stack: nothing, it is added, or the last name is taken
away. -/
theorem push_cases (fromRoot : Bool) (stack : List Text) (part : Text) :
    push fromRoot stack part = stack ∨ push fromRoot stack part = part :: stack ∨
      ∃ top, stack = top :: push fromRoot stack part := by
  by_cases hskipped : part = [] ∨ part = here
  · rcases hskipped with rfl | rfl
    · exact .inl rfl
    · exact .inl rfl
  · rw [not_or] at hskipped
    by_cases habove : part = above
    · rw [habove, push_above]
      cases stack with
      | nil =>
          cases fromRoot with
          | true => exact .inl rfl
          | false => exact .inr (.inl rfl)
      | cons top rest =>
          by_cases htop : top = above
          · exact .inr (.inl (if_pos htop))
          · exact .inr (.inr ⟨top, congrArg (top :: ·) (if_neg htop).symm⟩)
    · exact .inr (.inl (push_name fromRoot stack hskipped.1 hskipped.2 habove))

/-- What a component leaves on the stack was there or is the component. -/
theorem mem_push {fromRoot : Bool} {stack : List Text} {part p : Text}
    (h : p ∈ push fromRoot stack part) : p ∈ stack ∨ p = part := by
  rcases push_cases fromRoot stack part with heq | heq | ⟨top, heq⟩
  · rw [heq] at h
    exact .inl h
  · rw [heq] at h
    exact (List.mem_cons.mp h).symm
  · rw [heq]
    exact .inl (List.mem_cons_of_mem top h)

/-- The parts of a path are among its components. -/
theorem mem_components_of_mem_parts {path part : Text} (h : part ∈ parts path) :
    part ∈ components path := by
  have hfold : ∀ (cs stack : List Text), part ∈ cs.foldl (push (isRooted path)) stack →
      part ∈ stack ∨ part ∈ cs := by
    intro cs
    induction cs with
    | nil => exact fun _ => .inl
    | cons c cs ih =>
        intro stack hmem
        rcases ih _ hmem with hmem | hmem
        · rcases mem_push hmem with hmem | rfl
          · exact .inl hmem
          · exact .inr List.mem_cons_self
        · exact .inr (List.mem_cons_of_mem c hmem)
  exact (hfold _ [] (List.mem_reverse.mp h)).resolve_left List.not_mem_nil

/-- A component adds no more to the stack than it is wide. -/
theorem breadth_push_le (fromRoot : Bool) (stack : List Text) (part : Text) :
    breadth (push fromRoot stack part) ≤ breadth stack + (part.width + 1) := by
  rcases push_cases fromRoot stack part with heq | heq | ⟨top, heq⟩
  · rw [heq]
    omega
  · rw [heq, breadth]
    omega
  · have hcons : breadth (top :: push fromRoot stack part) =
        top.width + 1 + breadth (push fromRoot stack part) := rfl
    rw [← heq] at hcons
    omega

theorem breadth_foldl_push_le (fromRoot : Bool) (cs stack : List Text) :
    breadth (cs.foldl (push fromRoot) stack) ≤ breadth stack + breadth cs := by
  induction cs generalizing stack with
  | nil => exact Nat.le_refl _
  | cons c cs ih =>
      have hrest := ih (push fromRoot stack c)
      have hfirst := breadth_push_le fromRoot stack c
      rw [List.foldl_cons, breadth]
      omega

/-- **A cleaned path is not longer** than the path. -/
theorem width_clean_le {path : Text} (hpath : path ≠ []) : (clean path).width ≤ path.width := by
  have hpos : 0 < path.width := width_pos_of_ne_nil hpath
  have hjoin : parts path = [] ∨
      (Text.join (text "/") (parts path)).width + 1 = breadth (parts path) := by
    by_cases hnil : parts path = []
    · exact .inl hnil
    · exact .inr (width_join hnil)
  rw [clean_eq, spell]
  split
  · next hroot =>
      -- the component before the first slash adds nothing
      obtain ⟨s, rfl⟩ : ∃ s, path = .char '/' :: s := by
        obtain ⟨r, s, rfl⟩ := List.exists_cons_of_ne_nil hpath
        have hr : .char '/' = r := by simpa [isRooted, startsWith, text, List.isPrefixOf] using hroot
        exact ⟨s, by rw [hr]⟩
      have hcut : components (.char '/' :: s) = [] :: components s :=
        List.splitOn_append_cons_self [] s
      have hparts : breadth (parts (.char '/' :: s)) ≤ width s + 1 := by
        rw [parts, breadth_reverse, hcut, ← breadth_components s]
        have hfold := breadth_foldl_push_le (isRooted (.char '/' :: s)) (components s) []
        rwa [breadth, Nat.zero_add] at hfold
      have hslash : (Glyph.char '/').width = 1 := by decide
      rw [rooted, width_cons, width_cons, hslash]
      rcases hjoin with hnil | hjoin
      · simp [hnil]
      · omega
  · have hparts : breadth (parts path) ≤ path.width + 1 := by
      rw [parts, breadth_reverse, ← breadth_components path]
      have hfold := breadth_foldl_push_le (isRooted path) (components path) []
      rwa [breadth, Nat.zero_add] at hfold
    split
    · have hdot : here.width = 1 := by decide
      omega
    · next hne =>
        rcases hjoin with hnil | hjoin
        · simp [hnil] at hne
        · omega

/-- Cleaning adds dots and slashes only. -/
theorem mem_of_mem_clean {path : Text} {r : Glyph} (h : r ∈ clean path) :
    r ∈ path ∨ r = .char '/' ∨ r = .char '.' := by
  have hjoin : r ∈ Text.join (text "/") (parts path) → r ∈ path ∨ r = .char '/' := by
    intro hmem
    rcases mem_join hmem with hslash | ⟨part, hpart, hr⟩
    · exact .inr (List.mem_singleton.mp hslash)
    · have hmore := mem_join_of_mem (text "/") (mem_components_of_mem_parts hpart) hr
      rw [join_components] at hmore
      exact .inl hmore
  rw [clean_eq, spell] at h
  split at h
  · rcases List.mem_cons.mp h with rfl | h
    · exact .inr (.inl rfl)
    · exact (hjoin h).imp_right .inl
  · split at h
    · exact .inr (.inr (List.mem_singleton.mp h))
    · exact (hjoin h).imp_right .inl

/-! ## Resolving a cleaned path -/

/-- A path that ends in a name does not end in a slash. -/
theorem endsWith_slash_append (front : Text) {name : Text} (hne : name ≠ [])
    (hslash : .char '/' ∉ name) : endsWith (front ++ name) (text "/") = false := by
  rw [endsWith, Bool.eq_false_iff, Ne, List.isSuffixOf_iff_suffix]
  intro hsuffix
  have hlast := hsuffix.getLast (by decide)
  rw [List.getLast_append_of_ne_nil _ hne] at hlast
  have hmem := List.getLast_mem hne
  rw [← hlast] at hmem
  exact hslash hmem

/-- The last part of a cleaned path stands at its end. -/
theorem suffix_spell (fromRoot : Bool) (ps : List Text) (name : Text) :
    ∃ front, spell fromRoot (ps ++ [name]) = front ++ name := by
  have hjoin : ∃ front, Text.join (text "/") (ps ++ [name]) = front ++ name := by
    by_cases hps : ps = []
    · exact ⟨[], by simp [hps]⟩
    · exact ⟨_, join_append_singleton _ _ hps⟩
  obtain ⟨front, hfront⟩ := hjoin
  cases fromRoot with
  | true => exact ⟨.char '/' :: front, by simp [spell, rooted, hfront]⟩
  | false => exact ⟨front, by simp [spell, hfront]⟩

/-- The parts of a cleaned path are the names along it. -/
theorem names_spell {fromRoot : Bool} {ps : List Text} (h : IsCleaned fromRoot ps)
    (hne : ps ≠ []) : names (spell fromRoot ps) = ps := by
  have hjoin : names (Text.join (text "/") ps) = ps := by
    rw [names, components_join hne fun part hpart => (h.mem hpart).2.2]
    exact List.filter_eq_self.mpr fun part hpart => by simp [(h.mem hpart).1]
  cases fromRoot with
  | true =>
      have hcut := names_append_slash [] (Text.join (text "/") ps)
      rw [List.nil_append, hjoin] at hcut
      exact hcut
  | false => rwa [spell, if_neg (by decide), if_neg (by simpa using hne)]

end Path

namespace Disk

open Text TemplateFormat.Storage.Path

/-- **A cleaned path is resolved by its parts**, and by a dot if it has none. -/
theorem steps_spell {fromRoot : Bool} {ps : List Text} (h : IsCleaned fromRoot ps) :
    steps (spell fromRoot ps) = if ps.isEmpty then [here] else ps := by
  rcases List.eq_nil_or_concat ps with rfl | ⟨front, name, rfl⟩
  · cases fromRoot <;> decide
  · rw [List.concat_eq_append] at h ⊢
    have hne : front ++ [name] ≠ [] := by simp
    obtain ⟨hname, -, hslash⟩ := h.mem (List.mem_append_right front List.mem_cons_self)
    have hend : endsWith (spell fromRoot (front ++ [name])) (text "/") = false := by
      obtain ⟨start, hstart⟩ := suffix_spell fromRoot front name
      rw [hstart]
      exact endsWith_slash_append start hname hslash
    have hnames := names_spell h hne
    rw [steps, hend, if_neg (by decide), List.append_nil, if_neg (by simp)]
    exact hnames

end Disk

end TemplateFormat.Storage
