import Mathlib
import TemplateFormat.Proofs.Selections

/-!
# Files in several spellings

A file is selected once under each path, and one file may have many paths:
`x.html` is also `./x.html`.  What is found in a directory has a cleaned path, so
that two spellings of a file are selected only if the command line itself spells
one of them.

* `clean_of_mem_walkFrom`, `clean_or_spelled` — which files have a cleaned path;
* `nodup_clean_of_named` — no two selected files are the same where files are named by cleaned
  paths;
* `nodup_clean_iff` — when no two selected files are the same once their paths
  are cleaned.
-/

namespace TemplateFormat.Command.Selection

open Storage Text

variable {d : Disk} {isMatch : Text → Bool} {root path name p : Text} {paths files : List Text}
  {node : Node} {fuel : Nat}

/-! ## The paths of files in directories -/

/-- What a visit finds was found before or in one of the entries. -/
theorem mem_foldl_visit {walked : Text × Node → List Text × Option Failure}
    {entries : List (Text × Node)} {found : List Text × Option Failure}
    (h : p ∈ (entries.foldl (visit walked) found).1) :
    p ∈ found.1 ∨ ∃ entry ∈ entries, p ∈ (walked entry).1 := by
  induction entries generalizing found with
  | nil => exact .inl h
  | cons entry rest ih =>
      rcases ih h with hmem | ⟨entry', hentry', hmem⟩
      · obtain ⟨files, failure⟩ := found
        cases failure with
        | some failure => exact .inl hmem
        | none =>
            rcases List.mem_append.mp hmem with hmem | hmem
            · exact .inl hmem
            · exact .inr ⟨entry, List.mem_cons_self, hmem⟩
      · exact .inr ⟨entry', List.mem_cons_of_mem entry hentry', hmem⟩

/-- **Below a directory, a walk finds cleaned paths.** -/
theorem clean_of_mem_walkFrom (hpath : path ≠ [])
    (hclean : node.isDir = true ∨ Path.clean path = path)
    (h : p ∈ (walkFrom d root fuel path name node).1) : Path.clean p = p := by
  induction fuel generalizing path name node with
  | zero => cases h
  | succ fuel ih =>
      cases hnode : node.isDir with
      | false =>
          rw [walkFrom_of_isDir (Nat.succ_pos fuel) hnode, List.mem_singleton] at h
          rw [h]
          exact hclean.resolve_left (by simp [hnode])
      | true =>
          rw [walkFrom, hnode, Bool.not_true, if_neg (by decide)] at h
          split at h
          · cases h
          · split at h
            · cases h
            · next entries hlist =>
                rcases mem_foldl_visit h with hmem | ⟨entry, hentry, hmem⟩
                · cases hmem
                · have hjoin : Path.clean (Path.join path entry.1) = Path.join path entry.1 :=
                    Path.clean_join (.inl hpath)
                  exact ih (Path.join_ne_nil (.inl hpath)) (.inr hjoin) hmem

/-- Anything else that a walk finds is what it was started at. -/
theorem clean_of_mem_walk (h : p ∈ (walk d root).1) :
    Path.clean p = p ∨ (p = root ∧ ∃ node, d.lstat root = .ok node ∧ node.isDir = false) := by
  cases hstat : d.lstat root with
  | error failure =>
      rw [walk, hstat] at h
      cases h
  | ok node =>
      cases hnode : node.isDir with
      | false =>
          rw [walk_of_isDir hstat hnode, List.mem_singleton] at h
          exact .inr ⟨h, node, rfl, hnode⟩
      | true =>
          have hroot : root ≠ [] := by
            rintro rfl
            cases hstat
          rw [walk, hstat] at h
          exact .inl (clean_of_mem_walkFrom hroot (.inl hnode) h)

/-! ## The paths that the command line spells -/

/-- Whether a path of the command line, with or without the mark, is that of something else
than a directory. -/
def IsSpelled (d : Disk) (paths : List Text) (path : Text) : Prop :=
  (path ∈ paths ∧ path.endsWith walkMark = false ∧ d.isFile path = true) ∨
    (path ++ walkMark ∈ paths ∧ ∃ node, d.lstat path = .ok node ∧ node.isDir = false)

/-- What a path stands for: what a walk finds, itself, or the entries of a directory. -/
theorem mem_expand {candidate : Candidate} (h : candidate ∈ (expand d path).1) :
    (∃ root, (path = root ++ walkMark ∨ root = Path.here) ∧
        ∃ p ∈ (walk d root).1, candidate = .found p) ∨
      (candidate = .named path ∧ path.endsWith walkMark = false ∧ d.isFile path = true) ∨
      (path ≠ [] ∧ ∃ name, candidate = .found (Path.join path name)) := by
  unfold expand at h
  split at h
  · next hmark =>
      obtain ⟨p, hp, rfl⟩ := List.mem_map.mp h
      refine .inl ⟨_, ?_, p, hp, rfl⟩
      obtain ⟨front, rfl⟩ := List.isSuffixOf_iff_suffix.mp hmark
      split
      · exact .inr rfl
      · exact .inl (by simp)
  · next hmark =>
      split at h
      · cases h
      · next node hstat =>
          split at h
          · split at h
            · cases h
            · obtain ⟨entry, -, rfl⟩ := List.mem_map.mp h
              have hpath : path ≠ [] := by
                rintro rfl
                cases hstat
              exact .inr (.inr ⟨hpath, entry.1, rfl⟩)
          · next hnode =>
              have hfile : d.isFile path = true := by
                rw [Disk.isFile, hstat]
                simpa using hnode
              exact .inr (.inl ⟨List.mem_singleton.mp h, by simpa using hmark, hfile⟩)

/-- **What a path contributes** has a cleaned path, or the command line spells it. -/
theorem clean_or_spelled (hpath : path ∈ paths) (h : p ∈ contribution d isMatch path) :
    Path.clean p = p ∨ IsSpelled d paths p := by
  obtain ⟨candidate, hcandidate, hchosen⟩ := List.mem_filterMap.mp h
  have hfound {q : Text} (hq : (Candidate.found q).chosen? isMatch = some p) : q = p := by
    rw [Candidate.chosen?] at hq
    split at hq
    · exact Option.some.inj hq
    · cases hq
  rcases mem_expand hcandidate with ⟨root, hroot, q, hq, rfl⟩ | ⟨rfl, hmark, hfile⟩ |
    ⟨hne, name, rfl⟩
  · obtain rfl := hfound hchosen
    rcases clean_of_mem_walk hq with hclean | ⟨rfl, hstat⟩
    · exact .inl hclean
    · rcases hroot with rfl | rfl
      · exact .inr (.inr ⟨hpath, hstat⟩)
      · exact .inl (by decide)
  · obtain rfl := Option.some.inj hchosen
    exact .inr (.inl ⟨hpath, hmark, hfile⟩)
  · obtain rfl := hfound hchosen
    exact .inl (Path.clean_join (.inl hne))

/-- No path is selected twice. -/
theorem nodup_of_collect (h : collect d isMatch paths = .ok files) : files.Nodup := by
  rw [(collect_eq_ok_iff.mp h).2, ← foldl_add_eq]
  exact nodup_foldl_add List.nodup_nil

/-- A selected file has a cleaned path, or the command line spells it. -/
theorem clean_or_spelled_of_collect (h : collect d isMatch paths = .ok files) (hp : p ∈ files) :
    Path.clean p = p ∨ IsSpelled d paths p := by
  rw [(collect_eq_ok_iff.mp h).2, List.mem_eraseDups, List.mem_flatMap] at hp
  obtain ⟨path, hpath, hp⟩ := hp
  exact clean_or_spelled hpath hp

/-- **Where files are named by cleaned paths** no two selected files are the same, in whatever
spelling the directories and the roots of walks are given. -/
theorem nodup_clean_of_named (h : collect d isMatch paths = .ok files)
    (hnamed : ∀ path ∈ paths, path.endsWith walkMark = false → d.isFile path = true →
      Path.clean path = path)
    (hwalked : ∀ root, root ++ walkMark ∈ paths → ∀ node, d.lstat root = .ok node →
      node.isDir = false → Path.clean root = root) :
    (files.map Path.clean).Nodup := by
  have hclean : ∀ p ∈ files, Path.clean p = p := by
    intro p hp
    rcases clean_or_spelled_of_collect h hp with hclean | ⟨hmem, hmark, hfile⟩ |
      ⟨hmem, node, hstat, hnode⟩
    · exact hclean
    · exact hnamed p hmem hmark hfile
    · exact hwalked p hmem node hstat hnode
  rw [List.map_congr_left hclean, List.map_id']
  exact nodup_of_collect h

/-- **No file is selected in two spellings**, as far as cleaning tells them to be the same,
exactly if the files that the command line spells with a path that is not cleaned are not
selected in another spelling too.  All other selected files have cleaned paths, and no path is
selected twice. -/
theorem nodup_clean_iff (d : Disk) (isMatch : Text → Bool) (paths files : List Text)
    (h : collect d isMatch paths = .ok files) :
    files.Nodup ∧ (∀ p ∈ files, Path.clean p = p ∨ IsSpelled d paths p) ∧
      ((files.map Path.clean).Nodup ↔ ∀ p ∈ files, IsSpelled d paths p → Path.clean p ≠ p →
        ∀ q ∈ files, Path.clean q = Path.clean p → q = p) := by
  have hnodup : files.Nodup := nodup_of_collect h
  have hspelled : ∀ p ∈ files, Path.clean p = p ∨ IsSpelled d paths p :=
    fun p hp => clean_or_spelled_of_collect h hp
  refine ⟨hnodup, hspelled, ?_⟩
  rw [List.nodup_map_iff_inj_on hnodup]
  constructor
  · intro hinj p hp _ _ q hq heq
    exact hinj q hq p hp heq
  · intro hother p hp q hq heq
    -- of two spellings one is not cleaned, and so the command line spells it
    by_cases hpclean : Path.clean p = p
    · by_cases hqclean : Path.clean q = q
      · rw [← hpclean, heq, hqclean]
      · have hqspelled := (hspelled q hq).resolve_left hqclean
        exact hother q hq hqspelled hqclean p hp heq
    · have hpspelled := (hspelled p hp).resolve_left hpclean
      exact (hother p hp hpspelled hpclean q hq heq.symm).symm

/-- A file in a spelling of its own, and a directory in another, with a file in it that is
named too. -/
theorem nodup_clean_iff_pages :
    let d : Disk := { root := .dir [(text "a", .dir [(text "x.html", .file [])]),
      (text "y.html", .file [])] }
    let isMatch := fun path : Text => path.endsWith (text ".html")
    let paths := [text "./y.html", text "./a", text "a/x.html"]
    let files := [text "./y.html", text "a/x.html"]
    collect d isMatch paths = .ok files ∧ (files.map Path.clean).Nodup := by
  intro d isMatch paths files
  have hy : d.stat (text "./y.html") = .ok (.file []) := by cbv
  have ha : d.stat (text "./a") = .ok (.dir [(text "x.html", .file [])]) := by cbv
  have hx : d.stat (text "a/x.html") = .ok (.file []) := by cbv
  have h : collect d isMatch paths = .ok files := by
    rw [collect_eq_ok_iff]
    simp only [paths, List.forall_mem_cons, List.flatMap_cons, contribution,
      expand_file (by decide) hy rfl, expand_dir (by decide) ha, expand_file (by decide) hx rfl]
    exact ⟨by simp, by decide⟩
  have hother : ∀ p ∈ files, Path.clean p ≠ p → ∀ q ∈ files, Path.clean q = Path.clean p →
      q = p := by decide
  exact ⟨h, (nodup_clean_iff d isMatch paths files h).2.2.mpr fun p hp _ => hother p hp⟩

/-- **One file in two spellings**: both are selected, and cleaning makes them the same. -/
theorem nodup_clean_iff_two :
    let d : Disk := { root := .dir [(text "x.html", .file [])] }
    let isMatch := fun path : Text => path.endsWith (text ".html")
    let paths := [text "x.html", text "./x.html"]
    Disk.Linkless d.root ∧ collect d isMatch paths = .ok paths ∧
      paths.map Path.clean = [text "x.html", text "x.html"] := by
  intro d isMatch paths
  have hlinks : Disk.Linkless d.root := by
    intro place target h
    have hordered : d.root.isOrdered = true := by decide
    cases place with
    | nil => cases h
    | cons name rest =>
        rw [Node.at?] at h
        split at h
        · next node hlookup =>
            have hentry := (lookup_eq_some_iff hordered).mp hlookup
            rw [List.mem_singleton, Prod.mk.injEq] at hentry
            rw [hentry.2] at h
            cases rest <;> cases h
        · cases h
  have hx : d.stat (text "x.html") = .ok (.file []) := by cbv
  have hdot : d.stat (text "./x.html") = .ok (.file []) := by cbv
  have h : collect d isMatch paths = .ok paths := by
    rw [collect_eq_ok_iff]
    simp only [paths, List.forall_mem_cons, List.flatMap_cons, contribution,
      expand_file (by decide) hx rfl, expand_file (by decide) hdot rfl]
    exact ⟨by simp, by decide⟩
  exact ⟨hlinks, h, by decide⟩

end TemplateFormat.Command.Selection
