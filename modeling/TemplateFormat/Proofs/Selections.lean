import Mathlib
import TemplateFormat.Proofs.Walks

/-!
# What a command line selects

Every path of a command line contributes some files, and a file is selected at
its first place.  A walked directory contributes its leaves: what is selected
below it is told by what is at each place of the tree, by the names of the
directories on the way, and by the rule for templates.

* `collect_eq_ok_iff` — the selection of a command line, from what each path
  contributes;
* `collect_file`, `collect_dir`, `collect_walk_dir` — what a file, a directory
  and a walked directory contribute;
* `collect_exact` — all of it, told by the selection alone.
-/

namespace TemplateFormat.Command.Selection

open Storage Text

/-- The selection with a fixed rule for the files that are found in directories. -/
def collect (d : Disk) (isMatch : Text → Bool) (paths : List Text) : Except Fault (List Text) :=
  (selectFrom id (fun d path => (isMatch path, d)) d [] paths).1

/-- The file of a candidate, if it is selected. -/
def Candidate.chosen? (isMatch : Text → Bool) : Candidate → Option Text
  | .named path => some path
  | .found path => if isMatch path then some path else none

/-- The files that a path contributes. -/
def contribution (d : Disk) (isMatch : Text → Bool) (path : Text) : List Text :=
  (expand d path).1.filterMap (Candidate.chosen? isMatch)

variable {d : Disk} {isMatch : Text → Bool} {path : Text} {paths files : List Text}

/-- Of the files that are found, those that match are selected. -/
theorem filterMap_found (files : List Text) :
    (files.map Candidate.found).filterMap (Candidate.chosen? isMatch) = files.filter isMatch := by
  rw [List.filterMap_map, ← List.filterMap_eq_filter]
  rfl

/-! ## Each file once -/

theorem mem_add {p : Text} : p ∈ add files path ↔ p ∈ files ∨ p = path := by
  unfold add
  split
  · next hmem =>
      rw [List.contains_iff_mem] at hmem
      constructor
      · exact .inl
      · rintro (h | rfl)
        · exact h
        · exact hmem
  · simp

theorem mem_foldl_add {p : Text} : p ∈ paths.foldl add files ↔ p ∈ files ∨ p ∈ paths := by
  induction paths generalizing files with
  | nil => simp
  | cons path rest ih => rw [List.foldl_cons, ih, mem_add, List.mem_cons, or_assoc]

theorem nodup_foldl_add (h : files.Nodup) : (paths.foldl add files).Nodup := by
  induction paths generalizing files with
  | nil => exact h
  | cons path rest ih =>
      refine ih ?_
      unfold add
      split
      · exact h
      · next hnew =>
          refine List.nodup_append.mpr ⟨h, List.pairwise_singleton _ _, ?_⟩
          rintro p hp _ hpath rfl
          rw [List.mem_singleton.mp hpath] at hp
          exact hnew (by simpa using hp)

/-- Different files are selected as they come. -/
theorem foldl_add_of_nodup (h : (files ++ paths).Nodup) : paths.foldl add files = files ++ paths := by
  induction paths generalizing files with
  | nil => simp
  | cons path rest ih =>
      have hnew : path ∉ files := fun hmem =>
        (List.nodup_append.mp h).2.2 path hmem path List.mem_cons_self rfl
      have hadd : add files path = files ++ [path] := by
        rw [add, if_neg (by simpa using hnew)]
      rw [List.foldl_cons, hadd, ih (by simpa using h), List.append_assoc]
      rfl

/-- Selecting files one after the other leaves out repetitions. -/
theorem foldl_add_eq (paths : List Text) : paths.foldl add [] = paths.eraseDups := by
  induction paths using List.reverseRecOn with
  | nil => rfl
  | append_singleton paths path ih =>
      rw [List.foldl_append, ih, List.eraseDups_append, List.foldl_cons, List.foldl_nil, add]
      by_cases hmem : path ∈ paths
      · simp [hmem, List.removeAll]
      · simp [hmem, List.removeAll, List.eraseDups_cons]

theorem eraseDups_eq_self (h : paths.Nodup) : paths.eraseDups = paths := by
  rw [← foldl_add_eq, foldl_add_of_nodup (by simpa using h)]
  rfl

/-- Repetitions that were left out before make no difference. -/
theorem foldl_add_eraseDups : paths.eraseDups.foldl add files = paths.foldl add files := by
  induction paths using List.reverseRecOn with
  | nil => rfl
  | append_singleton paths path ih =>
      rw [List.eraseDups_append, List.foldl_append, List.foldl_append, ih]
      by_cases hmem : path ∈ paths
      · have hselected : path ∈ paths.foldl add files := mem_foldl_add.mpr (.inr hmem)
        simp [hmem, List.removeAll, add, hselected]
      · simp [hmem, List.removeAll, List.eraseDups_cons]

theorem eraseDups_flatMap (contributed : Text → List Text) :
    (paths.flatMap fun path => (contributed path).eraseDups).eraseDups =
      (paths.flatMap contributed).eraseDups := by
  have hfold : ∀ files, (paths.flatMap fun path => (contributed path).eraseDups).foldl add files =
      (paths.flatMap contributed).foldl add files := by
    induction paths with
    | nil => exact fun _ => rfl
    | cons path rest ih =>
        intro files
        rw [List.flatMap_cons, List.flatMap_cons, List.foldl_append, List.foldl_append,
          foldl_add_eraseDups, ih]
  rw [← foldl_add_eq, ← foldl_add_eq, hfold]

/-! ## From what each path contributes -/

theorem addAll_eq (files : List Text) (candidates : List Candidate) :
    addAll (fun d path => (isMatch path, d)) d files candidates =
      ((candidates.filterMap (Candidate.chosen? isMatch)).foldl add files, d) := by
  unfold addAll
  induction candidates generalizing files with
  | nil => rfl
  | cons candidate rest ih =>
      rw [List.foldl_cons]
      cases candidate with
      | named path => exact ih (add files path)
      | found path =>
          refine (ih (if isMatch path then add files path else files)).trans ?_
          rw [List.filterMap_cons, Candidate.chosen?]
          cases isMatch path <;> rfl

theorem selectFrom_eq_ok_iff {selected : List Text} :
    (selectFrom id (fun d path => (isMatch path, d)) d files paths).1 = .ok selected ↔
      (∀ path ∈ paths, (expand d path).2 = none) ∧
        selected = (paths.flatMap (contribution d isMatch)).foldl add files := by
  induction paths generalizing files with
  | nil => simp [selectFrom, eq_comm]
  | cons path rest ih =>
      rw [selectFrom, List.forall_mem_cons, List.flatMap_cons, List.foldl_append]
      simp only [addAll_eq, id_eq]
      cases hfault : (expand d path).2 with
      | some fault => simp
      | none => simpa [contribution] using ih

/-- **The selection of a command line**: no path fails, and what the paths contribute is
selected, each file at its first place. -/
theorem collect_eq_ok_iff : collect d isMatch paths = .ok files ↔
    (∀ path ∈ paths, (expand d path).2 = none) ∧
      files = (paths.flatMap (contribution d isMatch)).eraseDups := by
  rw [collect, selectFrom_eq_ok_iff, foldl_add_eq]

/-- **The selection of a command line** by that of each of its paths. -/
theorem collect_eq_ok_iff_exists : collect d isMatch paths = .ok files ↔
    ∃ contributed : Text → List Text,
      (∀ path ∈ paths, collect d isMatch [path] = .ok (contributed path)) ∧
        files = (paths.flatMap contributed).eraseDups := by
  have hone {path : Text} {files : List Text} : collect d isMatch [path] = .ok files ↔
      (expand d path).2 = none ∧ files = (contribution d isMatch path).eraseDups := by
    simp [collect_eq_ok_iff]
  rw [collect_eq_ok_iff]
  constructor
  · rintro ⟨hexpand, rfl⟩
    exact ⟨fun path => (contribution d isMatch path).eraseDups,
      fun path hpath => hone.mpr ⟨hexpand path hpath, rfl⟩, (eraseDups_flatMap _).symm⟩
  · rintro ⟨contributed, hcontributed, rfl⟩
    refine ⟨fun path hpath => (hone.mp (hcontributed path hpath)).1, ?_⟩
    have heach : paths.flatMap contributed =
        paths.flatMap fun path => (contribution d isMatch path).eraseDups := by
      rw [List.flatMap_def, List.flatMap_def]
      exact congrArg List.flatten
        (List.map_congr_left fun path hpath => (hone.mp (hcontributed path hpath)).2)
    rw [heach, eraseDups_flatMap]

/-! ## Paths that are not walked -/

variable {root : Text} {place : List Text} {entries : List (Text × Node)} {node : Node}

/-- Anything but a directory stands for itself. -/
theorem expand_file (hmark : path.endsWith walkMark = false) (hstat : d.stat path = .ok node)
    (hnode : node.isDir = false) : expand d path = ([.named path], none) := by
  rw [expand, hmark, if_neg (by decide), hstat]
  simp only [hnode]
  rfl

/-- A directory stands for its entries, except directories. -/
theorem expand_dir (hmark : path.endsWith walkMark = false)
    (hstat : d.stat path = .ok (.dir entries)) : expand d path =
      ((entries.filter (!·.2.isDir)).map fun e => .found (Path.join path e.1), none) := by
  obtain ⟨place, hplace⟩ := Disk.lookup_eq_ok_iff.mp hstat
  have hlist := Disk.list_of_resolve hplace
  rw [expand, hmark, if_neg (by decide), hstat]
  simp only [hlist]
  rfl

/-- **A file that is named is selected**, be it a template or not. -/
theorem collect_file (hmark : path.endsWith walkMark = false) (hstat : d.stat path = .ok node)
    (hnode : node.isDir = false) : collect d isMatch [path] = .ok [path] := by
  rw [collect_eq_ok_iff]
  simp [contribution, expand_file hmark hstat hnode, Candidate.chosen?, List.eraseDups_cons]

/-- **What a directory contributes**: the templates among its entries. -/
theorem collect_dir (hordered : d.root.isOrdered = true) (hmark : path.endsWith walkMark = false)
    (hstat : d.stat path = .ok (.dir entries)) : collect d isMatch [path] =
      .ok ((entries.filter fun e => isMatch (Path.join path e.1) && !e.2.isDir).map
        (Path.join path ·.1)) := by
  obtain ⟨place, hplace⟩ := Disk.lookup_eq_ok_iff.mp hstat
  have hpath := (Disk.path_of_resolve hplace).1
  have hentries : (Node.dir entries).isOrdered = true :=
    Node.isOrdered_at? hordered (Disk.stands_resolve hplace)
  obtain ⟨hproper, hpairwise⟩ := areOrdered_iff.mp hentries
  have hnodup : ((entries.filter fun e => isMatch (Path.join path e.1) && !e.2.isDir).map
      (Path.join path ·.1)).Nodup := by
    refine List.pairwise_map.mpr (List.Pairwise.imp_of_mem ?_ (hpairwise.filter _))
    intro e e' he he' hbefore heq
    have hname := (hproper e (List.mem_filter.mp he).1).1
    have hname' := (hproper e' (List.mem_filter.mp he').1).1
    have hsame : [e.1] = [e'.1] :=
      Path.foldl_join_inj hpath (by simpa using hname) (by simpa using hname') heq
    rw [List.singleton_inj.mp hsame, nameBefore_self] at hbefore
    cases hbefore
  have hchosen : contribution d isMatch path =
      (entries.filter fun e => isMatch (Path.join path e.1) && !e.2.isDir).map
        (Path.join path ·.1) := by
    have hsplit : (entries.filter (!·.2.isDir)).map (fun e => .found (Path.join path e.1)) =
        ((entries.filter (!·.2.isDir)).map (Path.join path ·.1)).map Candidate.found := by
      rw [List.map_map]
      rfl
    rw [contribution, expand_dir hmark hstat, hsplit, filterMap_found, List.filter_map,
      List.filter_filter]
    rfl
  rw [collect_eq_ok_iff, List.flatMap_singleton, hchosen, eraseDups_eq_self hnodup]
  exact ⟨by simp [expand_dir hmark hstat], rfl⟩

/-! ## Walked directories -/

/-- A path that is walked stands for what the walk finds. -/
theorem expand_walk (hroot : root ≠ []) : expand d (root ++ walkMark) =
    ((walk d root).1.map .found, (walk d root).2.map (.walking root)) := by
  have hend : (root ++ walkMark).endsWith walkMark = true :=
    List.isSuffixOf_iff_suffix.mpr (List.suffix_append _ _)
  have htake : (root ++ walkMark).take ((root ++ walkMark).length - walkMark.length) = root := by
    simp
  have hempty : root.isEmpty = false := by simpa using hroot
  rw [expand, hend, if_pos rfl, htake]
  simp only [hempty]
  rfl

/-- **The selection of a walk** that meets no failure. -/
theorem collect_walk (hroot : root ≠ []) (hok : (walk d root).2 = none) :
    collect d isMatch [root ++ walkMark] = .ok ((walk d root).1.filter isMatch).eraseDups := by
  rw [collect_eq_ok_iff, List.flatMap_singleton, contribution, expand_walk hroot, filterMap_found]
  exact ⟨by simp [expand_walk hroot, hok], rfl⟩

/-- Whether a place below a directory is that of a template: something else than a directory,
with no directory on the way that is left out, and a match by its path. -/
def IsBelow (isMatch : Text → Bool) (root : Text) (entries : List (Text × Node))
    (place : List Text) : Prop :=
  (∃ leaf, (Node.dir entries).at? place = some leaf ∧ leaf.isDir = false) ∧
    (∀ name ∈ place.dropLast, name ∉ skippedNames) ∧ isMatch (place.foldl Path.join root) = true

/-- **What a walked directory contributes**: the templates below it, each once and in order. -/
theorem collect_walk_dir (hordered : d.root.isOrdered = true)
    (hdir : d.resolve false root = .ok (.found place (.dir entries)))
    (hclean : d.resolve true (Path.clean root) = .ok (.found place (.dir entries)))
    (hok : (walk d root).2 = none) :
    ∃ places : List (List Text),
      collect d isMatch [root ++ walkMark] = .ok (places.map (·.foldl Path.join root)) ∧
        (places.map (·.foldl Path.join root)).Nodup ∧ places.Pairwise placeBefore ∧
        ∀ place, place ∈ places ↔ IsBelow isMatch root entries place := by
  have hroot := (Disk.path_of_resolve hdir).1
  have hentries : (Node.dir entries).isOrdered = true :=
    Node.isOrdered_at? hordered (Disk.stands_resolve hdir)
  let places := ((Node.dir entries).leaves skippedNames).filter
    fun place => isMatch (place.foldl Path.join root)
  have hmem : ∀ place, place ∈ places ↔ IsBelow isMatch root entries place := by
    intro place
    rw [List.mem_filter, Node.mem_leaves_iff hentries, IsBelow, and_assoc]
  have hnodup : (places.map (·.foldl Path.join root)).Nodup := by
    have hproper : ∀ place ∈ places, ∀ name ∈ place, Path.isProper name = true := by
      intro place hplace
      obtain ⟨⟨leaf, hleaf, -⟩, -⟩ := (hmem place).mp hplace
      exact Node.isProper_of_at? hentries hleaf
    refine List.pairwise_map.mpr
      (List.Pairwise.imp_of_mem ?_ ((Node.nodup_leaves hentries).filter _))
    intro place place' hplace hplace' hne heq
    exact hne (Path.foldl_join_inj hroot (hproper place hplace) (hproper place' hplace') heq)
  refine ⟨places, ?_, hnodup, ((Node.dir entries).pairwise_leaves hentries).filter _, hmem⟩
  have hfiles : (walk d root).1.filter isMatch = places.map (·.foldl Path.join root) := by
    rw [walk_eq hordered hdir hclean hok, List.filter_map]
    rfl
  rw [collect_walk hroot hok, hfiles, eraseDups_eq_self hnodup]

/-- **The files of a command line, exactly.**  A path that is walked, and that leads to a
directory itself and to the same one when it is cleaned (which is so in a tree without links),
stands for the templates below the directory: everything there but directories, with no
directory of a name that is left out on the way, each once and in the order of the names.
Anything else that is walked stands for itself.  A path that is not walked stands for the
templates among the entries of a directory, or for itself, be it a template or not.  The files
of several paths are those of each, repetitions left out. -/
theorem collect_exact (d : Disk) (isMatch : Text → Bool) (hordered : d.root.isOrdered = true) :
    (∀ root place entries, d.resolve false root = .ok (.found place (.dir entries)) →
      (Disk.Linkless d.root ∨
        d.resolve true (Path.clean root) = .ok (.found place (.dir entries))) →
      (walk d root).2 = none →
      ∃ places : List (List Text),
        collect d isMatch [root ++ walkMark] = .ok (places.map (·.foldl Path.join root)) ∧
          (places.map (·.foldl Path.join root)).Nodup ∧ places.Pairwise placeBefore ∧
          ∀ place, place ∈ places ↔ IsBelow isMatch root entries place) ∧
      (∀ root node, d.lstat root = .ok node → node.isDir = false →
        collect d isMatch [root ++ walkMark] = .ok (if isMatch root then [root] else [])) ∧
      (∀ path entries, path.endsWith walkMark = false → d.stat path = .ok (.dir entries) →
        collect d isMatch [path] =
          .ok ((entries.filter fun e => isMatch (Path.join path e.1) && !e.2.isDir).map
            (Path.join path ·.1))) ∧
      (∀ path node, path.endsWith walkMark = false → d.stat path = .ok node →
        node.isDir = false → collect d isMatch [path] = .ok [path]) ∧
      ∀ paths files, collect d isMatch paths = .ok files ↔
        ∃ contributed : Text → List Text,
          (∀ path ∈ paths, collect d isMatch [path] = .ok (contributed path)) ∧
            files = (paths.flatMap contributed).eraseDups := by
  refine ⟨?_, ?_, fun _ _ => collect_dir hordered, fun _ _ => collect_file,
    fun _ _ => collect_eq_ok_iff_exists⟩
  · intro root place entries hdir hlinks hok
    have hclean : d.resolve true (Path.clean root) = .ok (.found place (.dir entries)) := by
      rcases hlinks with hlinks | hclean
      · exact Disk.resolve_clean hlinks hdir
      · exact hclean
    exact collect_walk_dir hordered hdir hclean hok
  · intro root node hstat hnode
    have hroot : root ≠ [] := by
      rintro rfl
      cases hstat
    have hwalk := walk_of_isDir hstat hnode
    rw [collect_walk hroot (by rw [hwalk]), hwalk]
    cases hmatch : isMatch root with
    | true => simp [hmatch, List.eraseDups_cons]
    | false => simp [hmatch]

/-- A walked directory that would be left out below another one, with a directory in it that
is left out. -/
theorem collect_exact_dist :
    let pages : List (Text × Node) := [(text "a.html", .file []), (text "b.txt", .file []),
      (text "node_modules", .dir [(text "d.html", .file [])]),
      (text "sub", .dir [(text "c.html", .file [])])]
    let d : Disk := { root := .dir [(text "dist", .dir pages)] }
    let isMatch := fun path : Text => path.endsWith (text ".html")
    d.root.isOrdered = true ∧
      d.resolve false (text "dist") = .ok (.found [text "dist"] (.dir pages)) ∧
      d.resolve true (Path.clean (text "dist")) = .ok (.found [text "dist"] (.dir pages)) ∧
      (walk d (text "dist")).2 = none ∧
      ∃ places : List (List Text),
        collect d isMatch [text "dist/..."] =
          .ok (places.map (·.foldl Path.join (text "dist"))) ∧
        [text "a.html"] ∈ places ∧ [text "b.txt"] ∉ places ∧
        [text "sub", text "c.html"] ∈ places ∧ [text "node_modules", text "d.html"] ∉ places := by
  intro pages d isMatch
  have hordered : d.root.isOrdered = true := by decide +kernel
  have hdir : d.resolve false (text "dist") = .ok (.found [text "dist"] (.dir pages)) := by cbv
  have hname : Path.clean (text "dist") = text "dist" := by decide
  have hfollowed : d.resolve true (text "dist") = .ok (.found [text "dist"] (.dir pages)) := by
    cbv
  have hclean : d.resolve true (Path.clean (text "dist")) =
      .ok (.found [text "dist"] (.dir pages)) := by rw [hname, hfollowed]
  have hok : (walk d (text "dist")).2 = none := by
    have hstat : d.lstat (text "dist") = .ok (.dir pages) :=
      Disk.lookup_eq_ok_iff.mpr ⟨_, hdir⟩
    have hlist : d.list (text "dist") = .ok pages := Disk.list_of_resolve hfollowed
    have hjoin : Path.join (text "dist") (text "sub") = text "dist/sub" := by decide
    have hsub : d.list (Path.join (text "dist") (text "sub")) =
        .ok [(text "c.html", .file [])] := by
      rw [hjoin]
      cbv
    rw [walk_dir hstat hlist, foldl_visit_eq_none]
    simp only [pages, List.forall_mem_cons]
    refine ⟨rfl, rfl, ?_, ?_, by simp⟩
    · rw [walkFrom_skipped (by decide) (by decide)]
    · rw [walkFrom_dir (.inr (by decide)) hsub, foldl_visit_eq_none, List.forall_mem_singleton,
        walkFrom_of_isDir (by decide) rfl]
  obtain ⟨places, hcollect, -, -, hplaces⟩ :=
    (collect_exact d isMatch hordered).1 _ _ _ hdir (.inr hclean) hok
  refine ⟨hordered, hdir, hclean, hok, places, hcollect, ?_⟩
  simp only [hplaces]
  refine ⟨⟨⟨_, rfl, rfl⟩, by decide, by decide⟩, fun h => absurd h.2.2 (by decide),
    ⟨⟨_, rfl, rfl⟩, by decide, by decide⟩, fun h => absurd h.2.1 (by decide)⟩

/-- **Links on the way.**  A link to a directory is not walked, although the path leads to a
directory; and `..` behind a link is taken back with the name of the link, so that the walk
reads a directory that the path does not lead to. -/
theorem collect_exact_links :
    let d : Disk := { root := .dir [(text "deep", .dir [(text "b.html", .file [])]),
      (text "link", .link (text "sub/deep")), (text "ln", .link (text "pages")),
      (text "pages", .dir [(text "a.html", .file [])]), (text "sub", .dir [(text "deep", .dir [])])] }
    let isMatch := fun path : Text => path.endsWith (text ".html")
    d.root.isOrdered = true ∧
      d.stat (text "ln") = .ok (.dir [(text "a.html", .file [])]) ∧
      (walk d (text "ln")).2 = none ∧ collect d isMatch [text "ln/..."] = .ok [] ∧
      d.stat (text "link/..") = .ok (.dir [(text "deep", .dir [])]) ∧
      (walk d (text "link/..")).2 = none ∧
      collect d isMatch [text "link/../..."] = .ok [text "deep/b.html"] := by
  intro d isMatch
  have hordered : d.root.isOrdered = true := by decide +kernel
  have hto : d.stat (text "ln") = .ok (.dir [(text "a.html", .file [])]) := by cbv
  have hlink : d.lstat (text "ln") = .ok (.link (text "pages")) := by cbv
  have hwalk := walk_of_isDir hlink rfl
  have hup : d.resolve true (text "link/..") =
      .ok (.found [text "sub"] (.dir [(text "deep", .dir [])])) := by cbv
  have hstat : d.lstat (text "link/..") = .ok (.dir [(text "deep", .dir [])]) := by cbv
  have hlist := Disk.list_of_resolve hup
  have hjoin : Path.join (text "link/..") (text "deep") = text "deep" := by decide
  have hdeep : d.list (Path.join (text "link/..") (text "deep")) =
      .ok [(text "b.html", .file [])] := by
    rw [hjoin]
    cbv
  have hbelow : walkFrom d (text "link/..") (Disk.pathLimit + 1)
      (Path.join (text "link/..") (text "deep")) (text "deep") (.dir []) =
      ([Path.join (text "deep") (text "b.html")], none) := by
    rw [walkFrom_dir (.inr (by decide)) hdeep, List.foldl_cons, List.foldl_nil, visit_none,
      walkFrom_of_isDir (by decide) rfl, hjoin]
    rfl
  have hother : walk d (text "link/..") =
      ([Path.join (text "deep") (text "b.html")], none) := by
    rw [walk_dir hstat hlist, List.foldl_cons, List.foldl_nil, visit_none, hbelow]
    rfl
  have hnone : collect d isMatch [text "ln" ++ walkMark] = .ok [] := by
    rw [collect_walk (by decide) (by rw [hwalk]), hwalk]
    decide
  have hb : collect d isMatch [text "link/.." ++ walkMark] = .ok [text "deep/b.html"] := by
    rw [collect_walk (by decide) (by rw [hother]), hother]
    decide
  exact ⟨hordered, hto, by rw [hwalk], hnone, Disk.lookup_eq_ok_iff.mpr ⟨_, hup⟩, by rw [hother], hb⟩

end TemplateFormat.Command.Selection
