import TemplateFormat.Command.Selection
import TemplateFormat.Proofs.Leaves
import TemplateFormat.Proofs.Routes

/-!
# Walking a directory

A walk takes up the entries of a directory one after the other, and goes down
into those that are directories.  It reads each by its path, which gets longer
with every step; a path over the limit is not listed, and so a walk that meets no
failure has not run out of fuel.

* `foldl_visit` — what visiting some entries finds, if none of them fails;
* `walkFrom_below` — the walk below a directory, by induction on the fuel;
* `walk_eq` — a walk that meets no failure finds the leaves of the directory.
-/

namespace TemplateFormat.Command.Selection

open Storage Text

/-! ## One entry after the other -/

/-- Takes up an entry, unless one before it has failed. -/
def visit (walked : Text × Node → List Text × Option Failure)
    (found : List Text × Option Failure) (entry : Text × Node) : List Text × Option Failure :=
  match found with
  | (files, some failure) => (files, some failure)
  | (files, none) =>
    let (more, failure) := walked entry
    (files ++ more, failure)

variable {walked : Text × Node → List Text × Option Failure} {entries : List (Text × Node)}

theorem visit_none (files : List Text) (entry : Text × Node) :
    visit walked (files, none) entry = (files ++ (walked entry).1, (walked entry).2) := rfl

/-- A failure ends the visit. -/
theorem foldl_visit_failed (files : List Text) (failure : Failure) :
    entries.foldl (visit walked) (files, some failure) = (files, some failure) := by
  induction entries with
  | nil => rfl
  | cons entry rest ih => exact ih

/-- A visit meets no failure if no entry fails. -/
theorem foldl_visit_eq_none {files : List Text} :
    (entries.foldl (visit walked) (files, none)).2 = none ↔
      ∀ entry ∈ entries, (walked entry).2 = none := by
  induction entries generalizing files with
  | nil => simp
  | cons entry rest ih =>
      rw [List.foldl_cons, List.forall_mem_cons, visit_none]
      cases hentry : (walked entry).2 with
      | some failure => simp [foldl_visit_failed]
      | none => simp [ih]

/-- **If no entry fails**, what is found in each of them is found. -/
theorem foldl_visit {files : List Text} (h : ∀ entry ∈ entries, (walked entry).2 = none) :
    (entries.foldl (visit walked) (files, none)).1 = files ++ entries.flatMap (walked · |>.1) := by
  induction entries generalizing files with
  | nil => simp
  | cons entry rest ih =>
      obtain ⟨hentry, hrest⟩ := List.forall_mem_cons.mp h
      rw [List.foldl_cons, visit_none, hentry, ih hrest, List.flatMap_cons, List.append_assoc]

/-! ## One directory after the other -/

variable {d : Disk} {root path name : Text} {node : Node} {place : List Text} {fuel : Nat}

/-- What a walk finds at and below a path, with the node that is there. -/
def below (path name : Text) (node : Node) : List Text :=
  if node.isDir && skippedNames.contains name then []
  else (node.leaves skippedNames).map (·.foldl Path.join path)

/-- The walk in a directory that is listed and not left out. -/
theorem walkFrom_dir {sub : List (Text × Node)}
    (hname : path = root ∨ skippedNames.contains name = false) (hlist : d.list path = .ok entries) :
    walkFrom d root (fuel + 1) path name (.dir sub) =
      entries.foldl (visit fun e => walkFrom d root fuel (Path.join path e.1) e.1 e.2)
        ([], none) := by
  have hentered : (path != root && skippedNames.contains name) = false := by
    rcases hname with rfl | hname
    · rw [bne_self_eq_false, Bool.false_and]
    · rw [hname, Bool.and_false]
  rw [walkFrom, hentered, hlist]
  rfl

/-- What is found below the entries is found below the directory. -/
theorem foldl_walkFrom
    (hbelow : ∀ e ∈ entries, (walkFrom d root fuel (Path.join path e.1) e.1 e.2).2 = none →
      (walkFrom d root fuel (Path.join path e.1) e.1 e.2).1 = below (Path.join path e.1) e.1 e.2)
    (hok : (entries.foldl (visit fun e => walkFrom d root fuel (Path.join path e.1) e.1 e.2)
      ([], none)).2 = none) :
    (entries.foldl (visit fun e => walkFrom d root fuel (Path.join path e.1) e.1 e.2)
      ([], none)).1 = (leavesAmong skippedNames entries).map (·.foldl Path.join path) := by
  have hentries := foldl_visit_eq_none.mp hok
  rw [foldl_visit hentries, List.nil_append, leavesAmong_eq, List.map_flatMap, List.flatMap_def,
    List.flatMap_def]
  refine congrArg List.flatten (List.map_congr_left fun e he => ?_)
  rw [hbelow e he (hentries e he), below]
  split
  · rfl
  · rw [List.map_map]
    rfl

/-- Anything but a directory is found. -/
theorem walkFrom_of_isDir (hfuel : 0 < fuel) (hnode : node.isDir = false) :
    walkFrom d root fuel path name node = ([path], none) := by
  obtain ⟨fuel, rfl⟩ := Nat.exists_eq_succ_of_ne_zero (Nat.ne_of_gt hfuel)
  rw [walkFrom, hnode]
  rfl

/-- A directory of a name that is left out is not entered. -/
theorem walkFrom_skipped {sub : List (Text × Node)} (hpath : path ≠ root)
    (hname : skippedNames.contains name = true) :
    walkFrom d root (fuel + 1) path name (.dir sub) = ([], none) := by
  have hleft : (path != root && skippedNames.contains name) = true := by
    rw [hname, Bool.and_true, bne_iff_ne]
    exact hpath
  rw [walkFrom, hleft]
  rfl

/-- A directory that cannot be listed is a failure. -/
theorem walkFrom_failed {sub : List (Text × Node)} {failure : Failure}
    (hname : skippedNames.contains name = false) (hlist : d.list path = .error failure) :
    (walkFrom d root (fuel + 1) path name (.dir sub)).2 = some failure := by
  rw [walkFrom, hname, Bool.and_false, hlist]
  rfl

/-- Whether a path is listed as a node says, if it is listed at all. -/
def ListedAs (d : Disk) (path : Text) (node : Node) : Prop :=
  ∀ sub listed, node = .dir sub → d.list path = .ok listed → listed = sub

/-- A path below a directory is listed as the entry with its last name. -/
theorem listedAs_join (hpath : path ≠ []) (hordered : areOrdered entries = true)
    (hdir : d.resolve true (Path.clean path) = .ok (.found place (.dir entries)))
    (hentry : (name, node) ∈ entries) : ListedAs d (Path.join path name) node := by
  rintro sub listed rfl hlist
  have hname := ((areOrdered_iff.mp hordered).1 _ hentry).1
  exact Disk.list_join hpath hname hdir ((lookup_eq_some_iff hordered).mpr hentry) hlist

/-- **The walk below a directory**, at a path that is listed as the node says.  The fuel and
the path together are longer than any path that can be listed. -/
theorem walkFrom_below (fuel : Nat) (name : Text) (node : Node) (place : List Text)
    (hroot : root ≠ []) (hne : place ≠ []) (hplace : ∀ name ∈ place, Path.isProper name = true)
    (hordered : node.isOrdered = true) (hlisted : ListedAs d (place.foldl Path.join root) node)
    (hfuel : Disk.pathLimit + 1 ≤ fuel + (place.foldl Path.join root).width)
    (hok : (walkFrom d root (fuel + 1) (place.foldl Path.join root) name node).2 = none) :
    (walkFrom d root (fuel + 1) (place.foldl Path.join root) name node).1 =
      below (place.foldl Path.join root) name node := by
  cases node with
  | file content => rfl
  | link target => rfl
  | dir sub =>
      cases hskipped : skippedNames.contains name with
      | true =>
          rw [walkFrom_skipped (Path.foldl_join_ne hroot hne hplace) hskipped, below, hskipped]
          rfl
      | false =>
          cases hlist : d.list (place.foldl Path.join root) with
          | error failure =>
              rw [walkFrom_failed hskipped hlist] at hok
              cases hok
          | ok listed =>
              obtain rfl := hlisted sub listed rfl hlist
              obtain ⟨found, hfound⟩ := Disk.resolve_of_list hlist
              obtain ⟨hpath, hclean⟩ := Path.clean_foldl_join hroot hne hplace
              have hwidth := (Disk.path_of_resolve hfound).2
              obtain ⟨fuel, rfl⟩ : ∃ f, fuel = f + 1 := Nat.exists_eq_succ_of_ne_zero (by omega)
              rw [walkFrom_dir (.inr hskipped) hlist] at hok ⊢
              rw [below, hskipped, Bool.and_false]
              refine foldl_walkFrom (fun entry hentry hchild => ?_) hok
              have hproper := (areOrdered_iff.mp hordered).1 entry hentry
              have hnames : ∀ n ∈ place ++ [entry.1], Path.isProper n = true := by
                simpa [or_imp, forall_and, hproper.1] using hplace
              have hchildListed : ListedAs d (Path.join (place.foldl Path.join root) entry.1)
                  entry.2 := listedAs_join hpath hordered (by rwa [hclean]) hentry
              have hlonger := Path.width_foldl_join_lt hroot hne hnames
              have hstep : Path.join (place.foldl Path.join root) entry.1 =
                  (place ++ [entry.1]).foldl Path.join root := by simp
              rw [hstep] at hchild hchildListed ⊢
              exact walkFrom_below fuel entry.1 entry.2 (place ++ [entry.1]) hroot (by simp)
                hnames hproper.2 hchildListed (by omega) hchild
termination_by fuel

/-- A walk takes up the entries of the directory, whatever its name. -/
theorem walk_dir {sub : List (Text × Node)} (hstat : d.lstat root = .ok (.dir sub))
    (hlist : d.list root = .ok entries) : walk d root = entries.foldl (visit fun e =>
      walkFrom d root (Disk.pathLimit + 1) (Path.join root e.1) e.1 e.2) ([], none) := by
  rw [walk, hstat]
  exact walkFrom_dir (.inl rfl) hlist

/-- **A walk that meets no failure** finds the leaves of the directory, if the path and its
cleaned form lead to the same one. -/
theorem walk_eq (hordered : d.root.isOrdered = true)
    (hdir : d.resolve false root = .ok (.found place (.dir entries)))
    (hclean : d.resolve true (Path.clean root) = .ok (.found place (.dir entries)))
    (hok : (walk d root).2 = none) :
    (walk d root).1 = (leavesAmong skippedNames entries).map (·.foldl Path.join root) := by
  have hroot := (Disk.path_of_resolve hdir).1
  have hentries : areOrdered entries = true :=
    Node.isOrdered_at? hordered (Disk.stands_resolve hdir)
  have hstat : d.lstat root = .ok (.dir entries) := by
    rw [Disk.lstat, Disk.lookup, hdir]
  have hfollowed : d.resolve true root = .ok (.found place (.dir entries)) := by
    obtain ⟨hnul, hne, hwidth, hresolved⟩ := Disk.resolve_eq_ok_iff.mp hdir
    exact Disk.resolve_eq_ok_iff.mpr
      ⟨hnul, hne, hwidth, (Disk.route_of_resolveFrom _ _ _ hresolved).follow⟩
  have hlist := Disk.list_of_resolve hfollowed
  rw [walk_dir hstat hlist] at hok ⊢
  refine foldl_walkFrom (fun entry hentry hchild => ?_) hok
  have hproper := (areOrdered_iff.mp hentries).1 entry hentry
  have hnames : ∀ n ∈ [entry.1], Path.isProper n = true := by simpa using hproper.1
  have hpos : 0 < ([entry.1].foldl Path.join root).width :=
    width_pos_of_ne_nil (Path.clean_foldl_join hroot (by simp) hnames).1
  exact walkFrom_below Disk.pathLimit entry.1 entry.2 [entry.1] hroot (by simp) hnames hproper.2
    (listedAs_join hroot hentries hclean hentry) (by omega) hchild

/-- Anything but a directory is found as it is named. -/
theorem walk_of_isDir (hstat : d.lstat root = .ok node) (hnode : node.isDir = false) :
    walk d root = ([root], none) := by
  rw [walk, hstat]
  exact walkFrom_of_isDir (Nat.succ_pos _) hnode

end TemplateFormat.Command.Selection
