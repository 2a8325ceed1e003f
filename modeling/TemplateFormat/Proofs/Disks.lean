import TemplateFormat.Storage.Disk

/-!
# Files on a disk

What is written to one place of a disk is found there, and a file at another place stays
as it is, unless the place that is written to lies on the way to it.

* `lookup_setEntry` — what entering a name does to every name of a directory;
* `lookup_without`, `lookup_set` — what taking a key out of a table and setting it do to every
  key: directories, the entries of a cache and the documents of a session are such tables;
* `at?_put_self`, `at?_put_of_file` — what putting a node does to every file;
* `Disk.Advance` — what one name of a path can do, and `advance_of_resolveFrom`: resolving goes
  on by nothing else;
* `Disk.stands_resolve` — where resolving a path leads;
* `Disk.Holds` — a file with a content at a place, which opening and writing files keep.
-/

namespace TemplateFormat.Storage

/-! ## Tables by key -/

section Tables

variable {β : Type} (table : List (Text × β)) (key : Text) (value : β) (k : Text)

/-- A table without a key finds nothing under it and what it found under the others. -/
theorem lookup_without :
    (table.filter (·.1 != key)).lookup k = if k = key then none else table.lookup k := by
  induction table with
  | nil => simp
  | cons entry table ih =>
      obtain ⟨name, old⟩ := entry
      by_cases hname : name = key
      · -- the entry is dropped, and no other key would have found it
        subst hname
        by_cases hk : k = name
        · simpa [hk] using ih
        · simpa [hk, List.lookup_cons, beq_false_of_ne hk] using ih
      · rw [List.filter_cons_of_pos (by simpa using hname), List.lookup_cons, List.lookup_cons, ih]
        by_cases hk : k = name
        · subst hk
          simp [hname]
        · simp [beq_false_of_ne hk]

/-- A table with a key set finds the new value under it and what it found under the
others. -/
theorem lookup_set :
    ((key, value) :: table.filter (·.1 != key)).lookup k =
      if k = key then some value else table.lookup k := by
  rw [List.lookup_cons, lookup_without]
  by_cases hk : k = key
  · simp [hk]
  · simp [hk, beq_false_of_ne hk]

end Tables

/-- A directory with a name entered finds the new node under it and what it found under the
others. -/
theorem lookup_setEntry (name : Text) (node : Node) (entries : List (Text × Node)) (k : Text) :
    (setEntry name node entries).lookup k = if k = name then some node else entries.lookup k := by
  induction entries with
  | nil =>
      by_cases hk : k = name
      · simp [setEntry, hk]
      · simp [setEntry, hk, List.lookup_cons, beq_false_of_ne hk]
  | cons entry entries ih =>
      obtain ⟨n, old⟩ := entry
      rw [setEntry]
      split
      · next hn =>
          subst hn
          by_cases hk : k = n
          · simp [hk]
          · simp [hk, List.lookup_cons, beq_false_of_ne hk]
      · next hn =>
          split
          · by_cases hk : k = name
            · simp [hk]
            · simp [hk, List.lookup_cons, beq_false_of_ne hk]
          · rw [List.lookup_cons, List.lookup_cons, ih]
            by_cases hk : k = n
            · subst hk
              simp [hn]
            · simp [beq_false_of_ne hk]

namespace Node

/-- The node at a place is found step by step. -/
theorem at?_append (root : Node) (p q : List Text) :
    root.at? (p ++ q) = (root.at? p).bind (·.at? q) := by
  induction p generalizing root with
  | nil => simp [at?]
  | cons name p ih =>
      cases root with
      | file content => simp [at?]
      | link target => simp [at?]
      | dir entries =>
          rw [List.cons_append, at?, at?]
          cases entries.lookup name with
          | none => rfl
          | some child => exact ih child

/-- The entry of a directory at a place. -/
theorem at?_entry {root : Node} {p : List Text} {entries : List (Text × Node)} (name : Text)
    (h : root.at? p = some (.dir entries)) : root.at? (p ++ [name]) = entries.lookup name := by
  rw [at?_append, h, Option.bind_some, at?]
  cases entries.lookup name with
  | none => rfl
  | some child => rfl

/-- What is put below an entry of a directory changes the entry. -/
theorem put_below {entries : List (Text × Node)} {name : Text} {child : Node} (node : Node)
    {p : List Text} (hp : p ≠ []) (h : entries.lookup name = some child) :
    node.put (.dir entries) (name :: p) = .dir (setEntry name (node.put child p) entries) := by
  cases p with
  | nil => exact absurd rfl hp
  | cons next p => simp [put, h]

/-- What is put under a name of a directory leaves the other names as they are. -/
theorem lookup_put_other (node : Node) (entries : List (Text × Node)) {name k : Text}
    (hk : k ≠ name) (p : List Text) :
    ∃ changed, node.put (.dir entries) (name :: p) = .dir changed ∧
      changed.lookup k = entries.lookup k := by
  cases p with
  | nil => exact ⟨_, rfl, by rw [lookup_setEntry, if_neg hk]⟩
  | cons next p =>
      cases hname : entries.lookup name with
      | none => exact ⟨entries, by simp [put, hname], rfl⟩
      | some child =>
          exact ⟨_, put_below node (by simp) hname, by rw [lookup_setEntry, if_neg hk]⟩

/-- What is put in a directory is found there. -/
theorem at?_put_entry {root : Node} {p : List Text} {entries : List (Text × Node)} (name : Text)
    (node : Node) (h : root.at? p = some (.dir entries)) :
    (node.put root (p ++ [name])).at? (p ++ [name]) = some node := by
  induction p generalizing root with
  | nil =>
      obtain rfl : root = .dir entries := Option.some.inj h
      simp [put, at?, lookup_setEntry]
  | cons n p ih =>
      cases root with
      | file content => cases h
      | link target => cases h
      | dir outer =>
          rw [at?] at h
          cases hchild : outer.lookup n with
          | none => simp [hchild] at h
          | some child =>
              rw [hchild] at h
              rw [List.cons_append, put_below node (by simp) hchild, at?, lookup_setEntry,
                if_pos rfl]
              exact ih h

/-- What is put in the place of a node is found there. -/
theorem at?_put_self {root old : Node} {p : List Text} (node : Node)
    (h : root.at? p = some old) : (node.put root p).at? p = some node := by
  rcases List.eq_nil_or_concat p with rfl | ⟨parent, name, rfl⟩
  · cases root <;> rfl
  · rw [List.concat_eq_append] at h ⊢
    rw [at?_append] at h
    obtain ⟨outer, houter, hname⟩ := Option.bind_eq_some_iff.mp h
    cases outer with
    | file content => cases hname
    | link target => cases hname
    | dir entries => exact at?_put_entry name node houter

/-- **A file stays as it is** when a node is put at a place that does not lie on the way to
it. -/
theorem at?_put_of_file {root : Node} {p q : List Text} {content : Text} (node : Node)
    (hfile : root.at? q = some (.file content)) (haway : ¬p <+: q) :
    (node.put root p).at? q = some (.file content) := by
  induction q generalizing root p with
  | nil =>
      obtain rfl : root = .file content := Option.some.inj hfile
      cases p with
      | nil => exact absurd List.nil_prefix haway
      | cons name p => simp [put, at?]
  | cons n q ih =>
      cases p with
      | nil => exact absurd List.nil_prefix haway
      | cons name p =>
          cases root with
          | file content => cases hfile
          | link target => cases hfile
          | dir entries =>
              rw [at?] at hfile
              cases hchild : entries.lookup n with
              | none => simp [hchild] at hfile
              | some child =>
                  rw [hchild] at hfile
                  by_cases hn : n = name
                  · -- the place goes on below the same entry
                    subst hn
                    have hbelow : ¬p <+: q := fun h => haway (List.cons_prefix_cons.mpr ⟨rfl, h⟩)
                    have hp : p ≠ [] := fun hnil => hbelow (hnil ▸ List.nil_prefix)
                    rw [put_below node hp hchild, at?, lookup_setEntry, if_pos rfl]
                    exact ih hfile hbelow
                  · obtain ⟨changed, hput, hlookup⟩ := lookup_put_other node entries hn p
                    rw [hput, at?, hlookup, hchild]
                    exact hfile

/-- Nothing lies below a file. -/
theorem eq_of_prefix {root : Node} {p q : List Text} {content : Text} {node : Node}
    (hfile : root.at? p = some (.file content)) (hnode : root.at? q = some node)
    (h : p <+: q) : p = q := by
  obtain ⟨below, rfl⟩ := h
  rw [at?_append, hfile, Option.bind_some] at hnode
  cases below with
  | nil => simp
  | cons name below => simp [at?] at hnode

end Node

/-! ## Resolving step by step -/

namespace Disk

/-- A name that an entry of a directory can have. -/
def isPlainName (name : Text) : Bool :=
  name ≠ Path.here && name ≠ Path.above && name.width ≤ nameLimit

/-- A plain name is no dots and is not too long. -/
theorem isPlainName_iff {name : Text} : isPlainName name = true ↔
    name ≠ Path.here ∧ name ≠ Path.above ∧ ¬nameLimit < name.width := by
  simp [isPlainName, and_assoc]

section Steps

variable {root node : Node} {followLast : Bool} {links : Nat} {start rest : List Text}
  {name : Text} {entries : List (Text × Node)} {found : Place}

/-- Without names, resolving ends where it is. -/
theorem resolveFrom_nil (links : Nat) (hat : root.at? start.reverse = some node) :
    resolveFrom root followLast links start [] = .ok (.found start.reverse node) := by
  rw [resolveFrom.eq_def, hat]

/-- A dot stays in a directory. -/
theorem resolveFrom_here (links : Nat) (hdir : root.at? start.reverse = some (.dir entries))
    (rest : List Text) :
    resolveFrom root followLast links start (Path.here :: rest) =
      resolveFrom root followLast links start rest := by
  rw [resolveFrom.eq_def, hdir]
  exact if_pos rfl

/-- Two dots leave a directory. -/
theorem resolveFrom_above (links : Nat) (hdir : root.at? start.reverse = some (.dir entries))
    (rest : List Text) :
    resolveFrom root followLast links start (Path.above :: rest) =
      resolveFrom root followLast links start.tail rest := by
  have hother : Path.above ≠ Path.here := by decide
  rw [resolveFrom.eq_def, hdir]
  exact (if_neg hother).trans (if_pos rfl)

/-- The last name may be one that the directory lacks. -/
theorem resolveFrom_vacant (links : Nat) (hdir : root.at? start.reverse = some (.dir entries))
    (hname : isPlainName name = true) (hentry : entries.lookup name = none) :
    resolveFrom root followLast links start [name] = .ok (.vacant (name :: start).reverse) := by
  obtain ⟨hhere, habove, hwidth⟩ := isPlainName_iff.mp hname
  rw [resolveFrom.eq_def, hdir]
  simp only [hhere, habove, hwidth, if_false, hentry]
  rfl

/-- A name leads to an entry of a directory, if that is not a link. -/
theorem resolveFrom_entry (links : Nat) {child : Node}
    (hdir : root.at? start.reverse = some (.dir entries)) (hname : isPlainName name = true)
    (hentry : entries.lookup name = some child) (hlink : ∀ target, child ≠ .link target)
    (rest : List Text) :
    resolveFrom root followLast links start (name :: rest) =
      resolveFrom root followLast links (name :: start) rest := by
  obtain ⟨hhere, habove, hwidth⟩ := isPlainName_iff.mp hname
  rw [resolveFrom.eq_def, hdir]
  simp only [hhere, habove, hwidth, if_false, hentry]

/-- A link that is followed leads to its target. -/
theorem resolveFrom_link (links : Nat) {target : Text}
    (hdir : root.at? start.reverse = some (.dir entries)) (hname : isPlainName name = true)
    (hentry : entries.lookup name = some (.link target))
    (hfollow : (rest.isEmpty && !followLast) = false) :
    resolveFrom root followLast (links + 1) start (name :: rest) =
      resolveFrom root followLast links (if Path.isRooted target then [] else start)
        (steps target ++ rest) := by
  obtain ⟨hhere, habove, hwidth⟩ := isPlainName_iff.mp hname
  rw [resolveFrom.eq_def, hdir]
  simp only [hhere, habove, hwidth, if_false, hentry, hfollow]
  rfl

/-- What the next name can do in a directory on a way that leads anywhere: stay or go up, name
what the directory lacks or a link that is not followed, if it is the last, or go on below an
entry or from the target of a link. -/
inductive Advance (root : Node) (followLast : Bool) (entries : List (Text × Node)) :
    Nat → List Text → Text → List Text → Place → Prop
  | here {links : Nat} {start rest : List Text} {found : Place}
      (next : resolveFrom root followLast links start rest = .ok found) :
      Advance root followLast entries links start Path.here rest found
  | above {links : Nat} {start rest : List Text} {found : Place}
      (next : resolveFrom root followLast links start.tail rest = .ok found) :
      Advance root followLast entries links start Path.above rest found
  | vacant {links : Nat} {start : List Text} {name : Text} (hname : isPlainName name = true)
      (hentry : entries.lookup name = none) :
      Advance root followLast entries links start name [] (.vacant (name :: start).reverse)
  | last {links : Nat} {start : List Text} {name target : Text}
      (hname : isPlainName name = true) (hentry : entries.lookup name = some (.link target))
      (hfollow : followLast = false) :
      Advance root followLast entries links start name []
        (.found (name :: start).reverse (.link target))
  | entry {links : Nat} {start rest : List Text} {name : Text} {child : Node} {found : Place}
      (hname : isPlainName name = true) (hentry : entries.lookup name = some child)
      (hlink : ∀ target, child ≠ .link target)
      (next : resolveFrom root followLast links (name :: start) rest = .ok found) :
      Advance root followLast entries links start name rest found
  | link {links : Nat} {start rest : List Text} {name target : Text} {found : Place}
      (hname : isPlainName name = true) (hentry : entries.lookup name = some (.link target))
      (hfollow : (rest.isEmpty && !followLast) = false)
      (next : resolveFrom root followLast links (if Path.isRooted target then [] else start)
        (steps target ++ rest) = .ok found) :
      Advance root followLast entries (links + 1) start name rest found

/-- Without names, resolving succeeds only where something is. -/
theorem of_resolveFrom_nil (h : resolveFrom root followLast links start [] = .ok found) :
    ∃ node, root.at? start.reverse = some node ∧ found = .found start.reverse node := by
  rw [resolveFrom.eq_def] at h
  cases hat : root.at? start.reverse with
  | none => simp [hat] at h
  | some node =>
      simp only [hat, Except.ok.injEq] at h
      exact ⟨node, rfl, h.symm⟩

/-- **Resolving a name** succeeds only in a directory, and by what the name can do there. -/
theorem advance_of_resolveFrom
    (h : resolveFrom root followLast links start (name :: rest) = .ok found) :
    ∃ entries, root.at? start.reverse = some (.dir entries) ∧
      Advance root followLast entries links start name rest found := by
  rw [resolveFrom.eq_def] at h
  cases hat : root.at? start.reverse with
  | none => simp [hat] at h
  | some node =>
      cases node with
      | file content => simp [hat] at h
      | link target => simp [hat] at h
      | dir entries =>
          refine ⟨entries, rfl, ?_⟩
          simp only [hat] at h
          by_cases hhere : name = Path.here
          · rw [if_pos hhere] at h
            exact hhere ▸ .here h
          by_cases habove : name = Path.above
          · rw [if_neg hhere, if_pos habove] at h
            exact habove ▸ .above h
          by_cases hwidth : nameLimit < name.width
          · simp [hhere, habove, hwidth] at h
          have hname : isPlainName name = true := isPlainName_iff.mpr ⟨hhere, habove, hwidth⟩
          rw [if_neg hhere, if_neg habove, if_neg hwidth] at h
          split at h
          · next hentry =>
              split at h
              · next hlast =>
                  obtain rfl := Except.ok.inj h
                  obtain rfl := List.isEmpty_iff.mp hlast
                  exact .vacant hname hentry
              · cases h
          · next target hentry =>
              split at h
              · next hlast =>
                  obtain rfl := Except.ok.inj h
                  obtain ⟨rfl, hfollow⟩ : rest = [] ∧ followLast = false := by simpa using hlast
                  exact .last hname hentry hfollow
              · next hlast =>
                  split at h
                  · cases h
                  · exact .link hname hentry (Bool.eq_false_iff.mpr hlast) h
          · next child hlink hentry => exact .entry hname hentry hlink h

end Steps

end Disk

/-! ## Resolving paths -/

/-- Where resolving leads: to a node that is there, or to a name that a directory lacks. -/
def Place.Stands (root : Node) : Place → Prop
  | .found p node => root.at? p = some node
  | .vacant p => ∃ parent name entries, p = parent ++ [name] ∧
      root.at? parent = some (.dir entries) ∧ entries.lookup name = none

/-- **What a path is resolved to** stands on the disk. -/
theorem Disk.stands_resolveFrom {root : Node} {followLast : Bool} (links : Nat)
    (place parts : List Text) {found : Place}
    (h : resolveFrom root followLast links place parts = .ok found) : found.Stands root := by
  cases parts with
  | nil =>
      obtain ⟨node, hnode, rfl⟩ := of_resolveFrom_nil h
      exact hnode
  | cons name rest =>
      obtain ⟨entries, hdir, step⟩ := advance_of_resolveFrom h
      cases step with
      | here next => exact stands_resolveFrom links place rest next
      | above next => exact stands_resolveFrom links place.tail rest next
      | vacant hname hentry => exact ⟨place.reverse, name, entries, List.reverse_cons, hdir, hentry⟩
      | last hname hentry hfollow =>
          rw [Place.Stands, List.reverse_cons, Node.at?_entry name hdir, hentry]
      | entry hname hentry hlink next => exact stands_resolveFrom links (name :: place) rest next
      | link hname hentry hfollow next => exact stands_resolveFrom _ _ _ next
termination_by (links, parts.length)

/-- The place where resolving a path starts, in reverse. -/
def Disk.origin (d : Disk) (fromRoot : Bool) : List Text := if fromRoot then [] else d.cwd.reverse

/-- A path that leads anywhere is resolved by its names. -/
theorem Disk.resolve_eq_ok_iff {d : Disk} {followLast : Bool} {path : Text} {found : Place} :
    d.resolve followLast path = .ok found ↔
      .char '\x00' ∉ path ∧ path ≠ [] ∧ path.width ≤ pathLimit ∧
        resolveFrom d.root followLast linkLimit (d.origin (Path.isRooted path)) (steps path) =
          .ok found := by
  unfold resolve
  split
  · next hnul => simp [List.contains_iff_mem.mp hnul]
  · next hnul =>
      rw [List.contains_iff_mem] at hnul
      split
      · next hempty => simp [List.isEmpty_iff.mp hempty]
      · next hempty =>
          rw [List.isEmpty_iff] at hempty
          split
          · next hwidth => simp [Nat.not_le.mpr hwidth]
          · next hwidth => simp [hnul, hempty, Nat.not_lt.mp hwidth, origin]

/-- What a path leads to stands on the disk. -/
theorem Disk.stands_resolve {d : Disk} {followLast : Bool} {path : Text} {found : Place}
    (h : d.resolve followLast path = .ok found) : found.Stands d.root :=
  stands_resolveFrom _ _ _ (resolve_eq_ok_iff.mp h).2.2.2

/-- A path that leads anywhere is not empty and not too long. -/
theorem Disk.path_of_resolve {d : Disk} {followLast : Bool} {path : Text} {found : Place}
    (h : d.resolve followLast path = .ok found) : path ≠ [] ∧ path.width ≤ pathLimit := by
  obtain ⟨-, hne, hwidth, -⟩ := resolve_eq_ok_iff.mp h
  exact ⟨hne, hwidth⟩

/-! ## Files at places -/

namespace Disk

/-- A file with a content at a place. -/
def Holds (d : Disk) (place : List Text) (content : Text) : Prop :=
  d.root.at? place = some (.file content)

variable {d d' : Disk} {place p : List Text} {content path : Text}

/-- The content of the file at a place. -/
theorem Holds.contentAt (h : d.Holds place content) : d.contentAt place = content := by
  rw [Disk.contentAt, show d.root.at? place = some (.file content) from h]

/-- Writing to the place of a file. -/
theorem Holds.put_self (h : d.Holds place content) (new : Text) :
    (d.put place (.file new)).Holds place new :=
  Node.at?_put_self (.file new) h

/-- Writing to a place that does not lie on the way to a file. -/
theorem Holds.put_other (h : d.Holds place content) (haway : ¬p <+: place) (node : Node) :
    (d.put p node).Holds place content :=
  Node.at?_put_of_file node h haway

/-- Adding to a file that does not lie on the way to another. -/
theorem Holds.append (h : d.Holds place content) (haway : ¬p <+: place) (more : Text) :
    (d.append p more).Holds place content :=
  h.put_other haway _

/-- **Opening a file**: it is there afterwards, and if it was missing it is the only thing
that is new. -/
theorem openFile_spec (h : d.openFile path = .ok (p, d')) :
    (∃ content, d'.Holds p content) ∧
      (d' = d ∨ d.root.at? p = none ∧ d' = d.put p (.file [])) := by
  rw [openFile] at h
  split at h
  · next place content hfound =>
      cases h
      exact ⟨⟨content, stands_resolve hfound⟩, .inl rfl⟩
  · cases h
  · next place hvacant =>
      cases h
      obtain ⟨parent, name, entries, rfl, hparent, hlookup⟩ := stands_resolve hvacant
      refine ⟨⟨[], Node.at?_put_entry name _ hparent⟩, .inr ⟨?_, rfl⟩⟩
      rw [Node.at?_entry name hparent, hlookup]
  · cases h

/-- What is read is the content of the file that a path leads to. -/
theorem readFile_eq_ok (h : d.readFile path = .ok content) :
    ∃ p, d.resolve true path = .ok (.found p (.file content)) := by
  rw [readFile, lookup] at h
  cases hresolve : d.resolve true path with
  | error fault => simp [hresolve] at h
  | ok found =>
      cases found with
      | vacant p => simp [hresolve] at h
      | found p node =>
          cases node with
          | file content' =>
              simp only [hresolve, Except.ok.injEq] at h
              exact ⟨p, by rw [h]⟩
          | link target => simp [hresolve] at h
          | dir entries => simp [hresolve] at h

/-- Opening a file leaves every file that is there as it is. -/
theorem Holds.openFile (h : d.Holds place content) (hopen : d.openFile path = .ok (p, d')) :
    d'.Holds place content := by
  rcases (openFile_spec hopen).2 with rfl | ⟨hvacant, rfl⟩
  · exact h
  · refine h.put_other ?_ _
    rintro ⟨below, rfl⟩
    rw [Holds, Node.at?_append, hvacant] at h
    cases h

/-- **Writing a file** leaves every other file as it is. -/
theorem Holds.writeFile (h : d.Holds place content) {new : Text}
    (hwrite : d.writeFile path new = .ok d') : ∃ content', d'.Holds place content' := by
  cases hopen : d.openFile path with
  | error failure => simp [Disk.writeFile, hopen, bind, Except.bind] at hwrite
  | ok opened =>
      obtain ⟨p, opened⟩ := opened
      obtain rfl : opened.put p (.file new) = d' := by
        simpa [Disk.writeFile, hopen, bind, Except.bind, pure, Except.pure] using hwrite
      have hkept := h.openFile hopen
      obtain ⟨⟨old, hold⟩, -⟩ := openFile_spec hopen
      by_cases hp : p = place
      · subst hp
        exact ⟨new, hold.put_self new⟩
      · have hapart : ¬p <+: place := fun hprefix => hp (Node.eq_of_prefix hold hkept hprefix)
        exact ⟨content, hkept.put_other hapart _⟩

/-! ## Names in the working directory -/

/-- **A path with one name leads from the root to the entry that has it**, unless that is a
link. -/
theorem resolve_of_steps {path name : Text} (hsteps : steps path = [name])
    (hname : isPlainName name = true) (hnul : path.contains (.char '\x00') = false)
    (hempty : path.isEmpty = false) (hpath : path.width ≤ pathLimit)
    {entries : List (Text × Node)} (hlink : ∀ target, entries.lookup name ≠ some (.link target)) :
    resolve { root := .dir entries } true path =
      .ok ((entries.lookup name).elim (.vacant [name]) (.found [name])) := by
  have hdir : (Node.dir entries).at? ([] : List Text).reverse = some (.dir entries) := rfl
  have horigin : origin { root := .dir entries } (Path.isRooted path) = [] := ite_self []
  refine resolve_eq_ok_iff.mpr
    ⟨by simpa [List.contains_iff_mem] using hnul, by simpa using hempty, hpath, ?_⟩
  rw [hsteps, horigin]
  cases hentry : entries.lookup name with
  | none => exact resolveFrom_vacant linkLimit hdir hname hentry
  | some node =>
      have hnode : (Node.dir entries).at? [name].reverse = some node := by
        rw [← hentry]
        exact Node.at?_entry name hdir
      rw [resolveFrom_entry linkLimit hdir hname hentry (fun target hnode => ?_)]
      · exact resolveFrom_nil linkLimit hnode
      · exact hlink target (hnode ▸ hentry)

/-- A name that leads to the entry of the working directory that has it. -/
def isName (name : Text) : Bool :=
  steps name = [name] && !Path.isRooted name && name ≠ Path.here && name ≠ Path.above &&
    name.width ≤ nameLimit && !name.contains (.char '\x00') && !name.isEmpty

/-- **A name leads to the entry that has it**, unless that is a link. -/
theorem resolve_name {name : Text} (hname : isName name = true) {entries : List (Text × Node)}
    (hlink : ∀ target, entries.lookup name ≠ some (.link target)) :
    resolve { root := .dir entries } true name =
      .ok ((entries.lookup name).elim (.vacant [name]) (.found [name])) := by
  simp only [isName, Bool.and_eq_true, decide_eq_true_eq, Bool.not_eq_true'] at hname
  obtain ⟨⟨⟨⟨⟨⟨hsteps, -⟩, hhere⟩, habove⟩, hwidth⟩, hnul⟩, hempty⟩ := hname
  have hplain : isPlainName name = true := by simp [isPlainName, hhere, habove, hwidth]
  have hpath : name.width ≤ pathLimit := by
    have : nameLimit ≤ pathLimit := by decide
    omega
  exact resolve_of_steps hsteps hplain hnul hempty hpath hlink

variable {name : Text} {entries : List (Text × Node)}

/-- Reading a file of the working directory. -/
theorem readFile_name (hname : isName name = true)
    (h : entries.lookup name = some (.file content)) :
    readFile { root := .dir entries } name = .ok content := by
  rw [readFile, Disk.lookup, resolve_name hname (by simp [h]), h]
  rfl

/-- Opening a file of the working directory. -/
theorem openFile_name (hname : isName name = true)
    (h : entries.lookup name = some (.file content)) :
    openFile { root := .dir entries } name = .ok ([name], { root := .dir entries }) := by
  rw [openFile, resolve_name hname (by simp [h]), h]
  rfl

/-- Opening a file that the working directory does not have. -/
theorem openFile_new (hname : isName name = true) (h : entries.lookup name = none) :
    openFile { root := .dir entries } name =
      .ok ([name], { root := .dir (setEntry name (.file []) entries) }) := by
  rw [openFile, resolve_name hname (by simp [h]), h]
  rfl

end Disk

end TemplateFormat.Storage
