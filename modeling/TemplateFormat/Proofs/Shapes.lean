import TemplateFormat.Proofs.Disks
import TemplateFormat.Settings.Find

/-!
# Disks of one shape

Writing to a file that is there changes its content and nothing else.  The disk before and
the disk after have the same names, directories and links, so every path leads to the same
place on both, and only what is read there may differ.

* `Node.faceAt?_put` — what writing to a file does to what is seen at every place;
* `Disk.Alike` — disks of one shape, and `resolve_alike`: where paths lead on them;
* `Disk.LeadsTo` — the place of the file that a path leads to;
* `Disk.Differs` — disks of one shape that differ at some places only, with what reading,
  looking for settings and writing make of them.
-/

namespace TemplateFormat.Storage

/-! ## Faces -/

/-- What is seen of a node without looking below it. -/
inductive Face where
  | file (content : Text)
  | link (target : Text)
  | dir
deriving DecidableEq, Repr

/-- The face without the content of a file. -/
def Face.blank : Face → Face
  | .file _ => .file []
  | other => other

namespace Node

/-- What is seen of a node. -/
def face : Node → Face
  | .file content => .file content
  | .link target => .link target
  | .dir _ => .dir

/-- What is seen at a place. -/
def faceAt? (root : Node) (place : List Text) : Option Face := (root.at? place).map face

/-- What is seen below a directory is seen below its entry. -/
theorem faceAt?_cons (entries : List (Text × Node)) (name : Text) (p : List Text) :
    (Node.dir entries).faceAt? (name :: p) = (entries.lookup name).bind (·.faceAt? p) := by
  unfold faceAt?
  rw [at?]
  cases entries.lookup name <;> rfl

/-- Only a file shows a content. -/
theorem faceAt?_eq_file {root : Node} {p : List Text} {content : Text} :
    root.faceAt? p = some (.file content) ↔ root.at? p = some (.file content) := by
  unfold faceAt?
  cases h : root.at? p with
  | none => simp
  | some node => cases node <;> simp [face]

/-- Only a directory looks like one. -/
theorem face_eq_dir {node : Node} : node.face = .dir ↔ ∃ entries, node = .dir entries := by
  cases node <;> simp [face]

/-- Only the link itself looks like it. -/
theorem face_eq_link {node : Node} {target : Text} :
    node.face = .link target ↔ node = .link target := by
  cases node <;> simp [face]

/-- Where the same is seen, the nodes have the same face. -/
theorem at?_of_faceAt? {root root' : Node} {p : List Text} {node : Node}
    (hface : root'.faceAt? p = root.faceAt? p) (h : root.at? p = some node) :
    ∃ node', root'.at? p = some node' ∧ node'.face = node.face := by
  unfold faceAt? at hface
  rw [h] at hface
  exact Option.map_eq_some_iff.mp hface

/-- **Putting a file under a name of a directory** changes what is seen at its place, and
nowhere else, unless the name is that of a directory. -/
theorem faceAt?_put_entry (new : Text) {root : Node} {parent : List Text}
    {entries : List (Text × Node)} {name : Text} (hparent : root.at? parent = some (.dir entries))
    (hname : ∀ inner, entries.lookup name ≠ some (.dir inner)) (q : List Text) :
    ((Node.file new).put root (parent ++ [name])).faceAt? q =
      if q = parent ++ [name] then some (.file new) else root.faceAt? q := by
  induction parent generalizing root q with
  | nil =>
      obtain rfl : root = .dir entries := Option.some.inj hparent
      rw [List.nil_append, put]
      cases q with
      | nil => rfl
      | cons n q =>
          rw [faceAt?_cons, faceAt?_cons, lookup_setEntry]
          by_cases hn : n = name
          · subst hn
            rw [if_pos rfl, Option.bind_some]
            cases q with
            | nil => simp [faceAt?, at?, face]
            | cons next q =>
                -- nothing is seen below a file, and nothing was below the name
                cases hlookup : entries.lookup n with
                | none => simp [faceAt?, at?]
                | some old =>
                    cases old with
                    | file content => simp [faceAt?, at?]
                    | link target => simp [faceAt?, at?]
                    | dir inner => exact absurd hlookup (hname inner)
          · rw [if_neg hn, if_neg (by simp [hn])]
  | cons m parent ih =>
      cases root with
      | file content => cases hparent
      | link target => cases hparent
      | dir outer =>
          rw [at?] at hparent
          cases hchild : outer.lookup m with
          | none => simp [hchild] at hparent
          | some child =>
              rw [hchild] at hparent
              rw [List.cons_append, put_below _ (by simp) hchild]
              cases q with
              | nil => rfl
              | cons n q =>
                  rw [faceAt?_cons, faceAt?_cons, lookup_setEntry]
                  by_cases hn : n = m
                  · subst hn
                    rw [if_pos rfl, hchild, Option.bind_some, Option.bind_some, ih hparent q]
                    simp
                  · rw [if_neg hn, if_neg (by simp [hn])]

/-- **Writing to a file** changes what is seen at its place, and nowhere else. -/
theorem faceAt?_put (new : Text) {root : Node} {p : List Text} {old : Text}
    (h : root.at? p = some (.file old)) (q : List Text) :
    ((Node.file new).put root p).faceAt? q =
      if q = p then some (.file new) else root.faceAt? q := by
  rcases List.eq_nil_or_concat p with rfl | ⟨parent, name, rfl⟩
  · obtain rfl : root = .file old := Option.some.inj h
    cases q with
    | nil => rfl
    | cons name q => simp [put, faceAt?, at?]
  · rw [List.concat_eq_append] at h ⊢
    have hall := h
    rw [at?_append] at h
    obtain ⟨outer, houter, hname⟩ := Option.bind_eq_some_iff.mp h
    cases outer with
    | file content => cases hname
    | link target => cases hname
    | dir entries =>
        refine faceAt?_put_entry new houter (fun inner hinner => ?_) q
        rw [at?_entry name houter, hinner] at hall
        cases hall

end Node

/-! ## Disks of one shape -/

/-- Disks with the same working directory, names, directories and links; the contents of
files may differ. -/
structure Disk.Alike (d d' : Disk) : Prop where
  cwd : d'.cwd = d.cwd
  faces : ∀ p, (d'.root.faceAt? p).map Face.blank = (d.root.faceAt? p).map Face.blank

/-- A place seen on another disk. -/
def Place.on (root : Node) : Place → Place
  | .found p node => .found p ((root.at? p).getD node)
  | .vacant p => .vacant p

namespace Disk

namespace Alike

variable {d d' d'' : Disk}

theorem refl (d : Disk) : Alike d d := ⟨rfl, fun _ => rfl⟩

theorem symm (h : Alike d d') : Alike d' d := ⟨h.cwd.symm, fun p => (h.faces p).symm⟩

theorem trans (h : Alike d d') (h' : Alike d' d'') : Alike d d'' :=
  ⟨h'.cwd.trans h.cwd, fun p => (h'.faces p).trans (h.faces p)⟩

/-- Where nothing is on one disk, nothing is on the other. -/
theorem at?_none (h : Alike d d') {p : List Text} (hp : d.root.at? p = none) :
    d'.root.at? p = none := by
  have hface := h.faces p
  rw [Node.faceAt?, Node.faceAt?, hp] at hface
  cases hp' : d'.root.at? p with
  | none => rfl
  | some node => simp [hp'] at hface

/-- Where a node is on one disk, one with the same face but for contents is on the other. -/
theorem at?_some (h : Alike d d') {p : List Text} {node : Node} (hp : d.root.at? p = some node) :
    ∃ node', d'.root.at? p = some node' ∧ node'.face.blank = node.face.blank := by
  have hface := h.faces p
  rw [Node.faceAt?, Node.faceAt?, hp] at hface
  cases hp' : d'.root.at? p with
  | none => simp [hp'] at hface
  | some node' => exact ⟨node', rfl, by simpa [hp'] using hface⟩

/-- A file on one disk is a file on the other. -/
theorem at?_file (h : Alike d d') {p : List Text} {content : Text}
    (hp : d.root.at? p = some (.file content)) :
    ∃ content', d'.root.at? p = some (.file content') := by
  obtain ⟨node, hnode, hface⟩ := h.at?_some hp
  cases node with
  | file content' => exact ⟨content', hnode⟩
  | link target => cases hface
  | dir entries => cases hface

/-- A link on one disk is the same link on the other. -/
theorem at?_link (h : Alike d d') {p : List Text} {target : Text}
    (hp : d.root.at? p = some (.link target)) : d'.root.at? p = some (.link target) := by
  obtain ⟨node, hnode, hface⟩ := h.at?_some hp
  cases node with
  | file content => cases hface
  | link target' =>
      obtain rfl := Face.link.inj hface
      exact hnode
  | dir entries => cases hface

/-- A directory on one disk is a directory on the other. -/
theorem at?_dir (h : Alike d d') {p : List Text} {entries : List (Text × Node)}
    (hp : d.root.at? p = some (.dir entries)) :
    ∃ entries', d'.root.at? p = some (.dir entries') := by
  obtain ⟨node, hnode, hface⟩ := h.at?_some hp
  cases node with
  | file content => cases hface
  | link target => cases hface
  | dir entries' => exact ⟨entries', hnode⟩

end Alike

/-- **On disks of one shape a path leads to the same place.** -/
theorem resolveFrom_alike {d d' : Disk} (h : Alike d d') {followLast : Bool} (links : Nat)
    (place parts : List Text) :
    resolveFrom d'.root followLast links place parts =
      (resolveFrom d.root followLast links place parts).map (Place.on d'.root) := by
  rw [resolveFrom.eq_def, resolveFrom.eq_def d.root]
  cases hnode : d.root.at? place.reverse with
  | none => simp [h.at?_none hnode, Except.map]
  | some node =>
      cases parts with
      | nil =>
          obtain ⟨node', hnode', -⟩ := h.at?_some hnode
          simp [hnode', Except.map, Place.on]
      | cons part rest =>
          cases node with
          | file content =>
              obtain ⟨content', hnode'⟩ := h.at?_file hnode
              simp [hnode', Except.map]
          | link target => simp [h.at?_link hnode, Except.map]
          | dir entries =>
              obtain ⟨entries', hnode'⟩ := h.at?_dir hnode
              have hentry := Node.at?_entry part hnode
              have hentry' := Node.at?_entry part hnode'
              simp only [hnode']
              split
              · exact resolveFrom_alike h links place rest
              · split
                · exact resolveFrom_alike h links place.tail rest
                · split
                  · rfl
                  · cases hlookup : entries.lookup part with
                    | none =>
                        rw [hlookup] at hentry
                        rw [← hentry', h.at?_none hentry]
                        cases rest.isEmpty <;> rfl
                    | some child =>
                        rw [hlookup] at hentry
                        cases child with
                        | file content =>
                            obtain ⟨content', hchild⟩ := h.at?_file hentry
                            rw [← hentry', hchild]
                            exact resolveFrom_alike h links (part :: place) rest
                        | dir inner =>
                            obtain ⟨inner', hchild⟩ := h.at?_dir hentry
                            rw [← hentry', hchild]
                            exact resolveFrom_alike h links (part :: place) rest
                        | link target =>
                            have hchild := h.at?_link hentry
                            rw [← hentry', hchild]
                            simp only
                            split
                            · simp [Except.map, Place.on, hchild]
                            · cases links with
                              | zero => rfl
                              | succ links =>
                                  exact resolveFrom_alike h links _ (steps target ++ rest)
termination_by (links, parts.length)

/-- On disks of one shape a path leads to the same place. -/
theorem resolve_alike {d d' : Disk} (h : Alike d d') (followLast : Bool) (path : Text) :
    d'.resolve followLast path = (d.resolve followLast path).map (Place.on d'.root) := by
  unfold resolve
  split
  · rfl
  · split
    · rfl
    · split
      · rfl
      · rw [h.cwd]
        exact resolveFrom_alike h _ _ _

/-- **Looking a path up on disks of one shape** fails in the same way, or finds nodes at the
same place. -/
theorem Alike.lookup {d d' : Disk} (h : Alike d d') (attempt : Attempt) (followLast : Bool)
    (path : Text) :
    (∃ failure, d.lookup attempt followLast path = .error failure ∧
        d'.lookup attempt followLast path = .error failure) ∨
      ∃ p node node', d.resolve followLast path = .ok (.found p node) ∧
        d.root.at? p = some node ∧ d'.root.at? p = some node' ∧
        d.lookup attempt followLast path = .ok node ∧
        d'.lookup attempt followLast path = .ok node' := by
  unfold Disk.lookup
  rw [resolve_alike h]
  cases hresolve : d.resolve followLast path with
  | error fault => exact .inl ⟨_, rfl, rfl⟩
  | ok place =>
      cases place with
      | vacant p => exact .inl ⟨_, rfl, rfl⟩
      | found p node =>
          have hnode : d.root.at? p = some node := stands_resolve hresolve
          obtain ⟨node', hnode', -⟩ := h.at?_some hnode
          refine .inr ⟨p, node, node', rfl, hnode, hnode', rfl, ?_⟩
          simp [Except.map, Place.on, hnode']

/-- On disks of one shape a path leads to a file on both or on neither. -/
theorem Alike.isFile {d d' : Disk} (h : Alike d d') (path : Text) :
    d'.isFile path = d.isFile path := by
  unfold Disk.isFile stat
  rcases h.lookup .stat true path with ⟨failure, hd, hd'⟩ | ⟨p, node, node', -, hp, hp', hd, hd'⟩
  · rw [hd, hd']
  · rw [hd, hd']
    have hface := h.faces p
    rw [Node.faceAt?, Node.faceAt?, hp, hp', Option.map_some, Option.map_some, Option.map_some,
      Option.map_some, Option.some.injEq] at hface
    cases node <;> cases node' <;> first | rfl | cases hface

/-! ## Files that paths lead to -/

/-- The path leads to the file at the place. -/
def LeadsTo (d : Disk) (path : Text) (place : List Text) : Prop :=
  ∃ content, d.resolve true path = .ok (.found place (.file content))

section LeadsTo

variable {d d' : Disk} {path : Text} {p q : List Text}

/-- A path leads to one place. -/
theorem LeadsTo.unique (h : d.LeadsTo path p) (h' : d.LeadsTo path q) : p = q := by
  obtain ⟨content, hp⟩ := h
  obtain ⟨content', hq⟩ := h'
  rw [hp] at hq
  cases hq
  rfl

/-- A file is where a path leads to it. -/
theorem LeadsTo.holds (h : d.LeadsTo path p) : d.Holds p (d.contentAt p) := by
  obtain ⟨content, hp⟩ := h
  have hholds : d.Holds p content := stands_resolve hp
  rwa [hholds.contentAt]

/-- A path that leads to a file is not empty and not too long. -/
theorem LeadsTo.bounds (h : d.LeadsTo path p) : path ≠ [] ∧ path.width ≤ pathLimit := by
  obtain ⟨content, hp⟩ := h
  exact path_of_resolve hp

/-- Reading the file that a path leads to. -/
theorem LeadsTo.readFile (h : d.LeadsTo path p) : d.readFile path = .ok (d.contentAt p) := by
  have hholds := h.holds
  obtain ⟨content, hp⟩ := h
  have hcontent : d.Holds p content := stands_resolve hp
  simp [Disk.readFile, Disk.lookup, hp, hcontent.contentAt]

/-- What is read is the content of the file that the path leads to. -/
theorem leadsTo_of_readFile {content : Text} (h : d.readFile path = .ok content) :
    ∃ p, d.LeadsTo path p ∧ d.contentAt p = content := by
  obtain ⟨p, hp⟩ := readFile_eq_ok h
  exact ⟨p, ⟨content, hp⟩, Holds.contentAt (stands_resolve hp)⟩

/-- **Writing a file that is there** does not fail. -/
theorem LeadsTo.writeFile (h : d.LeadsTo path p) (new : Text) :
    d.writeFile path new = .ok (d.put p (.file new)) := by
  obtain ⟨content, hp⟩ := h
  simp [Disk.writeFile, openFile, hp, bind, Except.bind, pure, Except.pure]

/-- On disks of one shape a path leads to the same file. -/
theorem Alike.leadsTo_iff (h : Alike d d') : d'.LeadsTo path p ↔ d.LeadsTo path p := by
  have hone : ∀ {d d' : Disk}, Alike d d' → d.LeadsTo path p → d'.LeadsTo path p := by
    rintro d d' h ⟨content, hp⟩
    obtain ⟨content', hp'⟩ := h.at?_file (stands_resolve hp)
    exact ⟨content', by rw [resolve_alike h, hp]; simp [Except.map, Place.on, hp']⟩
  exact ⟨hone h.symm, hone h⟩

/-- **A file that is made is where the path led.** -/
theorem resolveFrom_made {root root' : Node} {p : List Text} {content : Text}
    (hmade : ∀ q, root'.faceAt? q = if q = p then some (.file content) else root.faceAt? q)
    (hp : root.at? p = none) (links : Nat) (place parts : List Text)
    (h : resolveFrom root true links place parts = .ok (.vacant p)) :
    resolveFrom root' true links place parts = .ok (.found p (.file content)) := by
  -- what was there is there still, with the same face
  have hkept : ∀ {q node}, root.at? q = some node →
      ∃ node', root'.at? q = some node' ∧ node'.face = node.face := by
    intro q node hq
    have hne : q ≠ p := by
      rintro rfl
      rw [hp] at hq
      cases hq
    exact Node.at?_of_faceAt? (by rw [hmade, if_neg hne]) hq
  cases parts with
  | nil =>
      obtain ⟨node, -, heq⟩ := of_resolveFrom_nil h
      cases heq
  | cons name rest =>
      obtain ⟨entries, hdir, step⟩ := advance_of_resolveFrom h
      obtain ⟨node, hnode, hface⟩ := hkept hdir
      obtain ⟨entries', rfl⟩ := Node.face_eq_dir.mp hface
      have hkeptEntry : ∀ {child}, entries.lookup name = some child →
          ∃ child', entries'.lookup name = some child' ∧ child'.face = child.face := by
        intro child hentry
        rw [← Node.at?_entry name hdir] at hentry
        rw [← Node.at?_entry name hnode]
        exact hkept hentry
      cases step with
      | here next =>
          rw [resolveFrom_here links hnode]
          exact resolveFrom_made hmade hp links place rest next
      | above next =>
          rw [resolveFrom_above links hnode]
          exact resolveFrom_made hmade hp links place.tail rest next
      | vacant hname hentry =>
          have hfile : root'.at? (name :: place).reverse = some (.file content) := by
            rw [← Node.faceAt?_eq_file, hmade, if_pos rfl]
          have hentry' : entries'.lookup name = some (.file content) := by
            rw [← Node.at?_entry name hnode, ← List.reverse_cons, hfile]
          rw [resolveFrom_entry links hnode hname hentry' (by simp), resolveFrom_nil links hfile]
      | entry hname hentry hlink next =>
          obtain ⟨child', hentry', hface'⟩ := hkeptEntry hentry
          have hlink' : ∀ target, child' ≠ .link target := by
            rintro target rfl
            exact hlink target (Node.face_eq_link.mp hface'.symm)
          rw [resolveFrom_entry links hnode hname hentry' hlink']
          exact resolveFrom_made hmade hp links (name :: place) rest next
      | link hname hentry hfollow next =>
          obtain ⟨child', hentry', hface'⟩ := hkeptEntry hentry
          obtain rfl := Node.face_eq_link.mp hface'
          rw [resolveFrom_link _ hnode hname hentry' hfollow]
          exact resolveFrom_made hmade hp _ _ _ next
termination_by (links, parts.length)

/-- **A path leads to the file that was opened** under it. -/
theorem leadsTo_of_openFile (h : d.openFile path = .ok (p, d')) : d'.LeadsTo path p := by
  unfold Disk.openFile at h
  split at h
  · next place content hfound =>
      cases h
      exact ⟨content, hfound⟩
  · cases h
  · next place hvacant =>
      cases h
      obtain ⟨parent, name, entries, rfl, hparent, hname⟩ := stands_resolve hvacant
      have hfree : ∀ inner, entries.lookup name ≠ some (.dir inner) := by simp [hname]
      have hmade := Node.faceAt?_put_entry [] hparent hfree
      have habsent : d.root.at? (parent ++ [name]) = none := by
        rw [Node.at?_entry name hparent, hname]
      obtain ⟨hnul, hne, hwidth, hresolved⟩ := resolve_eq_ok_iff.mp hvacant
      refine ⟨[], resolve_eq_ok_iff.mpr ⟨hnul, hne, hwidth, ?_⟩⟩
      exact resolveFrom_made hmade habsent _ _ _ hresolved
  · cases h

end LeadsTo

/-! ## Disks that differ at some places -/

/-- Disks of one shape on which only the files at some places may have other contents. -/
structure Differs (touched : List Text → Prop) (d d' : Disk) : Prop extends Alike d d' where
  kept : ∀ p, ¬touched p → d'.root.faceAt? p = d.root.faceAt? p

namespace Differs

variable {d d' d'' : Disk} {touched more : List Text → Prop} {path : Text} {p : List Text}

theorem refl (touched : List Text → Prop) (d : Disk) : Differs touched d d :=
  ⟨.refl d, fun _ _ => rfl⟩

theorem trans (h : Differs touched d d') (h' : Differs touched d' d'') : Differs touched d d'' :=
  ⟨h.toAlike.trans h'.toAlike, fun p hp => (h'.kept p hp).trans (h.kept p hp)⟩

theorem mono (h : Differs touched d d') (hmore : ∀ p, touched p → more p) : Differs more d d' :=
  ⟨h.toAlike, fun p hp => h.kept p fun htouched => hp (hmore p htouched)⟩

/-- The content of a file that is not touched. -/
theorem contentAt (h : Differs touched d d') (hp : ¬touched p) :
    d'.contentAt p = d.contentAt p := by
  have hface := h.kept p hp
  unfold Node.faceAt? at hface
  unfold Disk.contentAt
  cases hd : d.root.at? p with
  | none => rw [h.at?_none hd]
  | some node =>
      obtain ⟨node', hd', -⟩ := h.at?_some hd
      rw [hd, hd', Option.map_some, Option.map_some, Option.some.injEq] at hface
      rw [hd']
      cases node <;> cases node' <;> first | rfl | cases hface
      rfl

/-- A file that is there stays there. -/
theorem holds (h : Differs touched d d') {content : Text} (hp : d.Holds p content) :
    ∃ content', d'.Holds p content' :=
  h.at?_file hp

/-- **Looking up a path that leads to no file that is touched** fails in the same way, or
finds nodes with the same face. -/
theorem lookup (h : Differs touched d d') (attempt : Attempt)
    (hspared : ∀ p, d.LeadsTo path p → ¬touched p) :
    (∃ failure, d.lookup attempt true path = .error failure ∧
        d'.lookup attempt true path = .error failure) ∨
      ∃ node node', d.lookup attempt true path = .ok node ∧
        d'.lookup attempt true path = .ok node' ∧ node'.face = node.face := by
  rcases h.toAlike.lookup attempt true path with
    hfails | ⟨p, node, node', hresolve, hp, hp', hd, hd'⟩
  · exact .inl hfails
  · refine .inr ⟨node, node', hd, hd', ?_⟩
    cases node with
    | file content =>
        have hface := h.kept p (hspared p ⟨content, hresolve⟩)
        simpa [Node.faceAt?, hp, hp'] using hface
    | link target =>
        rw [h.at?_link hp] at hp'
        cases hp'
        rfl
    | dir entries =>
        obtain ⟨entries', hdir⟩ := h.at?_dir hp
        rw [hdir] at hp'
        cases hp'
        rfl

/-- Reading a file that is not touched. -/
theorem readFile (h : Differs touched d d') (hspared : ∀ p, d.LeadsTo path p → ¬touched p) :
    d'.readFile path = d.readFile path := by
  unfold Disk.readFile
  rcases h.lookup .open hspared with ⟨failure, hd, hd'⟩ | ⟨node, node', hd, hd', hface⟩
  · rw [hd, hd']
  · rw [hd, hd']
    cases node <;> cases node' <;> cases hface <;> rfl

/-- Writing to a file touches its place. -/
theorem put {content : Text} (h : d.Holds p content) (new : Text) :
    Differs (· = p) d (d.put p (.file new)) := by
  have hface := Node.faceAt?_put new (show d.root.at? p = some (.file content) from h)
  refine ⟨⟨rfl, fun q => ?_⟩, fun q hq => ?_⟩
  · rw [show (d.put p (.file new)).root = (Node.file new).put d.root p from rfl, hface]
    split
    · next hq => rw [hq, Node.faceAt?_eq_file.mpr h]; rfl
    · rfl
  · rw [show (d.put p (.file new)).root = (Node.file new).put d.root p from rfl, hface, if_neg hq]

/-- Adding to a file touches its place. -/
theorem append {content : Text} (h : d.Holds p content) (line : Text) :
    Differs (· = p) d (d.append p line) :=
  put h _

end Differs

/-! ## Settings -/

/-- None of some places is that of the settings that apply to the file at a path. -/
def Spares (d : Disk) (touched : List Text → Prop) (path : Text) : Prop :=
  ∀ found p, Settings.find d (Path.dir path) = some found → d.LeadsTo found p → ¬touched p

/-- **On disks of one shape the same settings file applies** to a directory. -/
theorem Alike.find {d d' : Disk} (h : Alike d d') (dir : Text) :
    Settings.find d' dir = Settings.find d dir := by
  have hin : ∀ dir, Settings.inDir? d' dir = Settings.inDir? d dir := by
    intro dir
    unfold Settings.inDir?
    exact congrArg (List.find? · _) (funext h.isFile)
  have hfrom : ∀ fuel dir, Settings.findFrom d' fuel dir = Settings.findFrom d fuel dir := by
    intro fuel
    induction fuel with
    | zero => exact fun _ => rfl
    | succ fuel ih =>
        intro dir
        rw [Settings.findFrom, Settings.findFrom, hin]
        split
        · rfl
        · simp only [ih]
  unfold Settings.find absolute workingDir
  rw [h.cwd, hfrom]

theorem Spares.mono {d : Disk} {touched more : List Text → Prop} {path : Text}
    (h : d.Spares more path) (hmore : ∀ p, touched p → more p) : d.Spares touched path :=
  fun found p hfind hleads htouched => h found p hfind hleads (hmore p htouched)

/-- Whether settings are spared is seen on any disk of the shape. -/
theorem Spares.alike {d d' : Disk} {touched : List Text → Prop} {path : Text}
    (h : d.Spares touched path) (halike : Alike d d') : d'.Spares touched path := by
  intro found p hfind hleads
  rw [halike.find] at hfind
  exact h found p hfind (halike.leadsTo_iff.mp hleads)

/-- **Settings that are spared** are loaded as before. -/
theorem Differs.forFile {d d' : Disk} {touched : List Text → Prop} {path : Text}
    (h : Differs touched d d') (hspared : d.Spares touched path) :
    Settings.forFile d' path = Settings.forFile d path := by
  unfold Settings.forFile
  rw [h.toAlike.find]
  cases hfind : Settings.find d (Path.dir path) with
  | none => rfl
  | some found =>
      simp only [Settings.load]
      rcases h.lookup .open fun p hleads => hspared found p hfind hleads with
        ⟨failure, hd, hd'⟩ | ⟨node, node', hd, hd', hface⟩
      · rw [hd, hd']
      · rw [hd, hd']
        cases node <;> cases node' <;> cases hface <;> rfl

/-! ## Names in the root -/

/-- A file of the working directory is at its name. -/
theorem leadsTo_name {name content : Text} (hname : isName name = true)
    {entries : List (Text × Node)} (h : entries.lookup name = some (.file content))
    {p : List Text} : LeadsTo { root := .dir entries } name p ↔ p = [name] := by
  have hresolve : resolve { root := .dir entries } true name =
      .ok (.found [name] (.file content)) := by
    rw [resolve_name hname (by simp [h]), h, Option.elim_some]
  constructor
  · rintro ⟨content', hp⟩
    rw [hresolve] at hp
    cases hp
    rfl
  · rintro rfl
    exact ⟨content, hresolve⟩

/-- The name of a settings file leads from the root to the entry that has it, unless that is a
link. -/
theorem resolve_fileName {name : Text} (hname : name ∈ Settings.fileNames)
    {entries : List (Text × Node)} (hlink : ∀ target, entries.lookup name ≠ some (.link target)) :
    resolve { root := .dir entries } true (.char '/' :: name) =
      .ok ((entries.lookup name).elim (.vacant [name]) (.found [name])) := by
  have hnames : ∀ name ∈ Settings.fileNames, steps (.char '/' :: name) = [name] ∧
      isPlainName name = true ∧ List.contains (.char '/' :: name) (.char '\x00') = false ∧
      Text.width (.char '/' :: name) ≤ pathLimit := by decide
  obtain ⟨hsteps, hplain, hnul, hwidth⟩ := hnames name hname
  exact resolve_of_steps hsteps hplain hnul rfl hwidth hlink

/-- Where the working directory is the root and has no settings file, none applies. -/
theorem find_of_absent {entries : List (Text × Node)}
    (h : ∀ name ∈ Settings.fileNames, entries.lookup name = none) :
    Settings.find { root := .dir entries } Path.here = none := by
  have habsent : ∀ name ∈ Settings.fileNames,
      isFile { root := .dir entries } (.char '/' :: name) = false := by
    intro name hname
    have hresolve := resolve_fileName hname
      (show ∀ target, entries.lookup name ≠ some (.link target) by simp [h name hname])
    rw [h name hname] at hresolve
    simp [isFile, stat, Disk.lookup, hresolve]
  have hjoin : Settings.fileNames.map (Path.join (text "/")) =
      Settings.fileNames.map (.char '/' :: ·) := by decide
  have hin : Settings.inDir? { root := .dir entries } (text "/") = none := by
    rw [Settings.inDir?, hjoin, List.find?_eq_none]
    intro path hpath
    obtain ⟨name, hname, rfl⟩ := List.mem_map.mp hpath
    rw [habsent name hname]
    decide
  have hroot : absolute { root := .dir entries } Path.here = text "/" := by
    show Path.absolute (text "/") Path.here = text "/"
    decide
  have habove : Path.dir (text "/") = text "/" := by decide
  unfold Settings.find
  simp only [hroot]
  rw [Settings.findFrom, hin]
  simp only [habove, if_true]

end Disk

end TemplateFormat.Storage
