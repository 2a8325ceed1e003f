import TemplateFormat.Proofs.Ancestors

/-!
# The leaves of a file tree

The leaves of a tree are the places of everything in it that is not a directory.
Directories of some names may be left out, with all that is below them.

* `Node.isOrdered` — every directory has its entries in the order of their names;
* `Node.leaves` — the leaves of a tree, by recursion on the tree;
* `Node.mem_leaves_iff` — which places these are, told by what is at a place;
* `Node.pairwise_leaves` — they come in order, and so each of them once.
-/

namespace TemplateFormat.Storage

mutual

/-- Whether each directory of a tree has proper names only, in their order and none of them
twice. -/
def Node.isOrdered : Node → Bool
  | .dir entries => areOrdered entries
  | _ => true

/-- Whether the names of a directory are in order, and those in each directory below. -/
def areOrdered : List (Text × Node) → Bool
  | [] => true
  | (name, node) :: rest =>
    Path.isProper name && rest.all (nameBefore name ·.1) && node.isOrdered && areOrdered rest

end

mutual

/-- The leaves at and below a node, without what is in directories of the names
`skipped`. -/
def Node.leaves (skipped : List Text) : Node → List (List Text)
  | .dir entries => leavesAmong skipped entries
  | _ => [[]]

/-- The leaves below a directory with these entries. -/
def leavesAmong (skipped : List Text) : List (Text × Node) → List (List Text)
  | [] => []
  | (name, node) :: rest =>
    (if node.isDir && skipped.contains name then []
      else (node.leaves skipped).map (name :: ·)) ++ leavesAmong skipped rest

end

/-- The order of places: that of the first names in which they differ. -/
def placeBefore : List Text → List Text → Prop := List.Lex (nameBefore · · = true)

variable {skipped : List Text} {entries : List (Text × Node)} {name : Text} {node : Node}

/-! ## The entries of an ordered directory -/

theorem areOrdered_iff : areOrdered entries = true ↔
    (∀ e ∈ entries, Path.isProper e.1 = true ∧ e.2.isOrdered = true) ∧
      entries.Pairwise (nameBefore ·.1 ·.1 = true) := by
  induction entries with
  | nil => simp [areOrdered]
  | cons entry rest ih =>
      obtain ⟨name, node⟩ := entry
      simp only [areOrdered, Bool.and_eq_true, List.all_eq_true, ih, List.forall_mem_cons,
        List.pairwise_cons]
      tauto

theorem areOrdered_of_cons {entry : Text × Node} (h : areOrdered (entry :: entries) = true) :
    areOrdered entries = true := by
  rw [areOrdered, Bool.and_eq_true] at h
  exact h.2

/-- No name comes before itself. -/
theorem nameBefore_self (name : Text) : nameBefore name name = false := by
  simp [nameBefore]

/-- The entries of an ordered directory are found under their names. -/
theorem lookup_eq_some_iff (h : areOrdered entries = true) :
    entries.lookup name = some node ↔ (name, node) ∈ entries := by
  have hpairwise := (areOrdered_iff.mp h).2
  clear h
  induction entries with
  | nil => simp
  | cons entry rest ih =>
      obtain ⟨n, first⟩ := entry
      obtain ⟨hbefore, hrest⟩ := List.pairwise_cons.mp hpairwise
      rw [List.lookup_cons, List.mem_cons, Prod.mk.injEq]
      by_cases hn : name = n
      · subst hn
        have hnot : (name, node) ∉ rest := by
          intro hmem
          have hself := hbefore _ hmem
          rw [nameBefore_self] at hself
          cases hself
        simp [hnot, eq_comm]
      · simp [hn, beq_false_of_ne hn, ih hrest]

/-- What is at a place of an ordered tree is ordered. -/
theorem Node.isOrdered_at? {place : List Text} {root : Node} (h : root.isOrdered = true)
    (hat : root.at? place = some node) : node.isOrdered = true := by
  induction place generalizing root with
  | nil =>
      obtain rfl := Option.some.inj hat
      exact h
  | cons name place ih =>
      cases root with
      | file content => cases hat
      | link target => cases hat
      | dir entries =>
          rw [at?] at hat
          cases hlookup : entries.lookup name with
          | none => simp [hlookup] at hat
          | some child =>
              rw [hlookup] at hat
              have hmem := (lookup_eq_some_iff h).mp hlookup
              exact ih ((areOrdered_iff.mp h).1 _ hmem).2 hat

/-- The names on the way to a place of an ordered tree are proper. -/
theorem Node.isProper_of_at? {place : List Text} {root : Node} (h : root.isOrdered = true)
    (hat : root.at? place = some node) : ∀ name ∈ place, Path.isProper name = true := by
  induction place generalizing root with
  | nil => simp
  | cons first place ih =>
      cases root with
      | file content => cases hat
      | link target => cases hat
      | dir entries =>
          rw [at?] at hat
          cases hlookup : entries.lookup first with
          | none => simp [hlookup] at hat
          | some child =>
              rw [hlookup] at hat
              have hmem := (lookup_eq_some_iff h).mp hlookup
              have hentry := (areOrdered_iff.mp h).1 _ hmem
              exact List.forall_mem_cons.mpr ⟨hentry.1, ih hentry.2 hat⟩

/-! ## Which places are leaves -/

/-- The leaves of a directory, entry by entry. -/
theorem leavesAmong_eq : leavesAmong skipped entries = entries.flatMap fun e =>
    if e.2.isDir && skipped.contains e.1 then [] else (e.2.leaves skipped).map (e.1 :: ·) := by
  induction entries with
  | nil => rfl
  | cons entry rest ih => rw [leavesAmong, ih, List.flatMap_cons]

/-- A leaf below a directory is one of an entry that is not left out. -/
theorem cons_mem_leavesAmong_iff {place : List Text} (h : areOrdered entries = true) :
    name :: place ∈ leavesAmong skipped entries ↔
      ∃ child, entries.lookup name = some child ∧ (child.isDir = true → name ∉ skipped) ∧
        place ∈ child.leaves skipped := by
  rw [leavesAmong_eq, List.mem_flatMap]
  constructor
  · rintro ⟨⟨n, child⟩, hentry, hmem⟩
    split at hmem
    · cases hmem
    · next hkept =>
        obtain ⟨below, hbelow, hcons⟩ := List.mem_map.mp hmem
        obtain ⟨rfl, rfl⟩ := List.cons.inj hcons
        refine ⟨child, (lookup_eq_some_iff h).mpr hentry, ?_, hbelow⟩
        intro hdir hname
        exact hkept (by simp [hdir, hname])
  · rintro ⟨child, hlookup, hkept, hbelow⟩
    refine ⟨(name, child), (lookup_eq_some_iff h).mp hlookup, ?_⟩
    rw [if_neg (by simpa using hkept)]
    exact List.mem_map_of_mem hbelow

/-- **Which places are leaves**: those of anything but a directory, if no directory on the
way has a name that is left out. -/
theorem Node.mem_leaves_iff {place : List Text} (h : node.isOrdered = true) :
    place ∈ node.leaves skipped ↔
      (∃ leaf, node.at? place = some leaf ∧ leaf.isDir = false) ∧
        ∀ name ∈ place.dropLast, name ∉ skipped := by
  induction place generalizing node with
  | nil =>
      cases node with
      | file content => simp [leaves, at?, isDir]
      | link target => simp [leaves, at?, isDir]
      | dir entries => simp [leaves, leavesAmong_eq, at?, isDir]
  | cons name place ih =>
      cases node with
      | file content => simp [leaves, at?]
      | link target => simp [leaves, at?]
      | dir entries =>
          rw [leaves, cons_mem_leavesAmong_iff h, at?]
          cases hlookup : entries.lookup name with
          | none => simp
          | some child =>
              have hmem := (lookup_eq_some_iff h).mp hlookup
              have hchild := ih ((areOrdered_iff.mp h).1 _ hmem).2
              simp only [Option.some.injEq, exists_eq_left', hchild]
              cases place with
              | nil => simp +contextual [at?]
              | cons next place =>
                  rw [List.dropLast_cons_of_ne_nil (List.cons_ne_nil next place),
                    List.forall_mem_cons]
                  constructor
                  · rintro ⟨hkept, ⟨leaf, hleaf, hfile⟩, hbelow⟩
                    have hdir : child.isDir = true := by
                      cases child with
                      | dir inner => rfl
                      | file content => cases hleaf
                      | link target => cases hleaf
                    exact ⟨⟨leaf, hleaf, hfile⟩, hkept hdir, hbelow⟩
                  · rintro ⟨hleaf, hname, hbelow⟩
                    exact ⟨fun _ => hname, hleaf, hbelow⟩

/-! ## The order of the leaves -/

theorem placeBefore_irrefl (place : List Text) : ¬placeBefore place place := by
  induction place with
  | nil => exact fun h => nomatch h
  | cons name place ih =>
      intro h
      cases h with
      | cons h => exact ih h
      | rel h =>
          rw [nameBefore_self] at h
          cases h

mutual

/-- **The leaves of a tree are in order.** -/
theorem Node.pairwise_leaves : (node : Node) → node.isOrdered = true →
    (node.leaves skipped).Pairwise placeBefore
  | .file _, _ => List.pairwise_singleton _ _
  | .link _, _ => List.pairwise_singleton _ _
  | .dir entries, h => pairwise_leavesAmong entries h

theorem pairwise_leavesAmong : (entries : List (Text × Node)) → areOrdered entries = true →
    (leavesAmong skipped entries).Pairwise placeBefore
  | [], _ => .nil
  | (name, node) :: rest, h => by
      have hordered := areOrdered_iff.mp h
      obtain ⟨hbefore, -⟩ := List.pairwise_cons.mp hordered.2
      have hnode := Node.pairwise_leaves node (hordered.1 (name, node) List.mem_cons_self).2
      have hrest := pairwise_leavesAmong rest (areOrdered_of_cons h)
      rw [leavesAmong, List.pairwise_append]
      refine ⟨?_, hrest, ?_⟩
      · split
        · exact .nil
        · exact List.pairwise_map.mpr (hnode.imp .cons)
      · intro place hplace place' hplace'
        split at hplace
        · cases hplace
        · obtain ⟨below, -, rfl⟩ := List.mem_map.mp hplace
          rw [leavesAmong_eq, List.mem_flatMap] at hplace'
          obtain ⟨entry, hentry, hplace'⟩ := hplace'
          split at hplace'
          · cases hplace'
          · obtain ⟨below', -, rfl⟩ := List.mem_map.mp hplace'
            exact .rel (hbefore entry hentry)

end

/-- Each leaf of a tree is there once. -/
theorem Node.nodup_leaves (h : node.isOrdered = true) : (node.leaves skipped).Nodup := by
  refine (node.pairwise_leaves h).imp ?_
  rintro place _ hbefore rfl
  exact placeBefore_irrefl place hbefore

end TemplateFormat.Storage
