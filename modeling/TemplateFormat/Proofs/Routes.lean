import TemplateFormat.Proofs.CleanPaths
import TemplateFormat.Proofs.Disks

/-!
# The way a path leads

Resolving a path goes step by step from one directory to the next, and links may
lead anywhere.  `Route` tells such a way from outside: one constructor for each
thing that can be done with the next name.

* `route_of_resolveFrom` — what is found is found on a way;
* `Route.append` — resolving goes on from where the names before have led;
* `list_join` — below a directory, a path is listed as the entry with its last
  name;
* `resolve_clean` — in a tree without links, a path and its cleaned form lead to
  the same directory.
-/

namespace TemplateFormat.Storage

open Text

/-- On the way to a directory there are directories. -/
theorem Node.exists_dir {root : Node} {p q : List Text} {entries : List (Text × Node)}
    (h : root.at? (p ++ q) = some (.dir entries)) : ∃ outer, root.at? p = some (.dir outer) := by
  rw [at?_append] at h
  obtain ⟨node, hnode, hbelow⟩ := Option.bind_eq_some_iff.mp h
  cases node with
  | dir outer => exact ⟨outer, hnode⟩
  | file content => cases q <;> cases hbelow
  | link target => cases q <;> cases hbelow

namespace Disk

/-- The way on which names lead from one place to another; it ends at a link only where the
last link of a path is not followed. -/
inductive Route (root : Node) (followLast : Bool) :
    (links : Nat) → (start parts place : List Text) → Node → Prop
  | done {links start node} (hat : root.at? start.reverse = some node) :
      Route root followLast links start [] start.reverse node
  | last {links start entries name target} (hdir : root.at? start.reverse = some (.dir entries))
      (hname : isPlainName name = true) (hentry : entries.lookup name = some (.link target))
      (hfollow : followLast = false) :
      Route root followLast links start [name] (name :: start).reverse (.link target)
  | here {links start entries rest place node}
      (hdir : root.at? start.reverse = some (.dir entries))
      (next : Route root followLast links start rest place node) :
      Route root followLast links start (Path.here :: rest) place node
  | above {links start entries rest place node}
      (hdir : root.at? start.reverse = some (.dir entries))
      (next : Route root followLast links start.tail rest place node) :
      Route root followLast links start (Path.above :: rest) place node
  | entry {links start entries name child rest place node}
      (hdir : root.at? start.reverse = some (.dir entries)) (hname : isPlainName name = true)
      (hentry : entries.lookup name = some child) (hlink : ∀ target, child ≠ .link target)
      (next : Route root followLast links (name :: start) rest place node) :
      Route root followLast links start (name :: rest) place node
  | link {links start entries name target rest place node}
      (hdir : root.at? start.reverse = some (.dir entries)) (hname : isPlainName name = true)
      (hentry : entries.lookup name = some (.link target))
      (hfollow : (rest.isEmpty && !followLast) = false)
      (next : Route root followLast links (if Path.isRooted target then [] else start)
        (steps target ++ rest) place node) :
      Route root followLast (links + 1) start (name :: rest) place node

variable {root : Node} {followLast : Bool} {links : Nat} {start rest place : List Text}
  {node : Node} {entries : List (Text × Node)} {name path : Text}

/-! ## Resolving on a way -/

/-- **What is found is found on a way.** -/
theorem route_of_resolveFrom (links : Nat) (start parts : List Text)
    (h : resolveFrom root followLast links start parts = .ok (.found place node)) :
    Route root followLast links start parts place node := by
  cases parts with
  | nil =>
      obtain ⟨node', hat, heq⟩ := of_resolveFrom_nil h
      obtain ⟨rfl, rfl⟩ := Place.found.inj heq
      exact .done hat
  | cons name rest =>
      obtain ⟨entries, hdir, step⟩ := advance_of_resolveFrom h
      cases step with
      | here next => exact .here hdir (route_of_resolveFrom links start rest next)
      | above next => exact .above hdir (route_of_resolveFrom links start.tail rest next)
      | last hname hentry hfollow => exact .last hdir hname hentry hfollow
      | entry hname hentry hlink next =>
          exact .entry hdir hname hentry hlink (route_of_resolveFrom links (name :: start) rest next)
      | link hname hentry hfollow next =>
          exact .link hdir hname hentry hfollow (route_of_resolveFrom _ _ _ next)
termination_by (links, parts.length)

/-- **Resolving goes on from where the names before have led**, with the links that are
left. -/
theorem Route.append {parts : List Text} (h : Route root true links start parts place node) :
    ∃ left, ∀ rest ≠ [], resolveFrom root followLast links start (parts ++ rest) =
      resolveFrom root followLast left place.reverse rest := by
  induction h with
  | done hat => exact ⟨_, fun rest _ => by rw [List.reverse_reverse, List.nil_append]⟩
  | last hdir hname hentry hfollow => cases hfollow
  | here hdir next ih =>
      obtain ⟨left, hleft⟩ := ih
      exact ⟨left, fun rest hrest => (resolveFrom_here _ hdir _).trans (hleft rest hrest)⟩
  | above hdir next ih =>
      obtain ⟨left, hleft⟩ := ih
      exact ⟨left, fun rest hrest => (resolveFrom_above _ hdir _).trans (hleft rest hrest)⟩
  | entry hdir hname hentry hlink next ih =>
      obtain ⟨left, hleft⟩ := ih
      exact ⟨left, fun rest hrest =>
        (resolveFrom_entry _ hdir hname hentry hlink _).trans (hleft rest hrest)⟩
  | link hdir hname hentry hfollow next ih =>
      obtain ⟨left, hleft⟩ := ih
      refine ⟨left, fun rest hrest => ?_⟩
      rw [List.cons_append, resolveFrom_link _ hdir hname hentry (by simp [hrest]),
        ← List.append_assoc]
      exact hleft rest hrest

/-- A way that ends at a directory does not depend on whether the last link is followed. -/
theorem Route.follow {parts : List Text}
    (h : Route root false links start parts place (.dir entries)) :
    resolveFrom root true links start parts = .ok (.found place (.dir entries)) := by
  generalize hnode : Node.dir entries = node at h
  induction h with
  | done hat => exact resolveFrom_nil _ hat
  | last hdir hname hentry hfollow => cases hnode
  | here hdir next ih => exact (resolveFrom_here _ hdir _).trans (ih hnode)
  | above hdir next ih => exact (resolveFrom_above _ hdir _).trans (ih hnode)
  | entry hdir hname hentry hlink next ih =>
      exact (resolveFrom_entry _ hdir hname hentry hlink _).trans (ih hnode)
  | link hdir hname hentry hfollow next ih =>
      exact (resolveFrom_link _ hdir hname hentry (by simp)).trans (ih hnode)

/-! ## Resolving a path -/

variable {d : Disk}

/-- The way on which a path leads to a node. -/
theorem route_of_resolve (h : d.resolve followLast path = .ok (.found place node)) :
    Route d.root followLast linkLimit (d.origin (Path.isRooted path)) (steps path) place node :=
  route_of_resolveFrom _ _ _ (resolve_eq_ok_iff.mp h).2.2.2

/-- What is looked up is the node that the path leads to. -/
theorem lookup_eq_ok_iff {attempt : Attempt} : d.lookup attempt followLast path = .ok node ↔
    ∃ place, d.resolve followLast path = .ok (.found place node) := by
  unfold lookup
  cases d.resolve followLast path with
  | error fault => simp
  | ok found =>
      cases found with
      | vacant place => simp
      | found place node' => simp

/-- What is listed is the directory that the path leads to. -/
theorem resolve_of_list (h : d.list path = .ok entries) :
    ∃ place, d.resolve true path = .ok (.found place (.dir entries)) := by
  rw [list] at h
  cases hlookup : d.lookup .open true path with
  | error failure => simp [hlookup] at h
  | ok node =>
      cases node with
      | file content => simp [hlookup] at h
      | link target => simp [hlookup] at h
      | dir inner =>
          obtain ⟨place, hplace⟩ := lookup_eq_ok_iff.mp hlookup
          simp only [hlookup, Except.ok.injEq] at h
          exact ⟨place, by rw [hplace, h]⟩

/-- The directory that a path leads to is listed. -/
theorem list_of_resolve (h : d.resolve true path = .ok (.found place (.dir entries))) :
    d.list path = .ok entries := by
  rw [list, lookup, h]

/-- The dot that stands for a path without names leads nowhere else. -/
theorem Route.of_spell {fromRoot : Bool} {ps : List Text} (hps : Path.IsCleaned fromRoot ps)
    (h : Route root followLast links start (steps (Path.spell fromRoot ps)) place node) :
    Route root followLast links start ps place node := by
  rw [steps_spell hps] at h
  cases ps with
  | cons part ps => exact h
  | nil =>
      have hdot : isPlainName Path.here = false := by decide
      cases h with
      | here hdir next => exact next
      | last hdir hname hentry hfollow => simp [hdot] at hname
      | entry hdir hname hentry hlink next => simp [hdot] at hname
      | link hdir hname hentry hfollow next => simp [hdot] at hname

/-- **Below a directory, a path is listed as the entry with its last name**, if it is
listed at all. -/
theorem list_join {sub listed : List (Text × Node)} (hpath : path ≠ [])
    (hname : Path.isProper name = true)
    (hdir : d.resolve true (Path.clean path) = .ok (.found place (.dir entries)))
    (hentry : entries.lookup name = some (.dir sub))
    (h : d.list (Path.join path name) = .ok listed) : listed = sub := by
  have hparts := Path.isCleaned_parts path
  have hmore : Path.IsCleaned (Path.isRooted path) (Path.parts path ++ [name]) :=
    hparts.append (by simpa using hname)
  obtain ⟨found, hfound⟩ := resolve_of_list h
  have hat := stands_resolve hdir
  rw [Path.clean_eq] at hdir
  have hroute := route_of_resolve hdir
  rw [Path.isRooted_spell hparts] at hroute
  obtain ⟨left, hleft⟩ := (hroute.of_spell hparts).append
  rw [Path.join_eq_spell hpath hname] at hfound
  have hjoined := (resolve_eq_ok_iff.mp hfound).2.2.2
  rw [Path.isRooted_spell hmore, steps_spell hmore, if_neg (by simp), hleft _ (by simp)] at hjoined
  obtain ⟨hne, hhere, habove, -⟩ := Path.isProper_iff.mp hname
  have hlast := route_of_resolveFrom _ _ _ hjoined
  have hplace : d.root.at? place.reverse.reverse = some (.dir entries) := by
    rwa [List.reverse_reverse]
  cases hlast with
  | here => exact absurd rfl hhere
  | above => exact absurd rfl habove
  | entry hdir' hplain hentry' hlink next =>
      cases next with
      | done hat' =>
          have hsub := Node.at?_entry name hplace
          rw [← List.reverse_cons, hat', hentry] at hsub
          exact Node.dir.inj (Option.some.inj hsub)
  | link hdir' hplain hentry' hfollow next =>
      obtain rfl := Node.dir.inj (Option.some.inj (hdir'.symm.trans hplace))
      rw [hentry] at hentry'
      cases hentry'

/-! ## Cleaning a path in a tree without links -/

/-- Whether a tree has no links. -/
def Linkless (root : Node) : Prop := ∀ place target, root.at? place ≠ some (.link target)

/-- What a way without links leads to, and what cleaning leaves of its names: both go up from
the first place, and then along names. -/
def Matches (fromRoot : Bool) (first stack place : List Text) : Prop :=
  ∃ names ups, stack = names ++ List.replicate ups Path.above ∧
    place = names ++ first.drop ups ∧ (∀ name ∈ names, isPlainName name = true) ∧
    (fromRoot = true → ups = 0 ∧ first = [])

variable {fromRoot : Bool} {first stack : List Text}

/-- Going up on both sides. -/
theorem Matches.push_above (h : Matches fromRoot first stack place) :
    Matches fromRoot first (Path.push fromRoot stack Path.above) place.tail := by
  obtain ⟨names, ups, rfl, rfl, hnames, hroot⟩ := h
  rw [Path.push_above]
  cases names with
  | cons name names =>
      have hname := hnames name List.mem_cons_self
      simp only [isPlainName, Bool.and_eq_true, decide_eq_true_eq] at hname
      refine ⟨names, ups, ?_, rfl, fun n hn => hnames n (List.mem_cons_of_mem name hn), hroot⟩
      exact if_neg hname.1.2
  | nil =>
      cases fromRoot with
      | true =>
          obtain ⟨rfl, rfl⟩ := hroot rfl
          exact ⟨[], 0, rfl, rfl, by simp, fun _ => ⟨rfl, rfl⟩⟩
      | false =>
          refine ⟨[], ups + 1, ?_, ?_, by simp, by simp⟩
          · cases ups <;> rfl
          · simp

/-- One more name on both sides. -/
theorem Matches.push_name (h : Matches fromRoot first stack place) (hname : isPlainName name = true)
    (hne : name ≠ []) : Matches fromRoot first (Path.push fromRoot stack name) (name :: place) := by
  obtain ⟨names, ups, rfl, rfl, hnames, hroot⟩ := h
  have hplain := hname
  simp only [isPlainName, Bool.and_eq_true, decide_eq_true_eq] at hplain
  obtain ⟨⟨hhere, habove⟩, -⟩ := hplain
  exact ⟨name :: names, ups, Path.push_name _ _ hne hhere habove, rfl,
    List.forall_mem_cons.mpr ⟨hname, hnames⟩, hroot⟩

/-- **Without links, a way leads where cleaning its names says.** -/
theorem Route.matches {parts : List Text} (hlinks : Linkless root)
    (h : Route root followLast links start parts place node) (hparts : ∀ part ∈ parts, part ≠ [])
    (hstart : Matches fromRoot first stack start) :
    Matches fromRoot first (parts.foldl (Path.push fromRoot) stack) place.reverse := by
  have hno {start : List Text} {entries : List (Text × Node)} {name target : Text}
      (hdir : root.at? start.reverse = some (.dir entries))
      (hentry : entries.lookup name = some (.link target)) : False :=
    hlinks _ target ((Node.at?_entry name hdir).trans hentry)
  induction h generalizing stack with
  | done hat => rwa [List.reverse_reverse]
  | last hdir hname hentry hfollow => exact (hno hdir hentry).elim
  | here hdir next ih =>
      exact ih (fun part hpart => hparts part (List.mem_cons_of_mem _ hpart)) hstart
  | above hdir next ih =>
      exact ih (fun part hpart => hparts part (List.mem_cons_of_mem _ hpart)) hstart.push_above
  | entry hdir hname hentry hlink next ih =>
      exact ih (fun part hpart => hparts part (List.mem_cons_of_mem _ hpart))
        (hstart.push_name hname (hparts _ List.mem_cons_self))
  | link hdir hname hentry hfollow next ih => exact (hno hdir hentry).elim

/-- A way to a directory starts at one. -/
theorem Route.exists_dir {parts : List Text}
    (h : Route root followLast links start parts place (.dir entries)) :
    ∃ outer, root.at? start.reverse = some (.dir outer) := by
  cases h with
  | done hat => exact ⟨entries, hat⟩
  | here hdir => exact ⟨_, hdir⟩
  | above hdir => exact ⟨_, hdir⟩
  | entry hdir => exact ⟨_, hdir⟩
  | link hdir => exact ⟨_, hdir⟩

/-- Going up from a directory. -/
theorem resolveFrom_replicate (ups links : Nat)
    (hdir : root.at? start.reverse = some (.dir entries)) (rest : List Text) :
    resolveFrom root followLast links start (List.replicate ups Path.above ++ rest) =
      resolveFrom root followLast links (start.drop ups) rest := by
  induction ups generalizing start entries with
  | zero => rfl
  | succ ups ih =>
      obtain ⟨outer, houter⟩ : ∃ outer, root.at? start.tail.reverse = some (.dir outer) := by
        cases start with
        | nil => exact ⟨entries, hdir⟩
        | cons name start =>
            rw [List.reverse_cons] at hdir
            exact Node.exists_dir hdir
      rw [List.replicate_succ, List.cons_append, resolveFrom_above links hdir, ih houter,
        List.drop_tail]

/-- Going along names to a directory. -/
theorem resolveFrom_names (links : Nat) {names : List Text}
    (hnames : ∀ name ∈ names, isPlainName name = true)
    (hat : root.at? (start.reverse ++ names) = some (.dir entries)) :
    resolveFrom root followLast links start names =
      .ok (.found (start.reverse ++ names) (.dir entries)) := by
  induction names generalizing start with
  | nil =>
      rw [List.append_nil] at hat ⊢
      exact resolveFrom_nil links hat
  | cons name names ih =>
      obtain ⟨outer, houter⟩ := Node.exists_dir hat
      have hsplit : start.reverse ++ name :: names = (name :: start).reverse ++ names := by simp
      rw [hsplit] at hat ⊢
      obtain ⟨inner, hinner⟩ := Node.exists_dir hat
      rw [List.reverse_cons, Node.at?_entry name houter] at hinner
      rw [resolveFrom_entry links houter (hnames name List.mem_cons_self) hinner (by simp)]
      exact ih (fun n hn => hnames n (List.mem_cons_of_mem name hn)) hat

/-- The parts of a path are what cleaning leaves of the names it is resolved by. -/
theorem foldl_push_steps (fromRoot : Bool) (path : Text) :
    (steps path).foldl (Path.push fromRoot) [] =
      (Path.components path).foldl (Path.push fromRoot) [] := by
  rw [steps, List.foldl_append, ← Path.foldl_push_filter]
  split <;> rfl

/-- A path is resolved by names that are not empty. -/
theorem ne_nil_of_mem_steps {part : Text} (h : part ∈ steps path) : part ≠ [] := by
  rcases List.mem_append.mp h with h | h
  · simpa using (List.mem_filter.mp h).2
  · split at h
    · rw [List.mem_singleton.mp h]
      decide
    · cases h

/-- **In a tree without links, a path and its cleaned form lead to the same directory.** -/
theorem resolve_clean (hlinks : Linkless d.root)
    (h : d.resolve followLast path = .ok (.found place (.dir entries))) :
    d.resolve true (Path.clean path) = .ok (.found place (.dir entries)) := by
  have hcleaned := Path.isCleaned_parts path
  obtain ⟨hnul, hne, hwidth, -⟩ := resolve_eq_ok_iff.mp h
  have hroute := route_of_resolve h
  obtain ⟨outer, houter⟩ := hroute.exists_dir
  have hstart : Matches (Path.isRooted path) (d.origin (Path.isRooted path)) []
      (d.origin (Path.isRooted path)) :=
    ⟨[], 0, rfl, rfl, by simp, fun hroot => ⟨rfl, by rw [hroot]; rfl⟩⟩
  obtain ⟨names, ups, hstack, hplace, hnames, -⟩ :=
    hroute.matches hlinks (fun _ => ne_nil_of_mem_steps) hstart
  have hparts : Path.parts path = List.replicate ups Path.above ++ names.reverse := by
    rw [Path.parts, ← foldl_push_steps, hstack]
    simp
  have hend : place = ((d.origin (Path.isRooted path)).drop ups).reverse ++ names.reverse := by
    rw [← List.reverse_append, ← hplace, List.reverse_reverse]
  have hat : d.root.at? place = some (.dir entries) := stands_resolve h
  have hresolved : resolveFrom d.root true linkLimit (d.origin (Path.isRooted path))
      (Path.parts path) = .ok (.found place (.dir entries)) := by
    rw [hparts, resolveFrom_replicate _ _ houter, hend]
    exact resolveFrom_names _ (by simpa using hnames) (hend ▸ hat)
  refine resolve_eq_ok_iff.mpr ⟨?_, Path.clean_ne_nil path, Nat.le_trans (Path.width_clean_le hne) hwidth, ?_⟩
  · intro hmem
    rcases Path.mem_of_mem_clean hmem with hmem | heq | heq
    · exact hnul hmem
    · cases heq
    · cases heq
  · rw [Path.clean_eq, Path.isRooted_spell hcleaned, steps_spell hcleaned]
    split
    · next hempty =>
        rw [List.isEmpty_iff.mp hempty] at hresolved
        rw [resolveFrom_here _ houter, hresolved]
    · exact hresolved

end Disk

end TemplateFormat.Storage
