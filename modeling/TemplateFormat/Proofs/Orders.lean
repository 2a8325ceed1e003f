import TemplateFormat.Proofs.Tasks

/-!
# The order of the tasks does not matter

The files of a run may be formatted in any order, although the tasks share the disk, the
settings that are known and the cache.  As long as the paths lead to different files, and
none of them to a settings file, the journal or the file of the cache, no task sees what
another has done.

* `Separate` — paths whose tasks do not meet;
* `Worked` — a state after some of the tasks, told from the state before all of them;
* `Worked.next`, `worked_ofFiles` — one more task, and a whole run;
* `ofFiles_perm` — two orders of the same tasks.
-/

namespace TemplateFormat.Command

open Text Layout Storage

/-- **Paths whose tasks do not meet**: they lead to different files, none of which every
task writes to, and the settings that apply to them are in none of these files. -/
structure Separate (st : State) (files : List Text) : Prop where
  distinct : files.Pairwise fun a b => a ≠ b ∧ ∀ p, st.disk.LeadsTo a p → ¬st.disk.LeadsTo b p
  own : ∀ path ∈ files, ∀ p, st.disk.LeadsTo path p → ¬st.Writes p
  settings : ∀ path ∈ files,
    st.disk.Spares (fun p => (∃ a ∈ files, st.disk.LeadsTo a p) ∨ st.Writes p) path
  standing : st.Standing

namespace Separate

variable {st : State} {files order : List Text}

/-- Some of the paths, if they are still different. -/
theorem of_subset (h : Separate st files) (hsubset : order ⊆ files)
    (hdistinct : order.Pairwise fun a b =>
      a ≠ b ∧ ∀ p, st.disk.LeadsTo a p → ¬st.disk.LeadsTo b p) : Separate st order where
  distinct := hdistinct
  own := fun path hpath => h.own path (hsubset hpath)
  settings := by
    intro path hpath
    refine (h.settings path (hsubset hpath)).mono ?_
    rintro p (⟨a, ha, hleads⟩ | hwrites)
    · exact .inl ⟨a, hsubset ha, hleads⟩
    · exact .inr hwrites
  standing := h.standing

/-- Paths do not meet in any order. -/
theorem perm (h : Separate st files) (hperm : order.Perm files) : Separate st order := by
  refine h.of_subset hperm.subset ((hperm.pairwise_iff ?_).mpr h.distinct)
  rintro a b ⟨hne, hplaces⟩
  exact ⟨hne.symm, fun p hb ha => hplaces p ha hb⟩

theorem sublist (h : Separate st files) (hsublist : order.Sublist files) : Separate st order :=
  h.of_subset hsublist.subset (h.distinct.sublist hsublist)

/-- The last path is apart from those before. -/
theorem apart {done : List Text} {path a : Text} (h : Separate st (done ++ [path]))
    (ha : a ∈ done) : a ≠ path ∧ ∀ p, st.disk.LeadsTo a p → ¬st.disk.LeadsTo path p :=
  (List.pairwise_append.mp h.distinct).2.2 a ha path List.mem_cons_self

end Separate

/-- **The state after the tasks for some paths**: each file and each entry is what its task
alone would have made of it, and everything else is as it was. -/
structure Worked (mode : Mode) (done : List Text) (st st' : State) : Prop where
  moved : Moved (fun p => (∃ path ∈ done, ((st.sight path).verdict mode).Rewrites mode ∧
    st.disk.LeadsTo path p) ∨ st.Writes p) (· ∈ done) st st'
  contents : ∀ path ∈ done, ∀ p, st.disk.LeadsTo path p →
    st'.disk.contentAt p = ((st.sight path).verdict mode).left mode (st.disk.contentAt p)
  keys : ∀ path ∈ done, st'.key? path = (st.sight path).keyAfter mode

namespace Worked

variable {mode : Mode} {done order : List Text} {path : Text} {st st' st'' : State}

/-- A file that no task has worked on is not touched. -/
theorem not_touched (hseparate : Separate st (done ++ [path])) {p : List Text}
    (hp : st.disk.LeadsTo path p) :
    ¬((∃ a ∈ done, ((st.sight a).verdict mode).Rewrites mode ∧ st.disk.LeadsTo a p) ∨
      st.Writes p) := by
  rintro (⟨a, ha, -, hleads⟩ | hwrites)
  · exact (hseparate.apart ha).2 p hleads hp
  · exact hseparate.own path (by simp) p hp hwrites

/-- **A task that comes later sees what it would have seen first.** -/
theorem sight (h : Worked mode done st st') (hseparate : Separate st (done ++ [path])) :
    st'.sight path = st.sight path := by
  have hnew : path ∉ done := fun hpath => (hseparate.apart hpath).1 rfl
  have hspared : st.disk.Spares (fun p => (∃ a ∈ done, ((st.sight a).verdict mode).Rewrites mode ∧
      st.disk.LeadsTo a p) ∨ st.Writes p) path := by
    refine (hseparate.settings path (by simp)).mono ?_
    rintro p (⟨a, ha, -, hleads⟩ | hwrites)
    · exact .inl ⟨a, List.mem_append_left _ ha, hleads⟩
    · exact .inr hwrites
  unfold State.sight
  rw [h.moved.disk.readFile fun p hp => not_touched hseparate hp, h.moved.settings path hspared,
    h.moved.hasCache, h.moved.keys path hnew]

/-- **One more task** gives the verdict that it would have given first. -/
theorem next (h : Worked mode done st st') (hseparate : Separate st (done ++ [path])) :
    (Verdict.ofFile mode st' path).1 = (st.sight path).verdict mode ∧
      Worked mode (done ++ [path]) st (Verdict.ofFile mode st' path).2 := by
  have hdone := done_ofFile (h.moved.standing hseparate.standing) mode path
  have hverdict := hdone.verdict
  rw [h.sight hseparate] at hverdict
  have hwrites : ∀ p, st'.Writes p ↔ st.Writes p := h.moved.writes_iff
  have hleads : ∀ {a p}, st'.disk.LeadsTo a p ↔ st.disk.LeadsTo a p :=
    h.moved.disk.leadsTo_iff
  have hmoved : Moved (fun p => (∃ a ∈ done ++ [path],
      ((st.sight a).verdict mode).Rewrites mode ∧ st.disk.LeadsTo a p) ∨ st.Writes p)
      (· ∈ done ++ [path]) st' (Verdict.ofFile mode st' path).2 := by
    refine hdone.moved.mono ?_ fun a ha => by simp [ha]
    rintro p (⟨hrewrites, hp⟩ | hp)
    · exact .inl ⟨path, by simp, hverdict ▸ hrewrites, hleads.mp hp⟩
    · exact .inr ((hwrites p).mp hp)
  refine ⟨hverdict, ?_, ?_, ?_⟩
  · refine (h.moved.mono ?_ fun a ha => List.mem_append_left _ ha).trans hmoved
    rintro p (⟨a, ha, hrest⟩ | hp)
    · exact .inl ⟨a, List.mem_append_left _ ha, hrest⟩
    · exact .inr hp
  · intro a ha p hp
    rcases List.mem_append.mp ha with hmem | hmem
    · -- the file of an earlier task
      rw [hdone.moved.disk.contentAt, h.contents a hmem p hp]
      rintro (⟨-, hpath⟩ | hown)
      · exact (hseparate.apart hmem).2 p hp (hleads.mp hpath)
      · exact hseparate.own a ha p hp ((hwrites p).mp hown)
    · obtain rfl := List.mem_singleton.mp hmem
      rw [hdone.content p (hleads.mpr hp) fun hown =>
        hseparate.own a ha p hp ((hwrites p).mp hown), hverdict,
        h.moved.disk.contentAt (not_touched hseparate hp)]
  · intro a ha
    rcases List.mem_append.mp ha with hmem | hmem
    · rw [hdone.moved.keys a (hseparate.apart hmem).1, h.keys a hmem]
    · obtain rfl := List.mem_singleton.mp hmem
      rw [hdone.key, h.sight hseparate]

/-- The tasks so far may be listed in any order. -/
theorem perm (h : Worked mode done st st') (hperm : order.Perm done) :
    Worked mode order st st' := by
  refine ⟨h.moved.mono ?_ fun a ha => hperm.symm.subset ha, ?_, ?_⟩
  · rintro p (⟨a, ha, hrest⟩ | hp)
    · exact .inl ⟨a, hperm.symm.subset ha, hrest⟩
    · exact .inr hp
  · exact fun a ha => h.contents a (hperm.subset ha)
  · exact fun a ha => h.keys a (hperm.subset ha)

/-- **The state after the tasks is determined**, but for what every task writes to. -/
theorem faceAt? (h : Worked mode done st st') (h' : Worked mode done st st'') {p : List Text}
    (hp : ¬st.Writes p) : st'.disk.root.faceAt? p = st''.disk.root.faceAt? p := by
  by_cases hfile : ∃ path ∈ done, st.disk.LeadsTo path p
  · obtain ⟨path, hpath, hleads⟩ := hfile
    have hheld : ∀ {s : State}, Worked mode done st s → s.disk.root.faceAt? p =
        some (.file (((st.sight path).verdict mode).left mode (st.disk.contentAt p))) := by
      intro s hs
      have hthere := (hs.moved.disk.leadsTo_iff.mpr hleads).holds
      rw [hs.contents path hpath p hleads] at hthere
      exact Node.faceAt?_eq_file.mpr hthere
    rw [hheld h, hheld h']
  · have hkept : ∀ {s : State}, Worked mode done st s →
        s.disk.root.faceAt? p = st.disk.root.faceAt? p := by
      intro s hs
      refine hs.moved.disk.kept p ?_
      rintro (⟨a, ha, -, hleads⟩ | hwrites)
      · exact hfile ⟨a, ha, hleads⟩
      · exact hp hwrites
    rw [hkept h, hkept h']

/-- What the cache knows after the tasks is determined. -/
theorem key? (h : Worked mode done st st') (h' : Worked mode done st st'') (path : Text) :
    st'.key? path = st''.key? path := by
  by_cases hpath : path ∈ done
  · rw [h.keys path hpath, h'.keys path hpath]
  · rw [h.moved.keys path hpath, h'.moved.keys path hpath]

end Worked

/-- **A run gives each file the verdict that it would get alone**, and leaves the work of all
tasks behind. -/
theorem worked_ofFiles {mode : Mode} {st st' : State} {done files : List Text}
    (h : Worked mode done st st') (hseparate : Separate st (done ++ files)) :
    (Verdict.ofFiles mode st' files).1 =
        files.map (fun path => (path, (st.sight path).verdict mode)) ∧
      Worked mode (done ++ files) st (Verdict.ofFiles mode st' files).2 := by
  induction files generalizing done st' with
  | nil => exact ⟨rfl, by simpa [Verdict.ofFiles] using h⟩
  | cons path files ih =>
      have hsplit : done ++ path :: files = (done ++ [path]) ++ files := by simp
      have hfirst : Separate st (done ++ [path]) :=
        hseparate.sublist (List.sublist_append_left (done ++ [path]) files |>.trans (by simp))
      obtain ⟨hverdict, hworked⟩ := h.next hfirst
      rw [hsplit] at hseparate ⊢
      obtain ⟨hverdicts, hall⟩ := ih hworked hseparate
      refine ⟨?_, hall⟩
      rw [Verdict.ofFiles, List.map_cons, ← hverdict, ← hverdicts]

/-- No task has worked yet. -/
theorem Worked.nil (mode : Mode) (st : State) : Worked mode [] st st :=
  ⟨.refl _ _ _, by simp, by simp⟩

/-- The verdicts in the order of the files, whatever the order they came in. -/
def stored (files : List Text) (verdicts : List (Text × Verdict)) : List (Text × Verdict) :=
  files.filterMap fun path => (verdicts.lookup path).map fun verdict => (path, verdict)

/-- Each file gets its verdict. -/
theorem stored_map {files order : List Text} (hsubset : files ⊆ order)
    (verdict : Text → Verdict) :
    stored files (order.map fun path => (path, verdict path)) =
      files.map fun path => (path, verdict path) := by
  have hlookup : ∀ path ∈ order, (order.map fun path => (path, verdict path)).lookup path =
      some (verdict path) := by
    intro path hpath
    clear hsubset
    induction order with
    | nil => cases hpath
    | cons first order ih =>
        rw [List.map_cons, List.lookup_cons]
        by_cases hfirst : path = first
        · simp [hfirst]
        · rw [beq_false_of_ne hfirst]
          exact ih ((List.mem_cons.mp hpath).resolve_left hfirst)
  unfold stored
  induction files with
  | nil => rfl
  | cons path files ih =>
      have hpath := hlookup path (hsubset List.mem_cons_self)
      rw [List.filterMap_cons_some (by rw [hpath]; rfl), List.map_cons,
        ih fun a ha => hsubset (List.mem_cons_of_mem path ha)]

/-- **The order of the tasks does not matter.**  Paths that lead to different files, none of
which is a settings file, the file of the cache or the journal, are worked on in two orders,
in any mode and with any cache or none.  The verdicts that are stored for the files are those
of the run in the order of the files, so the report is the same; and so is what is seen at
every place, and what the cache knows of every path.  Only the journal and the file of the
cache are left out: messages and entries stand there in the order of the tasks. -/
theorem ofFiles_perm (mode : Mode) {st : State} {files first second : List Text}
    (hseparate : Separate st files) (hfirst : first.Perm files) (hsecond : second.Perm files) :
    let one := Verdict.ofFiles mode st first
    let other := Verdict.ofFiles mode st second
    stored files one.1 = (Verdict.ofFiles mode st files).1 ∧
      stored files other.1 = (Verdict.ofFiles mode st files).1 ∧
      (∀ place, ¬st.Writes place →
        one.2.disk.root.faceAt? place = other.2.disk.root.faceAt? place) ∧
      one.2.handle = other.2.handle ∧ ∀ path, one.2.key? path = other.2.key? path := by
  have hrun : ∀ {order : List Text}, order.Perm files →
      stored files (Verdict.ofFiles mode st order).1 = (Verdict.ofFiles mode st files).1 ∧
        Worked mode files st (Verdict.ofFiles mode st order).2 := by
    intro order horder
    obtain ⟨hverdicts, hworked⟩ := worked_ofFiles (Worked.nil mode st) (hseparate.perm horder)
    obtain ⟨hinOrder, -⟩ := worked_ofFiles (Worked.nil mode st) hseparate
    rw [hverdicts, hinOrder]
    exact ⟨stored_map horder.symm.subset _, hworked.perm horder.symm⟩
  obtain ⟨hstored, hone⟩ := hrun hfirst
  obtain ⟨hstored', hother⟩ := hrun hsecond
  refine ⟨hstored, hstored', fun place hplace => hone.faceAt? hother hplace, ?_, hone.key? hother⟩
  rw [hone.moved.handle, hother.moved.handle]

/-- Files of the root, which has no settings file and is the working directory, do not
meet. -/
theorem separate_names {st : State} {entries : List (Text × Node)} {files : List Text}
    (hdisk : st.disk = { root := .dir entries })
    (habsent : ∀ name ∈ Settings.fileNames, entries.lookup name = none)
    (hnames : ∀ name ∈ files, Disk.isName name = true ∧ Path.dir name = Path.here)
    (hfiles : ∀ name ∈ files, ∃ content, entries.lookup name = some (.file content))
    (hnodup : files.Nodup) (hwrites : ∀ name ∈ files, ¬st.Writes [name])
    (hstanding : st.Standing) : Separate st files := by
  have hleads : ∀ name ∈ files, ∀ p, st.disk.LeadsTo name p ↔ p = [name] := by
    intro name hname p
    obtain ⟨content, hcontent⟩ := hfiles name hname
    rw [hdisk]
    exact Disk.leadsTo_name (hnames name hname).1 hcontent
  refine ⟨hnodup.imp_of_mem ?_, ?_, ?_, hstanding⟩
  · intro a b ha hb hne
    refine ⟨hne, fun p hpa hpb => hne ?_⟩
    rw [hleads a ha] at hpa
    rw [hleads b hb, hpa] at hpb
    exact (List.cons.inj hpb).1
  · intro name hname p hp
    rw [hleads name hname] at hp
    exact hp ▸ hwrites name hname
  · intro name hname found p hfind
    rw [hdisk, (hnames name hname).2, Disk.find_of_absent habsent] at hfind
    cases hfind

/-- A file that is not formatted and one that is, with a new cache. -/
theorem ofFiles_perm_pages :
    let st : State :=
      { workspace := { disk := { root := .dir [(text "a.html", .file (text "<p> a </p>")),
          (text "b.html", .file (text "<p>b</p>")), (text "c.db", .file (Cache.toText []))] } }
        cache := some { place := [text "c.db"], entries := [] } }
    let files := [text "a.html", text "b.html"]
    let one := Verdict.ofFiles .inPlace st files.reverse
    let other := Verdict.ofFiles .inPlace st files
    stored files one.1 = other.1 ∧
      one.2.disk.root.faceAt? [text "a.html"] = other.2.disk.root.faceAt? [text "a.html"] ∧
      ∀ path, one.2.key? path = other.2.key? path := by
  intro st files one other
  have hwrites : ∀ p, st.Writes p → p = [text "c.db"] := by
    rintro p (hsink | ⟨cache, hcache, rfl⟩)
    · cases hsink
    · cases hcache
      rfl
  have hseparate : Separate st files := by
    refine separate_names rfl (by decide) (by decide) ?_ (by decide) ?_ ?_
    · intro name hname
      rcases List.mem_cons.mp hname with rfl | hname
      · exact ⟨_, rfl⟩
      · rw [List.mem_singleton.mp hname]
        exact ⟨_, rfl⟩
    · intro name hname hown
      have hfirst := (List.cons.inj (hwrites _ hown)).1
      rw [hfirst] at hname
      exact absurd hname (by decide)
    · intro p hp
      rw [hwrites p hp]
      exact ⟨_, rfl⟩
  obtain ⟨hstored, -, hfaces, -, hkeys⟩ :=
    ofFiles_perm .inPlace hseparate files.reverse_perm (.refl files)
  exact ⟨hstored, hfaces _ fun hown => absurd (hwrites _ hown) (by decide), hkeys⟩

end TemplateFormat.Command
