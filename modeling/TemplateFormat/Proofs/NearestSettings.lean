import Mathlib.Data.List.Infix
import TemplateFormat.Proofs.Ancestors
import TemplateFormat.Proofs.Tasks

/-!
# The nearest settings file

The settings that apply to a file are looked for in its directory and in those above it.  The
search goes from path to path with functions on texts; here it is tied to the list of names
along the directory: the places that are tried are those of all leading parts of the list, the
longest first, and the search ends behind the root.

A run remembers the settings of each directory.  As long as the tree stays as it is, what is
remembered is what would be found again.

* `candidates`, `findFrom_eq` — the places that are tried, in order;
* `find_eq` — the first of them that holds a file is found;
* `Remembered`, `remembered_settingsFor` — what one lookup remembers;
* `Asked`, `answers_of_asked` — lookups one after the other;
* `nearest_settings` — all of it together.
-/

namespace TemplateFormat.Settings

open Storage

/-- The places of settings files for the directory along some names: those in the directory
first, then those in the directories above it, up to the root. -/
def candidates (ns : List Text) : List Text :=
  ns.inits.reverse.flatMap fun dir => fileNames.map fun name => Path.rooted (dir ++ [name])

/-- The names of settings files are proper. -/
theorem isProper_fileNames : ∀ name ∈ fileNames, Path.isProper name = true := by decide

/-- The places for a directory are those in it and those for the directory above. -/
theorem candidates_concat (ns : List Text) (name : Text) :
    candidates (ns ++ [name]) =
      fileNames.map (fun file => Path.rooted (ns ++ [name] ++ [file])) ++ candidates ns := by
  have hinits : (ns ++ [name]).inits = ns.inits ++ [ns ++ [name]] := by
    simp [List.inits_append]
  rw [candidates, hinits, List.reverse_append, List.reverse_singleton, List.singleton_append,
    List.flatMap_cons]
  rfl

/-- The settings file in a directory is the first of its places that holds a file. -/
theorem inDir?_eq (d : Disk) {ns : List Text} (h : ∀ name ∈ ns, Path.isProper name = true) :
    inDir? d (Path.rooted ns) =
      (fileNames.map fun file => Path.rooted (ns ++ [file])).find? d.isFile := by
  have hjoin : fileNames.map (Path.join (Path.rooted ns)) =
      fileNames.map fun file => Path.rooted (ns ++ [file]) := by
    refine List.map_congr_left fun file hfile => Path.join_rooted fun name hname => ?_
    rcases List.mem_append.mp hname with hname | hname
    · exact h name hname
    · rw [List.mem_singleton.mp hname]
      exact isProper_fileNames file hfile
  rw [inDir?, hjoin]

/-- **The search goes through all places** and ends, if it may try as many directories as there
are. -/
theorem findFrom_eq (d : Disk) {ns : List Text} (h : ∀ name ∈ ns, Path.isProper name = true)
    {fuel : Nat} (hfuel : ns.length < fuel) :
    findFrom d fuel (Path.rooted ns) = (candidates ns).find? d.isFile := by
  induction ns using List.reverseRecOn generalizing fuel with
  | nil =>
      obtain ⟨fuel, rfl⟩ : ∃ n, fuel = n + 1 := ⟨fuel - 1, by omega⟩
      have hplaces : candidates [] = fileNames.map fun file => Path.rooted ([] ++ [file]) := rfl
      rw [findFrom, inDir?_eq d h, hplaces]
      cases (fileNames.map fun file => Path.rooted ([] ++ [file])).find? d.isFile with
      | some path => rfl
      | none => simp [Path.dir_rooted_nil]
  | append_singleton ns name ih =>
      obtain ⟨fuel, rfl⟩ : ∃ n, fuel = n + 1 := ⟨fuel - 1, by omega⟩
      have hns : ∀ n ∈ ns, Path.isProper n = true := fun n hn => h n (List.mem_append_left _ hn)
      have hup : Path.rooted ns ≠ Path.rooted (ns ++ [name]) := by
        intro heq
        have hnames := congrArg Path.names heq
        rw [Path.names_rooted hns, Path.names_rooted h] at hnames
        have hlength := congrArg List.length hnames
        simp at hlength
      have hrest : findFrom d fuel (Path.rooted ns) = (candidates ns).find? d.isFile := by
        refine ih hns ?_
        rw [List.length_append, List.length_singleton] at hfuel
        omega
      rw [findFrom, inDir?_eq d h, candidates_concat, List.find?_append]
      cases (fileNames.map fun file => Path.rooted (ns ++ [name] ++ [file])).find? d.isFile with
      | some path => rfl
      | none =>
          rw [Path.dir_rooted_concat h]
          simp only [hup, if_false, Option.none_or]
          exact hrest

/-- **The first place that holds a file is found**, and a search that may try more directories
finds nothing else. -/
theorem find_eq (d : Disk) (dir : Text) :
    Path.rooted (Path.names (d.absolute dir)) = d.absolute dir ∧
      find d dir = (candidates (Path.names (d.absolute dir))).find? d.isFile ∧
      ∀ more, findFrom d ((d.absolute dir).length + 1 + more) (d.absolute dir) = find d dir := by
  obtain ⟨ns, hns, habsolute⟩ := d.exists_absolute dir
  have hfound : ∀ more, findFrom d ((Path.rooted ns).length + 1 + more) (Path.rooted ns) =
      (candidates ns).find? d.isFile := by
    intro more
    have hlength := Path.length_le_length_rooted ns
    exact findFrom_eq d hns (by omega)
  have hfind : find d dir = (candidates ns).find? d.isFile := by
    simp only [find, habsolute]
    exact hfound 0
  rw [habsolute, Path.names_rooted hns, hfind]
  exact ⟨rfl, rfl, hfound⟩

end TemplateFormat.Settings

namespace TemplateFormat.Command

open Storage

/-! ## What a run remembers -/

/-- **What is remembered of settings is true of a tree**: it is what applies to every file of the
directory. -/
def Remembered (d : Disk) (known : List (Text × Settings)) : Prop :=
  ∀ path c, known.lookup (Path.dir path) = some c → Settings.forFile d path = .ok c

/-- What is remembered after a lookup: the settings that it found are new, and those that cannot
be loaded are not remembered. -/
theorem known_settingsFor (st : State) (path : Text) :
    (st.settingsFor path).2.known = st.known ∨
      ∃ c, Settings.forFile st.disk path = .ok c ∧
        (st.settingsFor path).2.known = (Path.dir path, c) :: st.known := by
  unfold State.settingsFor
  dsimp only
  split
  · exact .inl rfl
  · split
    · exact .inl rfl
    · next c hfile =>
        refine .inr ⟨c, hfile, ?_⟩
        split <;> rfl

/-- **A lookup answers what is found on the tree**, and what it remembers is true. -/
theorem remembered_settingsFor {st : State} (h : Remembered st.disk st.known) (path : Text) :
    (st.settingsFor path).1 = Settings.forFile st.disk path ∧
      Remembered st.disk (st.settingsFor path).2.known := by
  constructor
  · rw [State.settingsFor_fst]
    cases hknown : st.known.lookup (Path.dir path) with
    | none => rfl
    | some c => exact (h path c hknown).symm
  · rcases known_settingsFor st path with hsame | ⟨c, hfile, hmore⟩
    · rwa [hsame]
    · rw [hmore]
      intro other c' hother
      rw [List.lookup_cons] at hother
      split at hother
      · next hdir =>
          obtain rfl := Option.some.inj hother
          rw [forFile_of_dir st.disk (beq_iff_eq.mp hdir), hfile]
      · exact h other c' hother

/-- Settings that were looked up for one path after the other, with the answers, the last one
first, and what is remembered then.  Each lookup finds the same tree; whatever else a run does
between two of them, what is remembered stays. -/
inductive Asked (d : Disk) :
    List (Text × Settings) → List (Text × Except Settings.LoadFault Settings) → Prop
  | start : Asked d [] []
  | next {st : State} {answers : List (Text × Except Settings.LoadFault Settings)} (path : Text)
      (before : Asked d st.known answers) (unchanged : st.disk = d) :
      Asked d (st.settingsFor path).2.known ((path, (st.settingsFor path).1) :: answers)

/-- **Lookups one after the other** answer what is found on the tree. -/
theorem answers_of_asked {d : Disk} {known : List (Text × Settings)}
    {answers : List (Text × Except Settings.LoadFault Settings)} (h : Asked d known answers) :
    (∀ answer ∈ answers, answer.2 = Settings.forFile d answer.1) ∧ Remembered d known := by
  induction h with
  | start =>
      refine ⟨by simp, ?_⟩
      intro path c hc
      cases hc
  | @next st answers path before unchanged ih =>
      subst unchanged
      obtain ⟨hanswers, hknown⟩ := ih
      obtain ⟨hanswer, hmore⟩ := remembered_settingsFor hknown path
      refine ⟨?_, hmore⟩
      intro answer hmem
      rcases List.mem_cons.mp hmem with rfl | hmem
      · exact hanswer
      · exact hanswers answer hmem

/-- **The nearest settings file applies.**  For every tree and every directory, the search ends, and
finds the first file among the places in the directory and above it, the nearest directory first
and in each the names in their order; it finds nothing exactly if there is none.  So the settings
that apply to a file depend on its directory only, and a run that remembers them by directory
answers the same, as long as the tree stays as it is. -/
theorem nearest_settings (d : Disk) :
    (∀ dir,
      let places := Settings.candidates (Path.names (d.absolute dir))
      Path.rooted (Path.names (d.absolute dir)) = d.absolute dir ∧
        Settings.find d dir = places.find? d.isFile ∧
        (Settings.find d dir = none ↔ ∀ place ∈ places, d.isFile place = false) ∧
        ∀ more, Settings.findFrom d ((d.absolute dir).length + 1 + more) (d.absolute dir) =
          Settings.find d dir) ∧
      (∀ path path', Path.dir path = Path.dir path' →
        Settings.forFile d path = Settings.forFile d path') ∧
      ∀ known answers, Asked d known answers →
        ∀ answer ∈ answers, answer.2 = Settings.forFile d answer.1 := by
  refine ⟨fun dir => ?_, fun path path' => forFile_of_dir d, fun known answers h =>
    (answers_of_asked h).1⟩
  obtain ⟨hrooted, hfind, hmore⟩ := Settings.find_eq d dir
  refine ⟨hrooted, hfind, ?_, hmore⟩
  rw [hfind, List.find?_eq_none]
  simp

/-- A directory with the first of the names is passed over, and the file with the second one
applies; the settings for another file beside the first are known then. -/
theorem nearest_settings_second :
    let entries := [(text ".ngfmt.yaml", Node.dir []),
      (text ".ngfmt.yml", .file (text "use_spaces: false"))]
    let tree : Disk := { root := .dir entries }
    let c : Settings := { useSpaces := some false, path := text "/.ngfmt.yml" }
    ∃ st, State.settingsFor { workspace := { disk := tree } } (text "a.html") = (.ok c, st) ∧
      st.known = [(text ".", c)] ∧ (st.settingsFor (text "b.html")).1 = .ok c := by
  intro entries tree c
  obtain ⟨hnearest, hdir, hasked⟩ := nearest_settings tree
  have hpassed : entries.lookup (text ".ngfmt.yaml") = some (.dir []) := rfl
  have hheld : entries.lookup (text ".ngfmt.yml") = some (.file (text "use_spaces: false")) := rfl
  have hfirst : tree.resolve true (text "/.ngfmt.yaml") =
      .ok (.found [text ".ngfmt.yaml"] (.dir [])) :=
    Disk.resolve_fileName (show text ".ngfmt.yaml" ∈ Settings.fileNames by decide)
      (show ∀ target, entries.lookup (text ".ngfmt.yaml") ≠ some (.link target) by simp [hpassed])
  have hsecond : tree.resolve true c.path =
      .ok (.found [text ".ngfmt.yml"] (.file (text "use_spaces: false"))) :=
    Disk.resolve_fileName (show text ".ngfmt.yml" ∈ Settings.fileNames by decide)
      (show ∀ target, entries.lookup (text ".ngfmt.yml") ≠ some (.link target) by simp [hheld])
  have hplaces : Settings.candidates (Path.names (tree.absolute (Path.dir (text "a.html")))) =
      [text "/.ngfmt.yaml", c.path] := by decide
  have hfind : Settings.find tree (Path.dir (text "a.html")) = some c.path := by
    obtain ⟨-, hfind, -⟩ := hnearest (Path.dir (text "a.html"))
    rw [hfind, hplaces]
    simp [Disk.isFile, Disk.stat, Disk.lookup, hfirst, hsecond, Node.isDir]
  have hdecode : Settings.decode (text "use_spaces: false") = .ok { useSpaces := some false } := by
    have hread : (Settings.decode (text "use_spaces: false")).toOption =
        some { useSpaces := some false } := by decide +kernel
    cases hresult : Settings.decode (text "use_spaces: false") with
    | error fault => simp [hresult, Except.toOption] at hread
    | ok found => rw [hresult] at hread; exact congrArg _ (Option.some.inj hread)
  have hfile : Settings.forFile tree (text "a.html") = .ok c := by
    unfold Settings.forFile
    simp only [hfind, Settings.load, Disk.lookup, hsecond, hdecode]
    rfl
  have hanswer : State.settingsFor { workspace := { disk := tree } } (text "a.html") =
      (.ok c, { workspace := { disk := tree }, known := [(text ".", c)] }) := by
    simp only [State.settingsFor, List.lookup_nil]
    rw [show State.disk { workspace := { disk := tree } } = tree from rfl, hfile]
    rfl
  have hbefore := @Asked.next tree { workspace := { disk := tree } } [] (text "a.html")
    Asked.start rfl
  rw [hanswer] at hbefore
  have hafter := Asked.next (text "b.html") hbefore rfl
  refine ⟨_, hanswer, rfl, (hasked _ _ hafter _ List.mem_cons_self).trans ?_⟩
  rw [hdir (text "b.html") (text "a.html") (by decide), hfile]

end TemplateFormat.Command
