import TemplateFormat.Command.Report
import TemplateFormat.Proofs.CacheFile
import TemplateFormat.Proofs.Disks
import TemplateFormat.Proofs.Redetection

/-!
# What a cache knows after any history

Runs that use a cache open it, work on files one after the other and leave it on the disk
for the next run; between runs anything but the file of the cache may change.  `Reached`
is the state of a run after any such history, with all the work that was done on files:
what was read of the file, under which options, and what came of it.

* `Tended`, `Kept` — what holds of a cache and its file throughout;
* `kept_ofFile`, `kept_of_reached` — one file, and then every history, keeps it so: the
  entry of a path is the key of what came of the last work on it, or there is none if the
  file was left unformatted;
* `cached_of_key` — a file with the content that the last work on it recorded is found;
* `cached_iff` — a file that is found in the cache has the content that came of the last
  work on it, under the same options; formatting it again would change nothing exactly if
  formatting does not change its own result there.
-/

namespace TemplateFormat.Command

open Text Layout Storage

/-! ## Histories -/

/-- Work on a file: what was read of it, under which options, and what came of it. -/
structure Work where
  path : Text
  source : Text
  options : Options
  mode : Mode
  result : Text
deriving DecidableEq, Repr

/-- The key under which the result is recorded; none if the file is left unformatted. -/
def Work.key? (w : Work) : Option Text :=
  if w.mode = .inPlace || w.result = w.source then some (Cache.key w.result w.options) else none

/-- The last work on a path; the works are listed from the last one to the first. -/
def lastWork (works : List Work) (path : Text) : Option Work := works.find? (·.path = path)

namespace State

/-- What is read of a file: its content, and the options that are resolved for it. -/
def reading (st : State) (path : Text) : Option (Text × Options) :=
  match st.disk.readFile path, (st.settingsFor path).1 with
  | .ok content, .ok c =>
    match c.options content with
    | .ok o => some (content, o)
    | .error _ => none
  | _, _ => none

/-- The text of the cache file. -/
def cacheText (st : State) : Text := st.cache.elim [] fun cache => st.disk.contentAt cache.place

/-- The messages of the run do not go to the cache file, or to a place that leads to it. -/
def Apart (st : State) : Prop :=
  ∀ place cache, st.workspace.sink = .file place → st.cache = some cache →
    ¬place <+: cache.place

end State

/-- The work that is done on a file; none if it fails or the cache knows the file. -/
def Verdict.work? (mode : Mode) (st : State) (path : Text) : Option Work :=
  match st.reading path, (Verdict.ofFile mode st path).1 with
  | some (source, options), .formatted f => some ⟨path, source, options, mode, f.content⟩
  | _, _ => none

/-- **The states of runs with a cache**, with the work that was done on files since the
cache was new. -/
inductive Reached : List Work → State → Prop
  /-- A run makes a cache. -/
  | opened {st st' : State} {cachePath : Text} (fresh : st.cache = none)
      (opens : st.openCache cachePath = .ok st')
      (empty : st'.cache.any (·.entries.isEmpty) = true) (apart : st'.Apart) : Reached [] st'
  /-- A later run opens the cache that an earlier one left. -/
  | reopened {works : List Work} {old st st' : State} {cachePath : Text}
      (before : Reached works old) (fresh : st.cache = none)
      (left : st.disk.readFile cachePath = .ok old.cacheText)
      (opens : st.openCache cachePath = .ok st') (apart : st'.Apart) : Reached works st'
  /-- The run works on a file. -/
  | worked {works : List Work} {st : State} (before : Reached works st) (mode : Mode)
      (path : Text) :
      Reached ((Verdict.work? mode st path).toList ++ works) (Verdict.ofFile mode st path).2

/-! ## A cache and its file -/

/-- An open cache whose file has some content, and is not written to by the journal. -/
structure Tended (st : State) (cache : Cache) (content : Text) : Prop where
  cache_eq : st.cache = some cache
  isOpen : cache.isOpen = true
  file : st.disk.Holds cache.place content
  apart : ∀ place, st.workspace.sink = .file place → ¬place <+: cache.place

/-- Messages go where they went. -/
theorem sink_write (ws : Workspace) (line : Text) : (ws.write line).sink = ws.sink := by
  unfold Workspace.write
  split <;> simp_all

/-- Messages leave the files alone that they do not go to. -/
theorem holds_write {ws : Workspace} {place : List Text} {content : Text}
    (h : ws.disk.Holds place content) (hapart : ∀ p, ws.sink = .file p → ¬p <+: place)
    (line : Text) : (ws.write line).disk.Holds place content := by
  unfold Workspace.write
  split
  · exact h
  · exact h
  · next p hsink => exact h.append (hapart p hsink) line

namespace Tended

variable {st : State} {cache : Cache} {content : Text}

/-- A message does not touch the cache. -/
theorem log (h : Tended st cache content) (category : Journal.Category) (message : Text) :
    Tended (st.log category message) cache content := by
  refine ⟨h.cache_eq, h.isOpen, ?_, fun place hsink => h.apart place ?_⟩
  · exact holds_write h.file h.apart _
  · rwa [← sink_write]

/-- Looking up settings does not touch the cache. -/
theorem settingsFor (h : Tended st cache content) (path : Text) :
    Tended (st.settingsFor path).2 cache content := by
  unfold State.settingsFor
  cases hknown : st.known.lookup (Path.dir path) with
  | some c =>
      simp only [hknown]
      exact h
  | none =>
      cases hfile : Settings.forFile st.disk path with
      | error fault =>
          simp only [hknown]
          exact h
      | ok c =>
          simp only [hknown]
          have hlogged : Tended (if c.path.isEmpty then st
              else st.log .config (text "using " ++ c.path ++ text " for " ++ Path.dir path))
              cache content := by
            split
            · exact h
            · exact h.log _ _
          exact ⟨hlogged.cache_eq, hlogged.isOpen, hlogged.file, hlogged.apart⟩

/-- Replacing a file keeps the file of the cache. -/
theorem carryOut (h : Tended st cache content) {mode : Mode} {path : Text} {result : Formatted}
    {st' : State} (hdone : Verdict.carryOut mode st path result = .ok st') :
    ∃ content', Tended st' cache content' := by
  unfold Verdict.carryOut at hdone
  split at hdone
  · unfold Verdict.replaceFile at hdone
    split at hdone
    · cases hdone
    · next disk hwrite =>
        cases hdone
        obtain ⟨content', hfile⟩ := h.file.writeFile hwrite
        have hwritten : Tended { st with workspace := { st.workspace with disk } } cache content' :=
          ⟨h.cache_eq, h.isOpen, hfile, h.apart⟩
        exact ⟨content', hwritten.log _ _⟩
  · cases hdone
    exact ⟨content, h⟩

/-- Setting the entries writes them to the file. -/
theorem setEntries (h : Tended st cache content) (entries : Cache.Entries) :
    Tended { st with
        cache := some (cache.setEntries st.disk entries).1
        workspace := { st.workspace with disk := (cache.setEntries st.disk entries).2 } }
      { cache with entries } (Cache.toText entries) :=
  ⟨rfl, h.isOpen, h.file.put_self _, h.apart⟩

/-- What recording a file does to the run. -/
theorem record_eq (h : Tended st cache content) {path : Text} (hpath : path ≠ [])
    (hwidth : path.width ≤ Disk.pathLimit) (result : Text) (o : Options) :
    let entries := (path, Cache.key result o) :: Cache.without cache.entries path
    st.record path result o = { st with
      cache := some (cache.setEntries st.disk entries).1
      workspace := { st.workspace with disk := (cache.setEntries st.disk entries).2 } } := by
  have hlimits : Disk.pathLimit ≤ Cache.pathLimit := by decide
  have hrecord : cache.record st.disk path result o = .ok (cache.setEntries st.disk
      ((path, Cache.key result o) :: Cache.without cache.entries path)) := by
    simp [Cache.record, h.isOpen, hpath, Nat.not_lt.mpr (Nat.le_trans hwidth hlimits)]
  unfold State.record
  rw [h.cache_eq]
  simp only [hrecord, State.updateCache]

/-- Recording a file. -/
theorem record (h : Tended st cache content) {path : Text} (hpath : path ≠ [])
    (hwidth : path.width ≤ Disk.pathLimit) (result : Text) (o : Options) :
    Tended (st.record path result o)
      { cache with entries := (path, Cache.key result o) :: Cache.without cache.entries path }
      (Cache.toText ((path, Cache.key result o) :: Cache.without cache.entries path)) := by
  rw [h.record_eq hpath hwidth]
  exact h.setEntries _

/-- Forgetting a file. -/
theorem forget (h : Tended st cache content) (path : Text) :
    Tended (st.forget path) { cache with entries := Cache.without cache.entries path }
      (Cache.toText (Cache.without cache.entries path)) := by
  have hforget : cache.forget st.disk path =
      .ok (cache.setEntries st.disk (Cache.without cache.entries path)) := by
    simp [Cache.forget, h.isOpen]
  unfold State.forget
  rw [h.cache_eq]
  simp only [hforget, State.updateCache]
  exact h.setEntries _

end Tended

/-! ## One file -/

namespace Verdict

variable {st : State} {mode : Mode} {path content : Text} {o : Options}

/-- What was read is on the disk, under the options of its settings. -/
theorem readFile_of_reading (h : st.reading path = some (content, o)) :
    st.disk.readFile path = .ok content ∧
      ∃ c, (st.settingsFor path).1 = .ok c ∧ c.options content = .ok o := by
  unfold State.reading at h
  split at h
  · next content' c hread hsettings =>
      split at h
      · next o' hoptions =>
          cases h
          exact ⟨hread, c, hsettings, hoptions⟩
      · cases h
  · cases h

/-- A file that can be read is formatted, unless the cache knows it. -/
theorem ofFile_of_reading (h : st.reading path = some (content, o)) (mode : Mode) :
    ofFile mode st path = ofUncached mode (st.settingsFor path).2 path content o := by
  obtain ⟨hread, c, hsettings, hoptions⟩ := readFile_of_reading h
  unfold ofFile
  cases hlookup : st.settingsFor path with
  | mk settings st' =>
      rw [hlookup] at hsettings
      obtain rfl : settings = .ok c := hsettings
      simp only [hread, hoptions]

/-- A file that cannot be read fails. -/
theorem ofFile_of_none (h : st.reading path = none) (mode : Mode) :
    ∃ fault, ofFile mode st path = (.failed fault, st) ∨
      ofFile mode st path = (.failed fault, (st.settingsFor path).2) := by
  unfold State.reading at h
  unfold ofFile
  cases hread : st.disk.readFile path with
  | error failure => exact ⟨_, .inl rfl⟩
  | ok content =>
      cases hlookup : st.settingsFor path with
      | mk settings st' =>
          cases settings with
          | error fault => exact ⟨_, .inr rfl⟩
          | ok c =>
              cases hoptions : c.options content with
              | error fault => exact ⟨.options fault, .inr (by simp only [hoptions])⟩
              | ok o => simp [hread, hlookup, hoptions] at h

/-- What is compared is the formatted content with its source. -/
theorem format_of_compared {f : Formatted} (h : formatCompared o content = .ok f) :
    format o content = .ok f.content ∧ f.changed = (f.content != content) := by
  unfold formatCompared at h
  cases hformat : format o content with
  | error fault => simp [hformat, bind, Except.bind] at h
  | ok out =>
      simp only [hformat, bind, Except.bind, pure, Except.pure, Except.ok.injEq] at h
      subst h
      exact ⟨rfl, rfl⟩

/-- What comes of a content that is formatted: nothing, or the formatted content with what
is noted in the cache. -/
theorem ofContent_cases (mode : Mode) (st : State) (path content : Text) (o : Options) :
    (∃ fault, ofContent mode st path content o = (.failed fault, st)) ∨
      ∃ f st', formatCompared o content = .ok f ∧ carryOut mode st path f = .ok st' ∧
        ofContent mode st path content o = (.formatted f, note mode st' path o f) := by
  unfold ofContent
  cases hformat : formatCompared o content with
  | error fault => exact .inl ⟨_, rfl⟩
  | ok f =>
      cases hdone : carryOut mode st path f with
      | error fault => exact .inl ⟨fault, by simp only [hdone]⟩
      | ok st' => exact .inr ⟨f, st', rfl, hdone, by simp only [hdone]⟩

/-- **With a cache** a file is found in it, or formatted. -/
theorem ofUncached_cases {cache : Cache} {text' : Text} (h : Tended st cache text') (mode : Mode)
    (path content : Text) (o : Options) :
    if mode ≠ .print ∧ cache.entries.lookup path = some (Cache.key content o) then
      ofUncached mode st path content o = (.cached content, st.log .cache (text "hit " ++ path))
    else ofUncached mode st path content o = ofContent mode st path content o := by
  have hlookup : st.isCached path content o =
      (cache.entries.lookup path == some (Cache.key content o),
        if (cache.entries.lookup path == some (Cache.key content o)) = true
          then st.log .cache (text "hit " ++ path) else st) := by
    simp only [State.isCached, h.cache_eq, Cache.isFormatted, h.isOpen, if_true]
  unfold ofUncached
  rw [hlookup]
  by_cases hprint : mode = .print
  · simp [hprint]
  · by_cases hhit : cache.entries.lookup path = some (Cache.key content o)
    · simp [hprint, hhit]
    · have hmiss : (cache.entries.lookup path == some (Cache.key content o)) = false :=
        beq_false_of_ne hhit
      simp only [hprint, hmiss]
      simp [hprint, hhit]

end Verdict

/-! ## Every history -/

/-- A cache that knows of every path what came of the last work on it, with its file. -/
structure Kept (works : List Work) (st : State) (cache : Cache) : Prop extends
    Tended st cache (Cache.toText cache.entries) where
  keys : ∀ e ∈ cache.entries, .char ' ' ∉ e.2 ∧ .char '\n' ∉ e.2
  entries : ∀ path, cache.entries.lookup path = (lastWork works path).bind Work.key?
  results : ∀ w ∈ works, format w.options w.source = .ok w.result

namespace Kept

variable {works : List Work} {st st' : State} {cache : Cache}

/-- A state with the same cache and the same cache file. -/
theorem of_tended (h : Kept works st cache)
    (htended : Tended st' cache (Cache.toText cache.entries)) : Kept works st' cache :=
  ⟨htended, h.keys, h.entries, h.results⟩

/-- **What is noted about a file** is what came of the work on it. -/
theorem note (h : Kept works st cache) {mode : Mode} {path content text' : Text} {o : Options}
    {f : Formatted} (hpath : path ≠ []) (hwidth : path.width ≤ Disk.pathLimit)
    (hformat : formatCompared o content = .ok f) (htended : Tended st' cache text') :
    ∃ cache', Kept (⟨path, content, o, mode, f.content⟩ :: works)
      (Verdict.note mode st' path o f) cache' := by
  obtain ⟨hresult, hchanged⟩ := Verdict.format_of_compared hformat
  have hresults : ∀ w ∈ (⟨path, content, o, mode, f.content⟩ : Work) :: works,
      format w.options w.source = .ok w.result := by
    intro w hw
    rcases List.mem_cons.mp hw with rfl | hw
    · exact hresult
    · exact h.results w hw
  have hlast : ∀ k, lastWork (⟨path, content, o, mode, f.content⟩ :: works) k =
      if k = path then some ⟨path, content, o, mode, f.content⟩ else lastWork works k := by
    intro k
    by_cases hk : k = path
    · simp [lastWork, hk]
    · simp [lastWork, hk, Ne.symm hk]
  have hothers : ∀ e ∈ Cache.without cache.entries path, .char ' ' ∉ e.2 ∧ .char '\n' ∉ e.2 :=
    fun e he => h.keys e (List.mem_filter.mp he).1
  unfold Verdict.note
  split
  · next hkeeps =>
      have hkey : Work.key? ⟨path, content, o, mode, f.content⟩ = some (Cache.key f.content o) := by
        rw [Work.key?, if_pos]
        simpa [hchanged] using hkeeps
      refine ⟨_, htended.record hpath hwidth f.content o, ?_, fun k => ?_, hresults⟩
      · intro e he
        rcases List.mem_cons.mp he with rfl | he
        · exact ⟨fun hr => (Cache.mem_key hr).1 rfl, fun hr => (Cache.mem_key hr).2 rfl⟩
        · exact hothers e he
      · rw [hlast, Cache.without, lookup_set, h.entries]
        split
        · exact hkey.symm
        · rfl
  · next hleaves =>
      have hkey : Work.key? ⟨path, content, o, mode, f.content⟩ = none := by
        simpa [Work.key?, hchanged] using hleaves
      refine ⟨_, htended.forget path, hothers, fun k => ?_, hresults⟩
      rw [hlast, Cache.without, lookup_without, h.entries]
      split
      · exact hkey.symm
      · rfl

end Kept

/-- **One file** keeps what the cache knows. -/
theorem kept_ofFile {works : List Work} {st : State} {cache : Cache} (h : Kept works st cache)
    (mode : Mode) (path : Text) :
    ∃ cache', Kept ((Verdict.work? mode st path).toList ++ works)
      (Verdict.ofFile mode st path).2 cache' := by
  have hsettings : Kept works (st.settingsFor path).2 cache :=
    h.of_tended (h.toTended.settingsFor path)
  cases hread : st.reading path with
  | none =>
      have hwork : Verdict.work? mode st path = none := by simp [Verdict.work?, hread]
      obtain ⟨fault, hfile | hfile⟩ := Verdict.ofFile_of_none hread mode
      · exact ⟨cache, by rw [hwork, hfile]; exact h⟩
      · exact ⟨cache, by rw [hwork, hfile]; exact hsettings⟩
  | some reading =>
      obtain ⟨content, o⟩ := reading
      have hfile := Verdict.ofFile_of_reading hread mode
      obtain ⟨p, hresolve⟩ := Disk.readFile_eq_ok (Verdict.readFile_of_reading hread).1
      obtain ⟨hpath, hwidth⟩ := Disk.path_of_resolve hresolve
      have hcases := Verdict.ofUncached_cases hsettings.toTended mode path content o
      split at hcases
      · -- the cache knows the file
        have hwork : Verdict.work? mode st path = none := by
          simp [Verdict.work?, hread, hfile, hcases]
        refine ⟨cache, ?_⟩
        rw [hwork, hfile, hcases]
        exact h.of_tended (hsettings.toTended.log _ _)
      · rcases Verdict.ofContent_cases mode (st.settingsFor path).2 path content o with
          ⟨fault, hcontent⟩ | ⟨f, st', hformat, hdone, hcontent⟩
        · have hwork : Verdict.work? mode st path = none := by
            simp [Verdict.work?, hread, hfile, hcases, hcontent]
          refine ⟨cache, ?_⟩
          rw [hwork, hfile, hcases, hcontent]
          exact hsettings
        · have hwork : Verdict.work? mode st path = some ⟨path, content, o, mode, f.content⟩ := by
            simp [Verdict.work?, hread, hfile, hcases, hcontent]
          obtain ⟨text', htended⟩ := hsettings.toTended.carryOut hdone
          rw [hwork, hfile, hcases, hcontent]
          exact hsettings.note hpath hwidth hformat htended

/-- **Opening a cache**: its entries are read from its file, and written to it. -/
theorem openCache_spec {st st' : State} {cachePath : Text} (hpath : cachePath ≠ [])
    (h : st.openCache cachePath = .ok st') :
    ∃ cache d, st'.cache = some cache ∧ cache.isOpen = true ∧
      st'.disk.Holds cache.place (Cache.toText cache.entries) ∧
      st.disk.openFile cachePath = .ok (cache.place, d) ∧
      Cache.ofText? (d.contentAt cache.place) = some cache.entries := by
  unfold State.openCache Cache.openAt at h
  rw [if_neg (by simpa using hpath)] at h
  cases hopen : st.disk.openFile cachePath with
  | error failure => simp [hopen] at h
  | ok opened =>
      obtain ⟨place, d⟩ := opened
      cases hread : Cache.ofText? (d.contentAt place) with
      | none => simp [hopen, hread] at h
      | some entries =>
          simp only [hopen, hread, Except.ok.injEq] at h
          obtain ⟨⟨content, hfile⟩, -⟩ := Disk.openFile_spec hopen
          subst h
          exact ⟨_, d, rfl, rfl, hfile.put_self _, rfl, hread⟩

/-- **Every history** keeps what the cache knows. -/
theorem kept_of_reached {works : List Work} {st : State} (h : Reached works st) :
    ∃ cache, Kept works st cache := by
  induction h with
  | @opened st st' cachePath fresh opens empty apart =>
      have hpath : cachePath ≠ [] := by
        rintro rfl
        simp only [State.openCache, List.isEmpty_nil, if_true, Except.ok.injEq] at opens
        subst opens
        simp [fresh] at empty
      obtain ⟨cache, d, hcache, hopen, hfile, -, -⟩ := openCache_spec hpath opens
      have hempty : cache.entries = [] := by simpa [hcache] using empty
      refine ⟨cache, ⟨hcache, hopen, hfile, fun place hsink => apart place cache hsink hcache⟩,
        ?_, ?_, ?_⟩
      · simp [hempty]
      · simp [hempty, lastWork]
      · simp
  | @reopened works old st st' cachePath before fresh left opens apart ih =>
      obtain ⟨cacheOld, hold⟩ := ih
      obtain ⟨p, hresolve⟩ := Disk.readFile_eq_ok left
      have hpath := (Disk.path_of_resolve hresolve).1
      obtain ⟨cache, d, hcache, hopen, hfile, hplace, hread⟩ := openCache_spec hpath opens
      have hentries : cache.entries = cacheOld.entries := by
        -- what is read is what the earlier run wrote
        have hopened : st.disk.openFile cachePath = .ok (p, st.disk) := by
          simp [Disk.openFile, hresolve]
        rw [hopened, Except.ok.injEq, Prod.mk.injEq] at hplace
        obtain ⟨rfl, rfl⟩ := hplace
        have htext : old.cacheText = Cache.toText cacheOld.entries := by
          simp only [State.cacheText, hold.cache_eq, Option.elim_some]
          exact hold.file.contentAt
        have hholds : st.disk.Holds cache.place old.cacheText := Disk.stands_resolve hresolve
        rw [hholds.contentAt, htext, Cache.ofText?_toText hold.keys] at hread
        exact (Option.some.inj hread).symm
      refine ⟨cache, ⟨hcache, hopen, hfile, fun place hsink => apart place cache hsink hcache⟩,
        ?_, ?_, hold.results⟩
      · rw [hentries]
        exact hold.keys
      · rw [hentries]
        exact hold.entries
  | worked before mode path ih =>
      obtain ⟨cache, hkept⟩ := ih
      exact kept_ofFile hkept mode path

/-! ## Files that the cache knows -/

/-- The settings of a file do not depend on the cache. -/
theorem settingsFor_withCache (st : State) (cache : Option Cache) (path : Text) :
    State.settingsFor { st with cache } path =
      ((st.settingsFor path).1, { (st.settingsFor path).2 with cache }) := by
  unfold State.settingsFor
  cases hknown : st.known.lookup (Path.dir path) with
  | some c => simp only [hknown]
  | none =>
      have hdisk : State.disk { st with cache } = st.disk := rfl
      simp only [hknown, hdisk]
      cases Settings.forFile st.disk path with
      | error fault => rfl
      | ok c =>
          by_cases hpath : c.path.isEmpty = true
          · simp [hpath]
          · simp [hpath, State.log]

/-- What is read of a file does not depend on the cache. -/
theorem reading_withCache (st : State) (cache : Option Cache) (path : Text) :
    State.reading { st with cache } path = st.reading path := by
  unfold State.reading
  rw [settingsFor_withCache]
  rfl

/-- **Without a cache** a file that formatting does not change is left as it is. -/
theorem ofFile_of_unchanged {st : State} {mode : Mode} {path content : Text} {o : Options}
    (hread : st.reading path = some (content, o))
    (hsame : formatCompared o content = .ok { content, changed := false }) :
    Verdict.ofFile mode { st with cache := none } path =
      (.formatted { content, changed := false },
        { (st.settingsFor path).2 with cache := none }) := by
  rw [Verdict.ofFile_of_reading (by rw [reading_withCache]; exact hread), settingsFor_withCache]
  have hcontent : Verdict.ofContent mode { (st.settingsFor path).2 with cache := none } path
      content o = (.formatted { content, changed := false },
        { (st.settingsFor path).2 with cache := none }) := by
    simp [Verdict.ofContent, hsame, Verdict.carryOut, Verdict.note, State.record]
  unfold Verdict.ofUncached
  split
  · exact hcontent
  · exact hcontent

/-- **A file is found in the cache** if it has the content that the last work on it
recorded, under the same options. -/
theorem cached_of_key {works : List Work} {st : State} (h : Reached works st) {mode : Mode}
    (hmode : mode ≠ .print) {path content : Text} {o : Options}
    (hread : st.reading path = some (content, o)) {w : Work}
    (hlast : lastWork works path = some w) (hkey : w.key? = some (Cache.key content o)) :
    (Verdict.ofFile mode st path).1 = .cached content := by
  obtain ⟨cache, hkept⟩ := kept_of_reached h
  have hcases := Verdict.ofUncached_cases (hkept.toTended.settingsFor path) mode path content o
  have hlookup : cache.entries.lookup path = some (Cache.key content o) := by
    rw [hkept.entries, hlast, Option.bind_some, hkey]
  rw [if_pos ⟨hmode, hlookup⟩] at hcases
  rw [Verdict.ofFile_of_reading hread, hcases]

/-- **What a file that is found in the cache is worth.**  After any history it has the
content that came of the last work on it, under the same options, as long as the digests
of what was recorded tell contents and options apart.  To format it again would change
nothing exactly if formatting does not change its own result on what that work started
from; in particular where that work found the file formatted.  In this case a run without
a cache reports the same and leaves the same, but for the message about the hit. -/
theorem cached_iff {works : List Work} {st : State} (h : Reached works st) {mode : Mode}
    {path content : Text} {o : Options} (hread : st.reading path = some (content, o))
    (hhit : (Verdict.ofFile mode st path).1 = .cached content)
    (hdigest : ∀ w ∈ works, Digest.sha256Hex (Cache.keyText w.result w.options).encode =
        Digest.sha256Hex (Cache.keyText content o).encode →
      Cache.keyText w.result w.options = Cache.keyText content o) :
    ∃ w, lastWork works path = some w ∧ w.options = o ∧ format o w.source = .ok content ∧
      (formatCompared o content = .ok { content, changed := false } ↔
        format o content = format o w.source) ∧
      (formatCompared o content = .ok { content, changed := false } →
        let cached := Verdict.ofFile mode st path
        let uncached := Verdict.ofFile mode { st with cache := none } path
        uncached.1 = .formatted { content, changed := false } ∧
          (∀ isOnly, Report.ofVerdict mode false isOnly path cached.1 =
            Report.ofVerdict mode false isOnly path uncached.1) ∧
          cached.2.workspace = uncached.2.workspace.log .cache (text "hit " ++ path)) := by
  obtain ⟨cache, hkept⟩ := kept_of_reached h
  have hfile := Verdict.ofFile_of_reading hread mode
  have hcases := Verdict.ofUncached_cases (hkept.toTended.settingsFor path) mode path content o
  split at hcases
  · next hknown =>
      obtain ⟨hmode, hlookup⟩ := hknown
      rw [hkept.entries] at hlookup
      obtain ⟨w, hw, hkey⟩ := Option.bind_eq_some_iff.mp hlookup
      have hmem : w ∈ works := List.mem_of_find?_eq_some hw
      have hsame : Cache.key w.result w.options = Cache.key content o := by
        unfold Work.key? at hkey
        split at hkey
        · exact Option.some.inj hkey
        · cases hkey
      obtain ⟨hresult, hoptions⟩ := Cache.keyText_inj (hdigest w hmem hsame)
      have hformat : format o w.source = .ok content := by
        rw [← hresult, ← hoptions]
        exact hkept.results w hmem
      refine ⟨w, hw, hoptions, hformat, ?_, fun hunchanged => ?_⟩
      · rw [hformat]
        constructor
        · intro hunchanged
          exact (Verdict.format_of_compared hunchanged).1
        · intro hfixed
          simp [formatCompared, hfixed, bind, Except.bind, pure, Except.pure]
      · rw [hfile, hcases, ofFile_of_unchanged hread hunchanged]
        refine ⟨rfl, fun isOnly => ?_, rfl⟩
        simp [Report.ofVerdict, hmode]
  · -- what is formatted is no hit
    rw [hfile, hcases] at hhit
    rcases Verdict.ofContent_cases mode (st.settingsFor path).2 path content o with
      ⟨fault, hcontent⟩ | ⟨f, st', -, -, hcontent⟩
    · rw [hcontent] at hhit
      cases hhit
    · rw [hcontent] at hhit
      cases hhit

/-! ## A file that is formatted by one run and checked by the next -/

/-- A file of the working directory is read as it is, under the settings of the directory
that are known. -/
theorem reading_name {st : State} {entries : List (Text × Node)} {name content : Text}
    {c : Settings} {o : Options} (hdisk : st.disk = { root := .dir entries })
    (hname : Disk.isName name = true) (hfile : entries.lookup name = some (.file content))
    (hknown : st.known.lookup (Path.dir name) = some c) (hoptions : c.options content = .ok o) :
    st.reading name = some (content, o) := by
  unfold State.reading State.settingsFor
  simp only [hdisk, Disk.readFile_name hname hfile, hknown, hoptions]

/-- A cache is opened if its file can be read. -/
theorem openCache_eq_ok (st : State) {path : Text} (hpath : path ≠ []) {place : List Text}
    {d : Disk} {table : Cache.Entries} (hopen : st.disk.openFile path = .ok (place, d))
    (hread : Cache.ofText? (d.contentAt place) = some table) :
    st.openCache path = .ok { st with
      cache := some { place, entries := table }
      workspace := { st.workspace with disk := d.put place (.file (Cache.toText table)) } } := by
  simp [State.openCache, Cache.openAt, hpath, hopen, hread]

/-- A file that the cache does not know is rewritten in place, and what it has then is
recorded. -/
theorem ofFile_of_changed {st : State} {cache : Cache} {path content text' : Text} {o : Options}
    {c : Settings} {f : Formatted} {disk : Disk} (htended : Tended st cache text')
    (hmiss : cache.entries.lookup path = none) (hread : st.reading path = some (content, o))
    (hknown : st.known.lookup (Path.dir path) = some c)
    (hformat : formatCompared o content = .ok f) (hchanged : f.changed = true)
    (hwrite : st.disk.writeFile path f.content = .ok disk) :
    Verdict.ofFile .inPlace st path =
      (.formatted f, State.record (State.log
        { st with workspace := { st.workspace with disk } } .format (text "rewrote " ++ path))
        path f.content o) := by
  have hsettings : (st.settingsFor path).2 = st := by simp [State.settingsFor, hknown]
  have hcases := Verdict.ofUncached_cases htended .inPlace path content o
  rw [if_neg (by simp [hmiss])] at hcases
  rw [Verdict.ofFile_of_reading hread, hsettings, hcases]
  simp [Verdict.ofContent, hformat, Verdict.carryOut, hchanged, Verdict.replaceFile, hwrite,
    Verdict.note]

/-- A run in a working directory with the given entries, one of which is its cache, without
a journal. -/
structure Located (st : State) (known : List (Text × Settings)) (db : Text)
    (entries : List (Text × Node)) : Prop where
  disk : st.disk = { root := .dir entries }
  known : st.known = known
  sink : st.workspace.sink = .off
  place : ∀ cache, st.cache = some cache → cache.place = [db]

/-- Without a journal nothing is written to the cache by it. -/
theorem apart_of_off {st : State} (h : st.workspace.sink = .off) : st.Apart := by
  intro place cache hsink
  rw [h] at hsink
  cases hsink

/-- Without a journal a message changes nothing. -/
theorem log_of_off {st : State} (h : st.workspace.sink = .off) (category : Journal.Category)
    (message : Text) : st.log category message = st := by
  simp [State.log, Workspace.log, Workspace.write, h]

section Runs

variable {known : List (Text × Settings)} {db : Text} {entries : List (Text × Node)}

/-- A run makes a cache in a directory. -/
theorem exists_opened (hdb : Disk.isName db = true) (hnew : entries.lookup db = none)
    (known : List (Text × Settings)) :
    ∃ st entries', Reached [] st ∧ Located st known db entries' ∧
      ∀ k ≠ db, entries'.lookup k = entries.lookup k := by
  let st : State := { workspace := { disk := { root := .dir entries } }, known }
  have hpath : db ≠ [] := by
    rintro rfl
    cases hdb
  have hempty : Disk.contentAt { root := .dir (setEntry db (.file []) entries) } [db] = [] := by
    simp [Disk.contentAt, Node.at?, lookup_setEntry]
  have hopens := openCache_eq_ok st hpath (Disk.openFile_new hdb hnew)
    (show Cache.ofText? _ = some [] by rw [hempty]; rfl)
  refine ⟨_, _, .opened rfl hopens rfl (apart_of_off rfl), ⟨rfl, rfl, rfl, ?_⟩, fun k hk => ?_⟩
  · intro cache hcache
    cases hcache
    rfl
  · rw [lookup_setEntry, if_neg hk, lookup_setEntry, if_neg hk]

/-- The next run opens the cache in the same directory. -/
theorem Located.reopened {works : List Work} {st : State} (h : Located st known db entries)
    (hreached : Reached works st) (hdb : Disk.isName db = true) :
    ∃ st' entries', Reached works st' ∧ Located st' known db entries' ∧
      ∀ k ≠ db, entries'.lookup k = entries.lookup k := by
  obtain ⟨cache, hkept⟩ := kept_of_reached hreached
  have hplace := h.place cache hkept.cache_eq
  have hfile : Disk.Holds { root := .dir entries } [db] (Cache.toText cache.entries) := by
    have := hkept.file
    rwa [h.disk, hplace] at this
  have hlookup : entries.lookup db = some (.file (Cache.toText cache.entries)) := by
    rw [← Node.at?_entry (p := []) db rfl]
    exact hfile
  have hpath : db ≠ [] := by
    rintro rfl
    cases hdb
  let next : State := { workspace := { disk := { root := .dir entries } }, known }
  have hleft : next.disk.readFile db = .ok st.cacheText := by
    rw [State.cacheText, hkept.cache_eq, Option.elim_some, hkept.file.contentAt]
    exact Disk.readFile_name hdb hlookup
  have hopens := openCache_eq_ok next hpath (Disk.openFile_name hdb hlookup)
    (show Cache.ofText? _ = some cache.entries by
      rw [hfile.contentAt]
      exact Cache.ofText?_toText hkept.keys)
  refine ⟨_, _, .reopened hreached rfl hleft hopens (apart_of_off rfl), ⟨rfl, rfl, rfl, ?_⟩,
    fun k hk => ?_⟩
  · intro cache hcache
    cases hcache
    rfl
  · rw [lookup_setEntry, if_neg hk]

/-- A run formats a file of the directory in place for the first time. -/
theorem Located.rewritten {works : List Work} {st : State} (h : Located st known db entries)
    (hreached : Reached works st) {page source out : Text} {c : Settings} {o : Options}
    (hpage : Disk.isName page = true) (hne : page ≠ db) (hfirst : lastWork works page = none)
    (hfile : entries.lookup page = some (.file source))
    (hknown : known.lookup (Path.dir page) = some c) (hoptions : c.options source = .ok o)
    (hformat : formatCompared o source = .ok { content := out, changed := true }) :
    ∃ st' entries', Reached (⟨page, source, o, .inPlace, out⟩ :: works) st' ∧
      Located st' known db entries' ∧ entries'.lookup page = some (.file out) := by
  obtain ⟨cache, hkept⟩ := kept_of_reached hreached
  have hplace := h.place cache hkept.cache_eq
  have hread : st.reading page = some (source, o) :=
    reading_name h.disk hpage hfile (by rw [h.known]; exact hknown) hoptions
  have hwrite : st.disk.writeFile page out =
      .ok { root := .dir (setEntry page (.file out) entries) } := by
    simp only [h.disk, Disk.writeFile, Disk.openFile_name hpage hfile, bind, Except.bind, pure,
      Except.pure]
    rfl
  let written : State :=
    { st with workspace := { st.workspace with
      disk := { root := .dir (setEntry page (.file out) entries) } } }
  obtain ⟨text', hheld⟩ := hkept.file.writeFile hwrite
  have htended : Tended written cache text' :=
    ⟨hkept.cache_eq, hkept.isOpen, hheld, hkept.apart⟩
  obtain ⟨p, hresolve⟩ := Disk.readFile_eq_ok (Verdict.readFile_of_reading hread).1
  obtain ⟨hpath, hwidth⟩ := Disk.path_of_resolve hresolve
  have hverdict := ofFile_of_changed hkept.toTended (by rw [hkept.entries, hfirst]; rfl) hread
    (by rw [h.known]; exact hknown) hformat rfl hwrite
  have hlog := log_of_off (show written.workspace.sink = .off from h.sink) .format
    (text "rewrote " ++ page)
  rw [hlog, htended.record_eq hpath hwidth] at hverdict
  have hwork : Verdict.work? .inPlace st page = some ⟨page, source, o, .inPlace, out⟩ := by
    simp [Verdict.work?, hread, hverdict]
  have hworked := hreached.worked .inPlace page
  rw [hwork, hverdict] at hworked
  let recorded := (page, Cache.key out o) :: Cache.without cache.entries page
  refine ⟨_, setEntry db (.file (Cache.toText recorded)) (setEntry page (.file out) entries),
    hworked, ⟨?_, h.known, h.sink, ?_⟩, ?_⟩
  · simp only [State.disk, Cache.setEntries, hplace]
    rfl
  · intro cache' hcache
    cases hcache
    exact hplace
  · rw [lookup_setEntry, if_neg hne, lookup_setEntry, if_pos rfl]

end Runs

/-- A run formats a file in place with a new cache, and the next run checks it: it is found
in the cache. -/
theorem reached_formatted {source out : Text}
    (hformat : formatCompared {} source = .ok { content := out, changed := true })
    (hsource : Settings.options {} source = .ok {}) (hout : Settings.options {} out = .ok {}) :
    ∃ st, Reached [⟨text "a.html", source, {}, .inPlace, out⟩] st ∧
      st.reading (text "a.html") = some (out, {}) ∧
      (Verdict.ofFile .check st (text "a.html")).1 = .cached out := by
  have hpage : Disk.isName (text "a.html") = true := by decide
  have hdb : Disk.isName (text "c.db") = true := by decide
  have hne : text "a.html" ≠ text "c.db" := by decide
  have hknown : [(text ".", ({} : Settings))].lookup (Path.dir (text "a.html")) = some {} := by
    decide
  obtain ⟨st₁, opened, hreached₁, hlocated₁, hopened⟩ :=
    @exists_opened (text "c.db") [(text "a.html", .file source)] hdb rfl [(text ".", {})]
  obtain ⟨st₂, rewritten, hreached₂, hlocated₂, hrewritten⟩ :=
    hlocated₁.rewritten hreached₁ hpage hne rfl (by rw [hopened _ hne]; rfl) hknown hsource hformat
  obtain ⟨st₃, reopened, hreached₃, hlocated₃, hreopened⟩ := hlocated₂.reopened hreached₂ hdb
  have hread : st₃.reading (text "a.html") = some (out, {}) :=
    reading_name hlocated₃.disk hpage (by rw [hreopened _ hne, hrewritten])
      (by rw [hlocated₃.known]; exact hknown) hout
  exact ⟨st₃, hreached₃, hread, cached_of_key hreached₃ (by decide) hread rfl rfl⟩

/-- A file that formatting does not change a second time. -/
theorem cached_paragraph :
    let out := text "<p>a</p>"
    ∃ works st w, Reached works st ∧ (Verdict.ofFile .check st (text "a.html")).1 = .cached out ∧
      lastWork works (text "a.html") = some w ∧ format {} w.source = .ok out ∧
      formatCompared {} out = .ok { content := out, changed := false } := by
  intro out
  have hfirst : layout {} (text "<p> a </p>") = out := by decide +kernel
  have hsecond : layout {} out = out := by decide +kernel
  have hformat : format {} (text "<p> a </p>") = .ok out := by
    rw [format_eq_layout (by decide) (by decide) (by decide), hfirst]
  have hagain : format {} out = .ok out := by
    rw [format_eq_layout (by decide) (by decide) (by decide), hsecond]
  have hcompared : formatCompared {} (text "<p> a </p>") =
      .ok { content := out, changed := true } := by
    rw [formatCompared, hformat]
    rfl
  obtain ⟨st, hreached, hread, hhit⟩ := reached_formatted hcompared
    (Settings.options_of_valid (by decide +kernel) (by decide) (by decide))
    (Settings.options_of_valid (by decide +kernel) (by decide) (by decide))
  obtain ⟨w, hw, -, hsource, hiff, -⟩ := cached_iff hreached hread hhit (by simp)
  exact ⟨_, st, w, hreached, hhit, hw, hsource, hiff.mpr (hagain.trans hsource.symm)⟩

/-- A file that formatting changes a second time, since the first time put a space in it:
the second run finds it in the cache, and it is not formatted. -/
theorem cached_spread :
    let out := text "<div> Some text that is longer than forty <b>x</b></div>"
    ∃ works st, Reached works st ∧ st.reading (text "a.html") = some (out, {}) ∧
      (∀ w ∈ works, Digest.sha256Hex (Cache.keyText w.result w.options).encode =
          Digest.sha256Hex (Cache.keyText out {}).encode →
        Cache.keyText w.result w.options = Cache.keyText out {}) ∧
      (Verdict.ofFile .check st (text "a.html")).1 = .cached out ∧
      ∃ f, formatCompared {} out = .ok f ∧ f.changed = true := by
  intro out
  let source := text "<div>Some text that is longer than forty <b>x</b></div>"
  have hfirst : layout {} source = out := by decide +kernel
  have hsecond : layout {} out ≠ out := by decide +kernel
  have hcompared : formatCompared {} source = .ok { content := out, changed := true } := by
    rw [formatCompared, format_eq_layout (by decide) (by decide) (by decide), hfirst]
    rfl
  obtain ⟨st, hreached, hread, hhit⟩ := reached_formatted hcompared
    (Settings.options_of_valid (by decide +kernel) (by decide) (by decide))
    (Settings.options_of_valid (by decide +kernel) (by decide) (by decide))
  refine ⟨_, st, hreached, hread, by simp, hhit,
    { content := layout {} out, changed := true }, ?_, rfl⟩
  have hchanged : (layout {} out != out) = true := bne_iff_ne.mpr hsecond
  rw [formatCompared, format_eq_layout (by decide) (by decide) (by decide)]
  simp [bind, Except.bind, pure, Except.pure, hchanged]

end TemplateFormat.Command
