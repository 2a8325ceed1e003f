import TemplateFormat.Proofs.CacheHistory
import TemplateFormat.Proofs.Shapes

/-!
# What formatting one file sees and changes

Formatting a file is a task that shares the disk, the settings that are known and the cache
with the tasks for other files.  It sees little of them: the content of its file, the
settings that apply to it and the entry of its path in the cache.  What comes of the file
depends on nothing else (`Sight.verdict`), and the task changes nothing else, but for the
journal and the file of the cache, which every task writes to.

* `Moved` — a state that differs from another at some places and for some paths only, with
  a lemma for each operation of a task;
* `Sight` — what a task sees, and what comes of it;
* `done_ofFile` — the verdict of a task, and all that it changes.
-/

namespace TemplateFormat.Command

open Text Layout Storage

/-! ## States that differ a little -/

/-- The settings that apply depend on the directory of a file only. -/
theorem forFile_of_dir (d : Disk) {path path' : Text} (h : Path.dir path = Path.dir path') :
    Settings.forFile d path = Settings.forFile d path' := by
  unfold Settings.forFile
  rw [h]

namespace State

/-- The places that every task may write to: the file of the journal, and that of the
cache. -/
def Writes (st : State) (place : List Text) : Prop :=
  st.workspace.sink = .file place ∨ ∃ cache, st.cache = some cache ∧ cache.place = place

/-- The journal and the cache have their files. -/
def Standing (st : State) : Prop :=
  ∀ place, st.Writes place → ∃ content, st.disk.Holds place content

/-- The place of the cache, and whether it is open. -/
def handle (st : State) : Option (List Text × Bool) :=
  st.cache.map fun cache => (cache.place, cache.isOpen)

/-- Whether there is a cache, and it is open. -/
def hasCache (st : State) : Bool := st.cache.any (·.isOpen)

/-- The key that the cache has for a path. -/
def key? (st : State) (path : Text) : Option Text := st.cache.bind (·.entries.lookup path)

/-- The settings that apply to a file, from those that are known or from the disk. -/
theorem settingsFor_fst (st : State) (path : Text) :
    (st.settingsFor path).1 = match st.known.lookup (Path.dir path) with
      | some c => .ok c
      | none => Settings.forFile st.disk path := by
  cases hknown : st.known.lookup (Path.dir path) with
  | some c => simp [settingsFor, hknown]
  | none => cases hfile : Settings.forFile st.disk path <;> simp [settingsFor, hknown, hfile]

/-- Settings are the same on another disk, unless their file is touched. -/
theorem settingsFor_of_known {touched : List Text → Prop} {st st' : State} {path : Text}
    (hknown : st'.known = st.known) (hdisk : st.disk.Differs touched st'.disk)
    (hspared : st.disk.Spares touched path) :
    (st'.settingsFor path).1 = (st.settingsFor path).1 := by
  rw [settingsFor_fst, settingsFor_fst, hknown]
  split
  · rfl
  · exact hdisk.forFile hspared

end State

/-- **A state that differs a little from another**: in the files at some places, and in what
the cache knows of some paths.  Settings are the same unless their file is touched. -/
structure Moved (touched : List Text → Prop) (noted : Text → Prop) (st st' : State) :
    Prop where
  disk : st.disk.Differs touched st'.disk
  sink : st'.workspace.sink = st.workspace.sink
  handle : st'.handle = st.handle
  keys : ∀ path, ¬noted path → st'.key? path = st.key? path
  settings : ∀ path, st.disk.Spares touched path →
    (st'.settingsFor path).1 = (st.settingsFor path).1

namespace Moved

variable {touched more : List Text → Prop} {noted known : Text → Prop} {st st' st'' : State}

theorem refl (touched : List Text → Prop) (noted : Text → Prop) (st : State) :
    Moved touched noted st st :=
  ⟨.refl _ _, rfl, rfl, fun _ _ => rfl, fun _ _ => rfl⟩

theorem trans (h : Moved touched noted st st') (h' : Moved touched noted st' st'') :
    Moved touched noted st st'' where
  disk := h.disk.trans h'.disk
  sink := h'.sink.trans h.sink
  handle := h'.handle.trans h.handle
  keys := fun path hpath => (h'.keys path hpath).trans (h.keys path hpath)
  settings := fun path hspared =>
    (h'.settings path (hspared.alike h.disk.toAlike)).trans (h.settings path hspared)

theorem mono (h : Moved touched noted st st') (hmore : ∀ p, touched p → more p)
    (hknown : ∀ path, noted path → known path) : Moved more known st st' where
  disk := h.disk.mono hmore
  sink := h.sink
  handle := h.handle
  keys := fun path hpath => h.keys path fun hnoted => hpath (hknown path hnoted)
  settings := fun path hspared => h.settings path (hspared.mono hmore)

/-- Every task writes to the same places. -/
theorem writes_iff (h : Moved touched noted st st') (place : List Text) :
    st'.Writes place ↔ st.Writes place := by
  have hcache : ∀ s : State, (∃ cache, s.cache = some cache ∧ cache.place = place) ↔
      ∃ isOpen, s.handle = some (place, isOpen) := by
    intro s
    unfold State.handle
    cases s.cache with
    | none => simp
    | some cache => simp
  unfold State.Writes
  rw [hcache, hcache, h.sink, h.handle]

/-- The cache is open or not as it was. -/
theorem hasCache (h : Moved touched noted st st') : st'.hasCache = st.hasCache := by
  have hany : ∀ s : State, s.hasCache = s.handle.any (·.2) := by
    intro s
    unfold State.hasCache State.handle
    cases s.cache <;> rfl
  rw [hany, hany, h.handle]

theorem standing (h : Moved touched noted st st') (hstanding : st.Standing) : st'.Standing := by
  intro place hwrites
  obtain ⟨content, hholds⟩ := hstanding place ((h.writes_iff place).mp hwrites)
  exact h.disk.holds hholds

/-- Only the disk is another. -/
theorem of_disk {ws : Workspace} (hdisk : st.disk.Differs touched ws.disk)
    (hsink : ws.sink = st.workspace.sink) : Moved touched noted st { st with workspace := ws } where
  disk := hdisk
  sink := hsink
  handle := rfl
  keys := fun _ _ => rfl
  settings := fun _ => State.settingsFor_of_known rfl hdisk

/-- A message goes to the journal. -/
theorem log (hstanding : st.Standing) (category : Journal.Category) (message : Text) :
    Moved st.Writes noted st (st.log category message) := by
  refine of_disk ?_ (sink_write _ _)
  unfold Workspace.log Workspace.write
  split
  · exact .refl _ _
  · exact .refl _ _
  · next place hsink =>
      obtain ⟨content, hholds⟩ := hstanding place (.inl hsink)
      exact (Disk.Differs.append hholds _).mono fun p hp => hp ▸ .inl hsink

/-- **Looking up settings** makes them known, as they are on the disk. -/
theorem settingsFor (hstanding : st.Standing) (path : Text) :
    Moved st.Writes noted st (st.settingsFor path).2 := by
  unfold State.settingsFor
  cases hknown : st.known.lookup (Path.dir path) with
  | some c =>
      simp only [hknown]
      exact refl _ _ _
  | none =>
      cases hfile : Settings.forFile st.disk path with
      | error fault =>
          simp only [hknown]
          exact refl _ _ _
      | ok c =>
          simp only [hknown]
          have hlogged : Moved st.Writes noted st (if c.path.isEmpty then st
              else st.log .config (text "using " ++ c.path ++ text " for " ++ Path.dir path)) := by
            split
            · exact refl _ _ _
            · exact log hstanding _ _
          have hsame : (if c.path.isEmpty then st else st.log .config
              (text "using " ++ c.path ++ text " for " ++ Path.dir path)).known = st.known := by
            split <;> rfl
          refine ⟨hlogged.disk, hlogged.sink, hlogged.handle, hlogged.keys, ?_⟩
          intro other hspared
          rw [State.settingsFor_fst, State.settingsFor_fst, List.lookup_cons, hsame]
          by_cases hdir : Path.dir other = Path.dir path
          · -- the settings of a directory are those of each file in it
            have hforFile : Settings.forFile st.disk other = .ok c := by
              rw [forFile_of_dir st.disk hdir, hfile]
            simp [hdir, hknown, hforFile]
          · have hother := State.settingsFor_of_known hsame hlogged.disk hspared
            rw [State.settingsFor_fst, State.settingsFor_fst, hsame] at hother
            rw [beq_false_of_ne hdir]
            exact hother

/-- Asking the cache may leave a message. -/
theorem isCached (hstanding : st.Standing) (path content : Text) (o : Options) :
    Moved st.Writes noted st (st.isCached path content o).2 := by
  unfold State.isCached
  split
  · exact refl _ _ _
  · split
    · dsimp only
      split
      · exact log hstanding _ _
      · exact refl _ _ _
    · exact log hstanding _ _

/-- Setting the entries of the cache writes its file. -/
theorem setEntries (hstanding : st.Standing) {cache : Cache} (hcache : st.cache = some cache)
    {entries : Cache.Entries}
    (hkeys : ∀ path, ¬noted path → entries.lookup path = cache.entries.lookup path) :
    Moved st.Writes noted st { st with
      cache := some (cache.setEntries st.disk entries).1
      workspace := { st.workspace with disk := (cache.setEntries st.disk entries).2 } } := by
  obtain ⟨content, hholds⟩ := hstanding cache.place (.inr ⟨cache, hcache, rfl⟩)
  have hdisk : st.disk.Differs st.Writes (cache.setEntries st.disk entries).2 :=
    (Disk.Differs.put hholds _).mono fun p hp => hp ▸ .inr ⟨cache, hcache, rfl⟩
  refine ⟨hdisk, rfl, ?_, fun path hpath => ?_, fun _ => State.settingsFor_of_known rfl hdisk⟩
  · simp [State.handle, hcache, Cache.setEntries]
  · simpa [State.key?, hcache, Cache.setEntries] using hkeys path hpath

end Moved

/-- **What is noted in an open cache** is the entry of one path; a closed one leaves a
message. -/
theorem updateCache_spec {st : State} (hstanding : st.Standing) {cache : Cache}
    (hcache : st.cache = some cache) (activity : String) {path : Text} {entries : Cache.Entries}
    {left : Option Text}
    (hentries : ∀ k, entries.lookup k = if k = path then left else cache.entries.lookup k) :
    let st' := st.updateCache activity path
      (if cache.isOpen then .ok (cache.setEntries st.disk entries) else .error .notOpen)
    Moved st.Writes (· = path) st st' ∧
      st'.key? path = if st.hasCache then left else st.key? path := by
  intro st'
  have hopen : st.hasCache = cache.isOpen := by simp [State.hasCache, hcache]
  rw [hopen]
  by_cases h : cache.isOpen = true
  · have hst' : st' = { st with
        cache := some (cache.setEntries st.disk entries).1
        workspace := { st.workspace with disk := (cache.setEntries st.disk entries).2 } } := by
      simp only [st', h, if_true, State.updateCache]
    rw [hst', if_pos h]
    refine ⟨Moved.setEntries hstanding hcache fun k hk => ?_, ?_⟩
    · rw [hentries, if_neg hk]
    · simp [State.key?, Cache.setEntries, hentries]
  · have hst' : st' = st.log .cache
        (text activity ++ text " " ++ path ++ text ": " ++ Cache.Fault.notOpen.message) := by
      simp only [st', h, Bool.false_eq_true, if_false, State.updateCache]
    rw [hst', if_neg h]
    exact ⟨Moved.log hstanding _ _, rfl⟩

/-- **What is noted about a file**: the key of its content if it is formatted now, and
nothing if it is not. -/
theorem note_spec {st : State} (hstanding : st.Standing) {path : Text} (hpath : path ≠ [])
    (hwidth : path.width ≤ Disk.pathLimit) (mode : Mode) (o : Options) (f : Formatted) :
    Moved st.Writes (· = path) st (Verdict.note mode st path o f) ∧
      (Verdict.note mode st path o f).key? path =
        if st.hasCache then
          if mode = .inPlace || !f.changed then some (Cache.key f.content o) else none
        else st.key? path := by
  unfold Verdict.note State.record State.forget
  cases hcache : st.cache with
  | none =>
      have hno : st.hasCache = false := by simp [State.hasCache, hcache]
      simp only [hno, Bool.false_eq_true, if_false, ite_self]
      exact ⟨.refl _ _ _, trivial⟩
  | some cache =>
      simp only
      by_cases hformatted : (mode = .inPlace || !f.changed) = true
      · have hlimits : Disk.pathLimit ≤ Cache.pathLimit := by decide
        have hrecord : cache.record st.disk path f.content o =
            if cache.isOpen then .ok (cache.setEntries st.disk
              ((path, Cache.key f.content o) :: Cache.without cache.entries path))
            else .error .notOpen := by
          cases hopen : cache.isOpen <;>
            simp [Cache.record, hopen, hpath, Nat.not_lt.mpr (Nat.le_trans hwidth hlimits)]
        simp only [if_pos hformatted, hrecord]
        exact updateCache_spec hstanding hcache "record" (lookup_set _ path _)
      · simp only [if_neg hformatted, Cache.forget]
        exact updateCache_spec hstanding hcache "forget" (lookup_without _ path)

/-! ## What a task sees -/

/-- What a task sees: what is read of its file, the settings that apply to it, and the key
that an open cache has for its path. -/
structure Sight where
  content : Except Failure Text
  settings : Except Settings.LoadFault Settings
  hasCache : Bool
  key? : Option Text

/-- What the task for a path sees of a state. -/
def State.sight (st : State) (path : Text) : Sight where
  content := st.disk.readFile path
  settings := (st.settingsFor path).1
  hasCache := st.hasCache
  key? := st.key? path

namespace Sight

/-- The content that is formatted, with the options for it. -/
def reading (s : Sight) : Except FileFault (Text × Options) :=
  match s.content with
  | .error failure => .error (.reading failure)
  | .ok content =>
    match s.settings with
    | .error fault => .error (.settings fault)
    | .ok c =>
      match c.options content with
      | .error fault => .error (.options fault)
      | .ok o => .ok (content, o)

/-- What comes of the file. -/
def verdict (mode : Mode) (s : Sight) : Verdict :=
  match s.reading with
  | .error fault => .failed fault
  | .ok (content, o) =>
    if mode ≠ .print ∧ s.hasCache = true ∧ s.key? = some (Cache.key content o) then
      .cached content
    else
      match formatCompared o content with
      | .error fault => .failed (.layout fault)
      | .ok f => .formatted f

/-- The key that the cache has for the path afterwards. -/
def keyAfter (mode : Mode) (s : Sight) : Option Text :=
  match s.reading, s.verdict mode with
  | .ok (_, o), .formatted f =>
    if s.hasCache then
      if mode = .inPlace || !f.changed then some (Cache.key f.content o) else none
    else s.key?
  | _, _ => s.key?

end Sight

/-- The content that a file has afterwards, given the one before. -/
def Verdict.left (mode : Mode) (content : Text) : Verdict → Text
  | .formatted f => if f.changed && mode = .inPlace then f.content else content
  | _ => content

/-- The verdict makes the task rewrite its file. -/
def Verdict.Rewrites (mode : Mode) (v : Verdict) : Prop :=
  mode = .inPlace ∧ ∃ f, v = .formatted f ∧ f.changed = true

/-- **What a task does**: its verdict comes from what it sees, and it changes its file if the
verdict asks for it, the entry of its path, and nothing else but what every task writes. -/
structure Done (mode : Mode) (path : Text) (st : State) (result : Verdict × State) : Prop where
  verdict : result.1 = (st.sight path).verdict mode
  moved : Moved (fun p => (result.1.Rewrites mode ∧ st.disk.LeadsTo path p) ∨ st.Writes p)
    (· = path) st result.2
  content : ∀ p, st.disk.LeadsTo path p → ¬st.Writes p →
    result.2.disk.contentAt p = result.1.left mode (st.disk.contentAt p)
  key : result.2.key? path = (st.sight path).keyAfter mode

/-- A task that does not format its file. -/
theorem Done.of_moved {mode : Mode} {path : Text} {st st' : State} {v : Verdict}
    (hmoved : Moved st.Writes (fun _ => False) st st') (hverdict : v = (st.sight path).verdict mode)
    (hother : ∀ f, v ≠ .formatted f) : Done mode path st (v, st') where
  verdict := hverdict
  moved := hmoved.mono (fun _ => .inr) fun _ => False.elim
  content := by
    intro p _ hp
    rw [hmoved.disk.contentAt hp]
    cases v with
    | failed fault => rfl
    | cached content => rfl
    | formatted f => exact absurd rfl (hother f)
  key := by
    rw [hmoved.keys path id, Sight.keyAfter]
    split
    · next o f _ hformatted => exact absurd (hverdict.trans hformatted) (hother f)
    · rfl

/-- The cache knows a content by its key. -/
theorem isCached_fst (st : State) (path content : Text) (o : Options) :
    (st.isCached path content o).1 =
      (st.hasCache && st.key? path == some (Cache.key content o)) := by
  unfold State.isCached State.hasCache State.key?
  cases st.cache with
  | none => rfl
  | some cache =>
      cases hopen : cache.isOpen <;> simp [Cache.isFormatted, hopen]

/-- A content that the cache knows is not formatted, unless it is printed. -/
theorem ofUncached_eq (mode : Mode) (st : State) (path content : Text) (o : Options) :
    Verdict.ofUncached mode st path content o =
      if mode ≠ .print ∧ st.hasCache = true ∧ st.key? path = some (Cache.key content o) then
        (.cached content, (st.isCached path content o).2)
      else Verdict.ofContent mode (if mode = .print then st else (st.isCached path content o).2)
        path content o := by
  unfold Verdict.ofUncached
  by_cases hprint : mode = .print
  · simp [hprint]
  · have hcached := isCached_fst st path content o
    cases hasked : st.isCached path content o with
    | mk hit st' =>
        rw [hasked] at hcached
        cases hit with
        | true =>
            have hknown : st.hasCache = true ∧ st.key? path = some (Cache.key content o) := by
              simpa using hcached.symm
            simp [hprint, hknown]
        | false =>
            have hnew : ¬(st.hasCache = true ∧ st.key? path = some (Cache.key content o)) := by
              simpa using hcached.symm
            simp [hprint, hnew]

/-- **Carrying out what the mode asks for** does not fail for a file that is there. -/
theorem carryOut_spec {st : State} (hstanding : st.Standing) {path : Text} {place : List Text}
    (hleads : st.disk.LeadsTo path place) (mode : Mode) (f : Formatted) :
    ∃ st', Verdict.carryOut mode st path f = .ok st' ∧
      Moved (fun p => (Verdict.Rewrites mode (.formatted f) ∧ st.disk.LeadsTo path p) ∨
        st.Writes p) (fun _ => False) st st' ∧
      (¬st.Writes place →
        st'.disk.contentAt place = Verdict.left mode (st.disk.contentAt place) (.formatted f)) := by
  rw [Verdict.carryOut, Verdict.left]
  by_cases hrewrites : (f.changed && mode = .inPlace) = true
  · have hasked : Verdict.Rewrites mode (.formatted f) := by
      simp only [Bool.and_eq_true, decide_eq_true_eq] at hrewrites
      exact ⟨hrewrites.2, f, rfl, hrewrites.1⟩
    let written : State := { st with
      workspace := { st.workspace with disk := st.disk.put place (.file f.content) } }
    have hput : Moved (fun p => (Verdict.Rewrites mode (.formatted f) ∧ st.disk.LeadsTo path p) ∨
        st.Writes p) (fun _ => False) st written := by
      refine Moved.of_disk ((Disk.Differs.put hleads.holds _).mono fun p hp => ?_) rfl
      exact .inl ⟨hasked, hp ▸ hleads⟩
    have hlog : Moved written.Writes (fun _ => False) written
        (written.log .format (text "rewrote " ++ path)) := .log (hput.standing hstanding) _ _
    have hdone : Verdict.replaceFile st path f.content =
        .ok (written.log .format (text "rewrote " ++ path)) := by
      simp only [Verdict.replaceFile, hleads.writeFile, written]
    rw [if_pos hrewrites, if_pos hrewrites]
    refine ⟨_, hdone, hput.trans (hlog.mono (fun p hp => .inr ((hput.writes_iff p).mp hp))
      fun _ => id), fun hplace => ?_⟩
    rw [hlog.disk.contentAt fun hp => hplace ((hput.writes_iff place).mp hp)]
    exact Disk.Holds.contentAt (hleads.holds.put_self f.content)
  · rw [if_neg hrewrites, if_neg hrewrites]
    exact ⟨st, rfl, .refl _ _ _, fun _ => rfl⟩

/-- A task that formats its file, after it looked at the settings and the cache. -/
theorem Done.of_content {mode : Mode} {path content : Text} {o : Options} {st st₁ : State}
    (hstanding : st.Standing) (hmoved : Moved st.Writes (fun _ => False) st st₁)
    (hread : st.disk.readFile path = .ok content)
    (hverdict : (st.sight path).verdict mode = match formatCompared o content with
      | .error fault => .failed (.layout fault)
      | .ok f => .formatted f)
    (hreading : (st.sight path).reading = .ok (content, o)) :
    Done mode path st (Verdict.ofContent mode st₁ path content o) := by
  unfold Verdict.ofContent
  cases hformat : formatCompared o content with
  | error fault => exact .of_moved hmoved (by rw [hverdict, hformat]) (by simp)
  | ok f =>
      rw [hformat] at hverdict
      obtain ⟨place, hleads, -⟩ := Disk.leadsTo_of_readFile hread
      obtain ⟨st₂, hdone, hcarried, hcontent⟩ := carryOut_spec (hmoved.standing hstanding)
        (hmoved.disk.leadsTo_iff.mpr hleads) mode f
      have hrewritten : Moved (fun p => (Verdict.Rewrites mode (.formatted f) ∧
          st.disk.LeadsTo path p) ∨ st.Writes p) (fun _ => False) st st₂ := by
        refine (hmoved.mono (fun _ => .inr) fun _ => id).trans (hcarried.mono ?_ fun _ => id)
        rintro p (⟨hasked, hp⟩ | hp)
        · exact .inl ⟨hasked, hmoved.disk.leadsTo_iff.mp hp⟩
        · exact .inr ((hmoved.writes_iff p).mp hp)
      obtain ⟨hpath, hwidth⟩ := hleads.bounds
      obtain ⟨hnoted, hkey⟩ := note_spec (hrewritten.standing hstanding) hpath hwidth mode o f
      simp only [hdone]
      refine ⟨hverdict.symm, ?_, fun p hp hspared => ?_, ?_⟩
      · exact (hrewritten.mono (fun _ => id) fun _ => False.elim).trans
          (hnoted.mono (fun p hp => .inr ((hrewritten.writes_iff p).mp hp)) fun _ => id)
      · obtain rfl := hp.unique hleads
        rw [hnoted.disk.contentAt fun h => hspared ((hrewritten.writes_iff p).mp h),
          hcontent fun h => hspared ((hmoved.writes_iff p).mp h), hmoved.disk.contentAt hspared]
      · rw [hkey, hrewritten.hasCache, hrewritten.keys path id, Sight.keyAfter, hreading, hverdict]
        rfl

/-- A task that has read its file and has options for it, after it looked at the settings:
the cache may know the content. -/
theorem Done.of_reading {mode : Mode} {path content : Text} {o : Options} {st st₁ : State}
    (hstanding : st.Standing) (hmoved : Moved st.Writes (fun _ => False) st st₁)
    (hread : st.disk.readFile path = .ok content)
    (hreading : (st.sight path).reading = .ok (content, o)) :
    Done mode path st (Verdict.ofUncached mode st₁ path content o) := by
  have hsame : st₁.hasCache = (st.sight path).hasCache ∧
      st₁.key? path = (st.sight path).key? := ⟨hmoved.hasCache, hmoved.keys path id⟩
  have hasked : Moved st.Writes (fun _ => False) st (st₁.isCached path content o).2 :=
    hmoved.trans ((Moved.isCached (hmoved.standing hstanding) path content o).mono
      (fun p => (hmoved.writes_iff p).mp) fun _ => id)
  rw [ofUncached_eq, hsame.1, hsame.2]
  split
  · next hknown =>
      refine .of_moved hasked ?_ (by simp)
      rw [Sight.verdict, hreading]
      exact (if_pos hknown).symm
  · next hnew =>
      refine .of_content hstanding ?_ hread ?_ hreading
      · split
        · exact hmoved
        · exact hasked
      · rw [Sight.verdict, hreading]
        exact if_neg hnew

/-- **One task**: what comes of a file, and all that changes. -/
theorem done_ofFile {st : State} (hstanding : st.Standing) (mode : Mode) (path : Text) :
    Done mode path st (Verdict.ofFile mode st path) := by
  have hsettings : Moved st.Writes (fun _ => False) st (st.settingsFor path).2 :=
    .settingsFor hstanding path
  unfold Verdict.ofFile
  cases hread : st.disk.readFile path with
  | error failure =>
      refine .of_moved (.refl _ _ _) ?_ (by simp)
      simp [Sight.verdict, Sight.reading, State.sight, hread]
  | ok content =>
      cases hlookup : st.settingsFor path with
      | mk settings st₁ =>
          rw [hlookup] at hsettings
          cases settings with
          | error fault =>
              refine .of_moved hsettings ?_ (by simp)
              simp [Sight.verdict, Sight.reading, State.sight, hread, hlookup]
          | ok c =>
              cases hoptions : c.options content with
              | error fault =>
                  simp only [hoptions]
                  refine .of_moved hsettings ?_ (by simp)
                  simp [Sight.verdict, Sight.reading, State.sight, hread, hlookup, hoptions]
              | ok o =>
                  simp only [hoptions]
                  refine .of_reading hstanding hsettings hread ?_
                  simp [Sight.reading, State.sight, hread, hlookup, hoptions]

end TemplateFormat.Command
