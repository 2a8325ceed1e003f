import TemplateFormat.Command.Run
import TemplateFormat.Proofs.Orders

/-!
# The three modes agree

A run rewrites files in place, checks them, or prints them.  Without a cache, what comes of
a file does not depend on the mode, nor on the other files: it can be told from the disk
before the run (`judged`).  So the files that a check complains about are those that are
rewritten in place, and what is printed is what is left in them.

* `Moved.select` — selecting files leaves messages only;
* `ofVerdicts_eq` — a report of many files is put together from those of each;
* `formatFiles_spec` — a run in any mode, from the verdicts on the disk before it;
* `formatFiles_modes` — the runs in the three modes, side by side.
-/

namespace TemplateFormat.Command

open Text Layout Storage

/-! ## Selecting files -/

namespace Moved

variable {noted : Text → Prop} {st : State}

/-- Steps that write only what every task writes. -/
theorem and_then {st' st'' : State} (h : Moved st.Writes noted st st')
    (h' : Moved st'.Writes noted st' st'') : Moved st.Writes noted st st'' :=
  h.trans (h'.mono (fun p => (h.writes_iff p).mp) fun _ => id)

/-- Asking whether a file is a template looks up its settings. -/
theorem isTemplate (hstanding : st.Standing) (path : Text) :
    Moved st.Writes noted st (st.isTemplate path).2 := by
  have hmoved : Moved st.Writes noted st (st.settingsFor path).2 := .settingsFor hstanding path
  unfold State.isTemplate
  split
  · next hlookup => rwa [hlookup] at hmoved
  · next hlookup => rwa [hlookup] at hmoved

/-- Considering candidates looks up settings. -/
theorem addAll (hstanding : st.Standing) (files : List Text)
    (candidates : List Selection.Candidate) :
    Moved st.Writes noted st (Selection.addAll State.isTemplate st files candidates).2 := by
  unfold Selection.addAll
  induction candidates generalizing st files with
  | nil => exact refl _ _ _
  | cons candidate candidates ih =>
      have hone : Moved st.Writes noted st
          (Selection.consider State.isTemplate st files candidate).2 := by
        cases candidate with
        | named path => exact refl _ _ _
        | found path => exact isTemplate hstanding path
      exact hone.and_then (ih (hone.standing hstanding) _)

/-- **Selecting files** leaves messages only. -/
theorem select (hstanding : st.Standing) (paths : List Text) :
    Moved st.Writes noted st (Selection.select st paths).2 := by
  have hfrom : ∀ files, Moved st.Writes noted st
      (Selection.selectFrom State.disk State.isTemplate st files paths).2 := by
    induction paths generalizing st with
    | nil => exact fun _ => refl _ _ _
    | cons path paths ih =>
        intro files
        have hone : Moved st.Writes noted st
            (Selection.addAll State.isTemplate st files (Selection.expand st.disk path).1).2 :=
          addAll hstanding files _
        rw [Selection.selectFrom]
        simp only
        split
        · exact hone
        · exact hone.and_then (ih (hone.standing hstanding) _)
  exact hfrom []

/-- The task for a file sees nothing of such steps. -/
theorem sight {st' : State} {files : List Text} {path : Text}
    (h : Moved st.Writes (fun _ => False) st st') (hseparate : Separate st files)
    (hpath : path ∈ files) : st'.sight path = st.sight path := by
  have hspared := (hseparate.settings path hpath).mono (fun p => Or.inr (b := st.Writes p))
  unfold State.sight
  rw [h.disk.readFile (hseparate.own path hpath), h.settings path hspared, h.hasCache,
    h.keys path id]

end Moved

/-- Paths that do not meet still do not after steps that leave messages only. -/
theorem Separate.moved {noted : Text → Prop} {st st' : State} {files : List Text}
    (h : Separate st files) (hmoved : Moved st.Writes noted st st') : Separate st' files where
  distinct := h.distinct.imp fun hpair =>
    ⟨hpair.1, fun p ha hb => hpair.2 p (hmoved.disk.leadsTo_iff.mp ha)
      (hmoved.disk.leadsTo_iff.mp hb)⟩
  own := fun path hpath p hp hwrites =>
    h.own path hpath p (hmoved.disk.leadsTo_iff.mp hp) ((hmoved.writes_iff p).mp hwrites)
  settings := by
    intro path hpath
    refine ((h.settings path hpath).alike hmoved.disk.toAlike).mono ?_
    rintro p (⟨a, ha, hleads⟩ | hwrites)
    · exact .inl ⟨a, ha, hmoved.disk.leadsTo_iff.mp hleads⟩
    · exact .inr ((hmoved.writes_iff p).mp hwrites)
  standing := hmoved.standing h.standing

/-! ## Reports -/

namespace Report

/-- Reports one behind the other. -/
theorem foldl_append (reports : List Report) (r : Report) :
    (reports.foldl append r).output = r.output ++ reports.flatMap (·.output) ∧
      (reports.foldl append r).errors = r.errors ++ reports.flatMap (·.errors) ∧
      ((reports.foldl append r).failed = 0 ↔ r.failed = 0 ∧ ∀ a ∈ reports, a.failed = 0) ∧
      ((reports.foldl append r).unformatted = 0 ↔
        r.unformatted = 0 ∧ ∀ a ∈ reports, a.unformatted = 0) := by
  induction reports generalizing r with
  | nil => simp
  | cons a reports ih =>
      obtain ⟨houtput, herrors, hfailed, hunformatted⟩ := ih (r.append a)
      rw [List.foldl_cons, houtput, herrors, hfailed, hunformatted]
      simp [append, and_assoc]

/-- **A report of many files** is put together from those of each. -/
theorem ofVerdicts_eq (mode : Mode) (verbose : Bool) (files : List Text)
    (verdict : Text → Verdict) :
    let all := ofVerdicts mode verbose (files.map fun path => (path, verdict path))
    let report := fun path => ofVerdict mode verbose (files.length ≤ 1) path (verdict path)
    all.output = files.flatMap (fun path => (report path).output) ∧
      all.errors = files.flatMap (fun path => (report path).errors) ∧
      (all.failed = 0 ↔ ∀ path ∈ files, (report path).failed = 0) ∧
      (all.unformatted = 0 ↔ ∀ path ∈ files, (report path).unformatted = 0) := by
  intro all report
  have hall : all = (files.map report).foldl append {} := by
    simp only [all, ofVerdicts, List.length_map, List.foldl_map, report]
  obtain ⟨houtput, herrors, hfailed, hunformatted⟩ := foldl_append (files.map report) {}
  rw [hall, houtput, herrors, hfailed, hunformatted]
  simp [List.flatMap_map]

variable {verbose isOnly : Bool} {path : Text} {v : Verdict}

/-- A check complains about a file exactly if formatting changes it. -/
theorem ofVerdict_check_iff :
    ofVerdict .check verbose isOnly path v = notFormatted path ↔
      ∃ f, v = .formatted f ∧ f.changed = true := by
  cases v with
  | failed fault => simp [ofVerdict, notFormatted]
  | cached content =>
      cases verbose <;> simp [ofVerdict, notFormatted, line]
  | formatted f =>
      cases hchanged : f.changed <;> cases verbose <;>
        simp [ofVerdict, notFormatted, line, hchanged]

/-- A check finds no fault with a file exactly if it is formatted. -/
theorem ofVerdict_check_clean (hcached : ∀ content, v ≠ .cached content) :
    (ofVerdict .check verbose isOnly path v).failed = 0 ∧
        (ofVerdict .check verbose isOnly path v).unformatted = 0 ↔
      ∃ f, v = .formatted f ∧ f.changed = false := by
  cases v with
  | failed fault => simp [ofVerdict]
  | cached content => exact absurd rfl (hcached content)
  | formatted f =>
      cases hchanged : f.changed <;> cases verbose <;>
        simp [ofVerdict, notFormatted, line, hchanged]

/-- What is printed is the formatted content. -/
theorem ofVerdict_print_iff (hcached : ∀ content, v ≠ .cached content) {content : Text} :
    ofVerdict .print verbose isOnly path v = printed isOnly path content ↔
      ∃ f, v = .formatted f ∧ f.content = content := by
  cases v with
  | failed fault => simp [ofVerdict, printed]
  | cached content => exact absurd rfl (hcached content)
  | formatted f => simp [ofVerdict, printed]

end Report

/-- A run succeeds exactly if its report counts nothing. -/
theorem fault_ofReport (ws : Workspace) (report : Report) :
    (Outcome.ofReport ws report).fault = none ↔ report.failed = 0 ∧ report.unformatted = 0 := by
  simp only [Outcome.ofReport]
  split
  · next hfailed => simp [Nat.ne_of_gt hfailed]
  · split
    · next hunformatted => simp [Nat.ne_of_gt hunformatted]
    · simp only [true_iff]
      omega

/-! ## Verdicts from the disk -/

/-- **What comes of a file without a cache**, told from the disk before the run. -/
def judged (d : Disk) (path : Text) : Verdict :=
  match d.readFile path with
  | .error failure => .failed (.reading failure)
  | .ok content =>
    match Settings.forFile d path with
    | .error fault => .failed (.settings fault)
    | .ok c =>
      match c.options content with
      | .error fault => .failed (.options fault)
      | .ok o =>
        match formatCompared o content with
        | .error fault => .failed (.layout fault)
        | .ok f => .formatted f

/-- The file can be read, its options can be resolved, and formatting does not change it. -/
def IsSettled (d : Disk) (path : Text) : Prop :=
  ∃ content c o, d.readFile path = .ok content ∧ Settings.forFile d path = .ok c ∧
    c.options content = .ok o ∧ format o content = .ok content

/-- Without a cache a task sees the disk, and every mode comes to the same verdict. -/
theorem verdict_fresh (mode : Mode) (ws : Workspace) (path : Text) :
    (State.sight { workspace := ws } path).verdict mode = judged ws.disk path := by
  have hsettings : (State.settingsFor { workspace := ws } path).1 =
      Settings.forFile ws.disk path := State.settingsFor_fst _ _
  unfold Sight.verdict Sight.reading State.sight judged
  simp only [hsettings, State.disk, State.hasCache, Option.any_none]
  cases ws.disk.readFile path with
  | error failure => rfl
  | ok content =>
      cases Settings.forFile ws.disk path with
      | error fault => rfl
      | ok c =>
          simp only
          cases c.options content with
          | error fault => rfl
          | ok o => cases hformat : formatCompared o content <;> simp [hformat]

theorem judged_not_cached (d : Disk) (path content : Text) : judged d path ≠ .cached content := by
  unfold judged
  intro h
  split at h
  · cases h
  · split at h
    · cases h
    · split at h
      · cases h
      · split at h
        · cases h
        · cases h

/-- A file that is formatted was read, under its options. -/
theorem judged_formatted {d : Disk} {path : Text} {f : Formatted}
    (h : judged d path = .formatted f) :
    ∃ content c o, d.readFile path = .ok content ∧ Settings.forFile d path = .ok c ∧
      c.options content = .ok o ∧ format o content = .ok f.content ∧
      f.changed = (f.content != content) := by
  unfold judged at h
  split at h
  · cases h
  · next content hread =>
      split at h
      · cases h
      · next c hsettings =>
          split at h
          · cases h
          · next o hoptions =>
              split at h
              · cases h
              · next f' hformat =>
                  cases h
                  obtain ⟨hresult, hchanged⟩ := Verdict.format_of_compared hformat
                  exact ⟨content, c, o, hread, hsettings, hoptions, hresult, hchanged⟩

/-- A file is settled exactly if it is formatted without a change. -/
theorem isSettled_iff (d : Disk) (path : Text) :
    IsSettled d path ↔ ∃ f, judged d path = .formatted f ∧ f.changed = false := by
  constructor
  · rintro ⟨content, c, o, hread, hsettings, hoptions, hformat⟩
    refine ⟨{ content, changed := false }, ?_, rfl⟩
    simp [judged, hread, hsettings, hoptions, formatCompared, hformat, bind, Except.bind, pure,
      Except.pure]
  · rintro ⟨f, hjudged, hunchanged⟩
    obtain ⟨content, c, o, hread, hsettings, hoptions, hformat, hchanged⟩ :=
      judged_formatted hjudged
    rw [hunchanged] at hchanged
    have hsame : f.content = content := by simpa using hchanged.symm
    exact ⟨content, c, o, hread, hsettings, hoptions, by rw [hformat, hsame]⟩

/-- **What a run in place leaves in a file** that it formats. -/
theorem readFile_left {d : Disk} {path : Text} {f : Formatted} (h : judged d path = .formatted f) :
    (d.readFile path).map ((judged d path).left .inPlace ·) = .ok f.content := by
  obtain ⟨content, c, o, hread, -, -, -, hchanged⟩ := judged_formatted h
  rw [h, hread]
  by_cases hsame : f.content = content
  · simp [Except.map, Verdict.left, hsame]
  · simp [Except.map, Verdict.left, hchanged, hsame]

/-- A run in place leaves another content exactly in the files that formatting changes. -/
theorem readFile_left_ne_iff {d : Disk} {path : Text} :
    (d.readFile path).map ((judged d path).left .inPlace ·) ≠ d.readFile path ↔
      ∃ f, judged d path = .formatted f ∧ f.changed = true := by
  cases hjudged : judged d path with
  | failed fault => cases d.readFile path <;> simp [Except.map, Verdict.left]
  | cached content => exact absurd hjudged (judged_not_cached d path content)
  | formatted f =>
      obtain ⟨content, c, o, hread, -, -, -, hchanged⟩ := judged_formatted hjudged
      rw [← hjudged, readFile_left hjudged, hread, hjudged]
      simp [hchanged]

/-- What is printed for a file differs from it exactly if formatting changes it. -/
theorem printed_ne_iff {d : Disk} {path : Text} :
    (∃ content printed, d.readFile path = .ok content ∧
        (∃ f, judged d path = .formatted f ∧ f.content = printed) ∧ printed ≠ content) ↔
      ∃ f, judged d path = .formatted f ∧ f.changed = true := by
  constructor
  · rintro ⟨content, printed, hread, ⟨f, hjudged, rfl⟩, hne⟩
    obtain ⟨content', c, o, hread', -, -, -, hchanged⟩ := judged_formatted hjudged
    rw [hread] at hread'
    cases hread'
    exact ⟨f, hjudged, by simp [hchanged, hne]⟩
  · rintro ⟨f, hjudged, hchanges⟩
    obtain ⟨content, c, o, hread, -, -, -, hchanged⟩ := judged_formatted hjudged
    rw [hchanges] at hchanged
    exact ⟨content, f.content, hread, ⟨f, hjudged, rfl⟩, by simpa using hchanged.symm⟩

/-! ## A run in any mode -/

/-- Without a cache only the journal is written to by every task. -/
theorem writes_fresh (ws : Workspace) (place : List Text) :
    State.Writes { workspace := ws } place ↔ ws.sink = .file place := by
  simp [State.Writes]

/-- **A run without a cache**: it reports on what comes of each file, told from the disk
before the run, and changes the files that the verdicts ask for. -/
theorem formatFiles_spec {order : Order} {ws : Workspace} {st : State} {paths files : List Text}
    (hcache : order.cachePath = [])
    (hselect : Selection.select { workspace := ws } paths = (.ok files, st)) (hne : files ≠ [])
    (hseparate : Separate { workspace := ws } files) :
    let outcome := formatFiles order { workspace := ws } paths
    outcome = .ofReport outcome.workspace (.ofVerdicts order.mode order.verbose
        (files.map fun path => (path, judged ws.disk path))) ∧
      ws.disk.Differs (fun p => (∃ path ∈ files, (judged ws.disk path).Rewrites order.mode ∧
        ws.disk.LeadsTo path p) ∨ ws.sink = .file p) outcome.workspace.disk ∧
      ∀ path ∈ files, outcome.workspace.disk.readFile path =
        (ws.disk.readFile path).map fun content =>
          (judged ws.disk path).left order.mode content := by
  intro outcome
  let fresh : State := { workspace := ws }
  have hselected : Moved fresh.Writes (fun _ => False) fresh st := by
    have hmoved : Moved fresh.Writes (fun _ => False) fresh (Selection.select fresh paths).2 :=
      .select hseparate.standing paths
    rwa [hselect] at hmoved
  let begun := st.log .debug (order.summary files.length)
  have hbegun : Moved fresh.Writes (fun _ => False) fresh begun :=
    hselected.and_then (.log (hselected.standing hseparate.standing) _ _)
  have hapart := hseparate.moved hbegun
  obtain ⟨hverdicts, hworked⟩ := worked_ofFiles (Worked.nil order.mode begun) hapart
  have hjudged : ∀ path ∈ files, (begun.sight path).verdict order.mode = judged ws.disk path := by
    intro path hpath
    rw [hbegun.sight hseparate hpath, verdict_fresh]
  let final := (Verdict.ofFiles order.mode begun files).2
  have houtcome : outcome = .ofReport final.workspace (.ofVerdicts order.mode order.verbose
      (files.map fun path => (path, judged ws.disk path))) := by
    have hsame : files.map (fun path => (path, (begun.sight path).verdict order.mode)) =
        files.map fun path => (path, judged ws.disk path) :=
      List.map_congr_left fun path hpath => by rw [hjudged path hpath]
    have hnew : begun.openCache order.cachePath = .ok begun := by simp [State.openCache, hcache]
    simp only [outcome, formatFiles, hselect, List.isEmpty_eq_false_iff.mpr hne,
      Bool.false_eq_true, if_false, begun, hnew, hverdicts, hsame, final]
  have hdisk : ws.disk.Differs (fun p => (∃ path ∈ files,
      (judged ws.disk path).Rewrites order.mode ∧ ws.disk.LeadsTo path p) ∨ ws.sink = .file p)
      final.disk := by
    refine (hbegun.disk.mono fun p hp => .inr ((writes_fresh ws p).mp hp)).trans
      (hworked.moved.disk.mono ?_)
    rintro p (⟨path, hpath, hrewrites, hp⟩ | hp)
    · exact .inl ⟨path, hpath, hjudged path hpath ▸ hrewrites, hbegun.disk.leadsTo_iff.mp hp⟩
    · exact .inr ((writes_fresh ws p).mp ((hbegun.writes_iff p).mp hp))
  rw [houtcome]
  refine ⟨rfl, hdisk, fun path hpath => ?_⟩
  by_cases hfile : ∃ p, ws.disk.LeadsTo path p
  · obtain ⟨p, hp⟩ := hfile
    have hcontent := hworked.contents path hpath p (hbegun.disk.leadsTo_iff.mpr hp)
    rw [hjudged path hpath, hbegun.disk.contentAt (hseparate.own path hpath p hp)] at hcontent
    have hafter := (hdisk.leadsTo_iff.mpr hp).readFile
    rw [hcontent] at hafter
    rw [hp.readFile]
    exact hafter
  · -- a path that leads to no file fails as it did
    have hnone : ∀ p, ¬ws.disk.LeadsTo path p := fun p hp => hfile ⟨p, hp⟩
    have hafter := hdisk.readFile fun p hp => absurd hp (hnone p)
    cases hread : ws.disk.readFile path with
    | error failure => exact hafter.trans hread
    | ok content =>
        obtain ⟨p, hp, -⟩ := Disk.leadsTo_of_readFile hread
        exact absurd hp (hnone p)

/-- **The three modes agree.**  Paths select files that are different and no settings files,
and there is no cache.  Each run prints and complains file by file, in the order of the
files.  The files that a check complains about are those whose content is another after the
run in place, and those for which something else is printed than they hold; what is printed
for a file is what the run in place leaves in it.  A check and a run that prints change no
file, a run in place only those that the check complains about; the journal is left out in
this.  A check succeeds exactly if every file can be read, has options, and is not changed
by formatting under them. -/
theorem formatFiles_modes {order : Order} {ws : Workspace} {st : State} {paths files : List Text}
    (hcache : order.cachePath = [])
    (hselect : Selection.select { workspace := ws } paths = (.ok files, st)) (hne : files ≠ [])
    (hseparate : Separate { workspace := ws } files) :
    let run := fun mode => formatFiles { order with mode } { workspace := ws } paths
    let report := fun mode path =>
      Report.ofVerdict mode order.verbose (files.length ≤ 1) path (judged ws.disk path)
    (∀ mode, (run mode).output = files.flatMap (fun path => (report mode path).output) ∧
      (run mode).errors = files.flatMap fun path => (report mode path).errors) ∧
    (∀ path ∈ files,
      (report .check path = .notFormatted path ↔
        (run .inPlace).workspace.disk.readFile path ≠ ws.disk.readFile path) ∧
      (report .check path = .notFormatted path ↔ ∃ content printed,
        ws.disk.readFile path = .ok content ∧
        report .print path = .printed (files.length ≤ 1) path printed ∧ printed ≠ content) ∧
      ∀ printed, report .print path = .printed (files.length ≤ 1) path printed →
        (run .inPlace).workspace.disk.readFile path = .ok printed) ∧
    (∀ mode, mode ≠ .inPlace →
      ws.disk.Differs (fun p => ws.sink = .file p) (run mode).workspace.disk) ∧
    ws.disk.Differs (fun p => (∃ path ∈ files, report .check path = .notFormatted path ∧
      ws.disk.LeadsTo path p) ∨ ws.sink = .file p) (run .inPlace).workspace.disk ∧
    ((run .check).fault = none ↔ ∀ path ∈ files, IsSettled ws.disk path) := by
  intro run report
  have hrun := fun mode =>
    @formatFiles_spec { order with mode } ws st paths files hcache hselect hne hseparate
  have hreport := fun mode =>
    Report.ofVerdicts_eq mode order.verbose files (judged ws.disk)
  refine ⟨fun mode => ?_, fun path hpath => ⟨?_, ?_, fun printed hprinted => ?_⟩,
    fun mode hmode => ?_, ?_, ?_⟩
  · obtain ⟨houtcome, -, -⟩ := hrun mode
    obtain ⟨houtput, herrors, -, -⟩ := hreport mode
    have hsame : run mode = _ := houtcome
    rw [hsame]
    exact ⟨houtput, herrors⟩
  · obtain ⟨-, -, hleft⟩ := hrun .inPlace
    rw [Report.ofVerdict_check_iff, ← readFile_left_ne_iff]
    exact not_congr (by rw [← hleft path hpath])
  · rw [Report.ofVerdict_check_iff, ← printed_ne_iff]
    simp only [report, Report.ofVerdict_print_iff (judged_not_cached ws.disk path)]
  · obtain ⟨-, -, hleft⟩ := hrun .inPlace
    obtain ⟨f, hjudged, rfl⟩ :=
      (Report.ofVerdict_print_iff (judged_not_cached ws.disk path)).mp hprinted
    exact (hleft path hpath).trans (readFile_left hjudged)
  · obtain ⟨-, hdisk, -⟩ := hrun mode
    refine hdisk.mono ?_
    rintro p (⟨path, -, ⟨hinPlace, -⟩, -⟩ | hp)
    · exact absurd hinPlace hmode
    · exact hp
  · obtain ⟨-, hdisk, -⟩ := hrun .inPlace
    refine hdisk.mono ?_
    rintro p (⟨path, hpath, ⟨-, hchanges⟩, hp⟩ | hp)
    · exact .inl ⟨path, hpath, Report.ofVerdict_check_iff.mpr hchanges, hp⟩
    · exact .inr hp
  · obtain ⟨houtcome, -, -⟩ := hrun .check
    obtain ⟨-, -, hfailed, hunformatted⟩ := hreport .check
    have hsame : run .check = _ := houtcome
    have hclean : ∀ path, (report .check path).failed = 0 ∧ (report .check path).unformatted = 0 ↔
        IsSettled ws.disk path := by
      intro path
      rw [isSettled_iff, Report.ofVerdict_check_clean (judged_not_cached ws.disk path)]
    rw [hsame, fault_ofReport, hfailed, hunformatted]
    constructor
    · rintro ⟨hread, hformatted⟩ path hpath
      exact (hclean path).mp ⟨hread path hpath, hformatted path hpath⟩
    · intro hsettled
      exact ⟨fun path hpath => ((hclean path).mpr (hsettled path hpath)).1,
        fun path hpath => ((hclean path).mpr (hsettled path hpath)).2⟩

/-- A path that names a file of the root selects it. -/
theorem selectFrom_name {st : State} {entries : List (Text × Node)} {files rest : List Text}
    {name content : Text} (hdisk : st.disk = { root := .dir entries })
    (hname : Disk.isName name = true) (hwalk : name.endsWith Selection.walkMark = false)
    (h : entries.lookup name = some (.file content)) :
    Selection.selectFrom State.disk State.isTemplate st files (name :: rest) =
      Selection.selectFrom State.disk State.isTemplate st (Selection.add files name) rest := by
  have hstat : Disk.stat { root := .dir entries } name = .ok (.file content) := by
    rw [Disk.stat, Disk.lookup, Disk.resolve_name hname (by simp [h]), h]
    rfl
  have hexpand : Selection.expand st.disk name = ([.named name], none) := by
    simp [Selection.expand, hwalk, hdisk, hstat, Node.isDir]
  rw [Selection.selectFrom, hexpand]
  rfl

/-- What comes of a file of the root, which has no settings file. -/
theorem judged_name {entries : List (Text × Node)} {name content : Text} (out : Text)
    (h : entries.lookup name = some (.file content))
    (habsent : ∀ name ∈ Settings.fileNames, entries.lookup name = none)
    (hname : Disk.isName name = true) (hdir : Path.dir name = Path.here)
    (hoptions : Settings.options {} content = .ok {}) (hformat : format {} content = .ok out) :
    judged { root := .dir entries } name =
      .formatted { content := out, changed := out != content } := by
  have hsettings : Settings.forFile { root := .dir entries } name = .ok {} := by
    unfold Settings.forFile
    rw [hdir, Disk.find_of_absent habsent]
  have hcompared : formatCompared {} content =
      .ok { content := out, changed := out != content } := by
    rw [formatCompared, hformat]
    rfl
  simp only [judged, Disk.readFile_name hname h, hsettings, hoptions, hcompared]

/-- A file that is not formatted and one that is: the check complains about the first, which
the run in place rewrites. -/
theorem formatFiles_modes_pages :
    let ws : Workspace := { disk := { root := .dir [(text "a.html", .file (text "<p> a </p>")),
      (text "b.html", .file (text "<p>b</p>"))] } }
    let files := [text "a.html", text "b.html"]
    let run := fun mode =>
      formatFiles ⟨text "fmt", mode, false, [], files⟩ { workspace := ws } files
    (run .check).fault ≠ none ∧
      (run .inPlace).workspace.disk.readFile (text "a.html") = .ok (text "<p>a</p>") ∧
      (run .inPlace).workspace.disk.readFile (text "b.html") = .ok (text "<p>b</p>") := by
  let pages := [(text "a.html", Node.file (text "<p> a </p>")),
    (text "b.html", .file (text "<p>b</p>"))]
  intro ws files run
  have ha : pages.lookup (text "a.html") = some (.file (text "<p> a </p>")) := rfl
  have hb : pages.lookup (text "b.html") = some (.file (text "<p>b</p>")) := rfl
  have habsent : ∀ name ∈ Settings.fileNames, pages.lookup name = none := by decide
  have hfirst : layout {} (text "<p> a </p>") = text "<p>a</p>" := by decide +kernel
  have hsecond : layout {} (text "<p>b</p>") = text "<p>b</p>" := by decide +kernel
  have hjudgedA := judged_name (text "<p>a</p>") ha habsent (by decide) (by decide)
    (Settings.options_of_valid (by decide +kernel) (by decide) (by decide))
    (by rw [format_eq_layout (by decide) (by decide) (by decide), hfirst])
  have hjudgedB := judged_name (text "<p>b</p>") hb habsent (by decide) (by decide)
    (Settings.options_of_valid (by decide +kernel) (by decide) (by decide))
    (by rw [format_eq_layout (by decide) (by decide) (by decide), hsecond])
  have hselect : Selection.select { workspace := ws } files = (.ok files, { workspace := ws }) := by
    rw [Selection.select, selectFrom_name rfl (by decide) (by decide) ha,
      selectFrom_name rfl (by decide) (by decide) hb]
    rfl
  have hseparate : Separate { workspace := ws } files := by
    refine separate_names rfl habsent (by decide) ?_ (by decide) ?_ ?_
    · intro name hname
      rcases List.mem_cons.mp hname with rfl | hname
      · exact ⟨_, ha⟩
      · exact ⟨_, List.mem_singleton.mp hname ▸ hb⟩
    · intro name _ hwrites
      cases (writes_fresh ws _).mp hwrites
    · intro p hwrites
      cases (writes_fresh ws p).mp hwrites
  obtain ⟨-, hfiles, -, -, hcheck⟩ :=
    @formatFiles_modes ⟨text "fmt", .inPlace, false, [], files⟩ ws _ files files rfl hselect
      (by simp [files]) hseparate
  refine ⟨fun hnone => ?_, (hfiles _ (by simp [files])).2.2 _ ?_,
    (hfiles _ (by simp [files])).2.2 _ ?_⟩
  · obtain ⟨f, hjudged, hunchanged⟩ :=
      (isSettled_iff _ _).mp (hcheck.mp hnone (text "a.html") (by simp [files]))
    rw [show judged ws.disk (text "a.html") = _ from hjudgedA] at hjudged
    cases hjudged
    cases hunchanged
  · show Report.ofVerdict .print false _ _ (judged ws.disk (text "a.html")) = _
    rw [show judged ws.disk (text "a.html") = _ from hjudgedA]
    rfl
  · show Report.ofVerdict .print false _ _ (judged ws.disk (text "b.html")) = _
    rw [show judged ws.disk (text "b.html") = _ from hjudgedB]
    rfl

end TemplateFormat.Command
