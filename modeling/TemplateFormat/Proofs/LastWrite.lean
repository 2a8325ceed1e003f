import TemplateFormat.Proofs.CacheFile
import TemplateFormat.Proofs.Offsets
import TemplateFormat.Proofs.Shapes

/-!
# A cache is the map of the last writes

A cache is used by operations one after the other: contents are recorded, paths are
forgotten, the cache is closed and opened again from its file.  An operation that fails
changes nothing, so what a cache knows of a path is decided by the last operation on the
path that succeeded.

* `keyText_bytes_inj` — the bytes that are digested determine those of the content, and the
  options;
* `Intact` — a cache with its file after some operations, and `perform?_spec`: what each
  operation makes of it;
* `isFormatted_after` — the answer of a cache after any operations.
-/

namespace TemplateFormat

open Layout Storage

/-! ## The bytes that are digested -/

namespace Text

/-- The glyphs that are written with one byte, but for NUL. -/
def isPlain : Glyph → Bool
  | .char c => 0 < c.toNat && c.toNat ≤ 127
  | .stray _ => false

/-- The byte of a plain glyph. -/
theorem bytes_of_isPlain {r : Glyph} (h : isPlain r = true) :
    ∃ c : Char, r = .char c ∧ 0 < c.toNat ∧ c.toNat ≤ 127 ∧ r.bytes = [UInt8.ofNat c.toNat] := by
  cases r with
  | stray b => cases h
  | char c =>
      simp only [isPlain, Bool.and_eq_true, decide_eq_true_eq] at h
      exact ⟨c, rfl, h.1, h.2, if_pos h.2⟩

/-- No plain glyph is written with a zero. -/
theorem zero_notMem_encode {s : Text} (h : ∀ r ∈ s, isPlain r = true) : 0 ∉ s.encode := by
  intro hzero
  obtain ⟨r, hr, hbyte⟩ := List.mem_flatMap.mp hzero
  obtain ⟨c, -, hpos, hle, hbytes⟩ := bytes_of_isPlain (h r hr)
  rw [hbytes, List.mem_singleton] at hbyte
  have hnat := congrArg UInt8.toNat hbyte
  simp only [UInt8.toNat_ofNat, UInt8.toNat_ofNat'] at hnat
  omega

/-- **The bytes of plain glyphs determine them.** -/
theorem encode_inj_of_isPlain {s t : Text} (hs : ∀ r ∈ s, isPlain r = true)
    (ht : ∀ r ∈ t, isPlain r = true) (h : s.encode = t.encode) : s = t := by
  induction s generalizing t with
  | nil =>
      cases t with
      | nil => rfl
      | cons r t =>
          obtain ⟨c, -, -, -, hbytes⟩ := bytes_of_isPlain (ht r List.mem_cons_self)
          simp [encode, hbytes] at h
  | cons r s ih =>
      obtain ⟨c, rfl, -, hle, hbytes⟩ := bytes_of_isPlain (hs r List.mem_cons_self)
      cases t with
      | nil => simp [encode, hbytes] at h
      | cons r' t =>
          obtain ⟨c', rfl, -, hle', hbytes'⟩ := bytes_of_isPlain (ht r' List.mem_cons_self)
          simp only [encode, List.flatMap_cons, hbytes, hbytes', List.singleton_append,
            List.cons.injEq] at h
          have hnat := congrArg UInt8.toNat h.1
          rw [UInt8.toNat_ofNat', UInt8.toNat_ofNat'] at hnat
          have hchar : c = c' := Char.ext (UInt32.toNat_inj.mp (by
            show c.toNat = c'.toNat
            omega))
          rw [hchar, ih (fun r hr => hs r (List.mem_cons_of_mem _ hr))
            (fun r hr => ht r (List.mem_cons_of_mem _ hr)) h.2]

/-- Numerals are plain. -/
theorem isPlain_of_mem_ofInt {n : Int} {r : Glyph} (h : r ∈ ofInt n) : isPlain r = true := by
  have hnumeral := isNumeral_of_mem_ofInt h
  rw [isNumeral, Bool.or_eq_true, decide_eq_true_eq] at hnumeral
  rcases hnumeral with hdigit | rfl
  · cases r with
    | stray b => cases hdigit
    | char c =>
        have hrange : 48 ≤ c.toNat ∧ c.toNat ≤ 57 := by
          simpa [Glyph.isDigit, Char.isDigit, UInt32.le_iff_toNat_le] using hdigit
        simp only [isPlain, Bool.and_eq_true, decide_eq_true_eq]
        omega
  · decide

end Text

namespace Cache

open Text

/-- Options are digested as plain glyphs. -/
theorem isPlain_of_mem_optionsText {o : Options} {r : Glyph} (h : r ∈ optionsText o) :
    isPlain r = true := by
  have htruth : ∀ b, ∀ r ∈ truth b, isPlain r = true := by decide
  simp only [optionsText, List.mem_append] at h
  rcases h with h | h | h | h | h
  · exact isPlain_of_mem_ofInt h
  · exact htruth _ r h
  · exact htruth _ r h
  · exact htruth _ r h
  · exact isPlain_of_mem_ofInt h

/-- The bytes that are digested: those of the content, a zero, and those of the options. -/
theorem encode_keyText (content : Text) (o : Options) :
    (keyText content o).encode = content.encode ++ 0 :: (optionsText o).encode := by
  rw [keyText_eq, encode_append]
  rfl

/-- **The bytes that are digested determine those of the content, and the options**, whatever
bytes the content ends in. -/
theorem keyText_bytes_inj {content content' : Text} {o o' : Options}
    (h : (keyText content o).encode = (keyText content' o').encode) :
    content.encode = content'.encode ∧ o = o' := by
  rw [encode_keyText, encode_keyText] at h
  obtain ⟨hcontent, hoptions⟩ := cons_append_inj
    (zero_notMem_encode fun _ => isPlain_of_mem_optionsText)
    (zero_notMem_encode fun _ => isPlain_of_mem_optionsText) h
  refine ⟨hcontent, optionsText_inj ?_⟩
  exact encode_inj_of_isPlain (fun _ => isPlain_of_mem_optionsText)
    (fun _ => isPlain_of_mem_optionsText) hoptions

/-! ## Operations -/

/-- An operation on a cache. -/
inductive Operation where
  | record (path content : Text) (o : Options)
  | forget (path : Text)
  | close
  | reopen
deriving DecidableEq, Repr

/-- The path that an operation is about. -/
def Operation.path? : Operation → Option Text
  | .record path _ _ => some path
  | .forget path => some path
  | _ => none

/-- The key that an operation leaves for its path. -/
def Operation.key? : Operation → Option Text
  | .record _ content o => some (key content o)
  | _ => none

/-- The last operation on a path; the operations are listed from the last one to the first. -/
def lastWrite (past : List Operation) (path : Text) : Option Operation :=
  past.find? (·.path? = some path)

/-- The last operation on every path, after one more. -/
theorem lastWrite_cons (op : Operation) (past : List Operation) (path : Text) :
    lastWrite (op :: past) path =
      if op.path? = some path then some op else lastWrite past path := by
  unfold lastWrite
  by_cases hpath : op.path? = some path
  · simp [hpath]
  · simp [hpath]

/-- A cache with its disk, and the operations that succeeded so far, the last one first. -/
structure Stored where
  cache : Cache
  disk : Disk
  past : List Operation := []

namespace Stored

/-- What an operation makes of the cache and its disk; nothing if it fails.  An open cache
holds its file, so it is not opened once more. -/
def result? (cachePath : Text) (s : Stored) : Operation → Option (Cache × Disk)
  | .record path content o => (s.cache.record s.disk path content o).toOption
  | .forget path => (s.cache.forget s.disk path).toOption
  | .close => some (s.cache.close, s.disk)
  | .reopen => if s.cache.isOpen then none else (openAt s.disk cachePath).toOption

/-- What an operation leaves behind; nothing if it fails. -/
def perform? (cachePath : Text) (s : Stored) (op : Operation) : Option Stored :=
  (s.result? cachePath op).map fun (cache, disk) => { cache, disk, past := op :: s.past }

/-- What operations leave behind, one after the other; one that fails changes nothing. -/
def after (cachePath : Text) (s : Stored) (ops : List Operation) : Stored :=
  ops.foldl (fun s op => (s.perform? cachePath op).getD s) s

/-- When an operation succeeds. -/
def Allows (s : Stored) : Operation → Prop
  | .record path _ _ => s.cache.isOpen = true ∧ path ≠ [] ∧ path.width ≤ pathLimit
  | .forget _ => s.cache.isOpen = true
  | .close => True
  | .reopen => s.cache.isOpen = false

/-- An operation that is not allowed fails. -/
theorem perform?_of_not_allows {cachePath : Text} {s : Stored} {op : Operation}
    (h : ¬s.Allows op) : s.perform? cachePath op = none := by
  rw [perform?, Option.map_eq_none_iff]
  cases op with
  | record path content o =>
      rw [result?, Cache.record]
      split
      · rfl
      · next hopen =>
          split
          · rfl
          · next hpath =>
              split
              · rfl
              · next hwidth =>
                  exact absurd ⟨by simpa using hopen, by simpa using hpath, by omega⟩ h
  | forget path =>
      have hclosed : s.cache.isOpen = false := by simpa [Allows] using h
      rw [result?, Cache.forget, hclosed]
      rfl
  | close => exact absurd trivial h
  | reopen =>
      have hopen : s.cache.isOpen = true := by simpa [Allows] using h
      rw [result?, hopen]
      rfl

/-- **A cache with its file**: the path of the cache leads to the file, the entries are
written there, and each is the key that the last operation on its path left. -/
structure Intact (cachePath : Text) (s : Stored) : Prop where
  leads : s.disk.LeadsTo cachePath s.cache.place
  file : s.disk.Holds s.cache.place (toText s.cache.entries)
  keys : ∀ e ∈ s.cache.entries, .char ' ' ∉ e.2 ∧ .char '\n' ∉ e.2
  entries : ∀ path, s.cache.entries.lookup path = (lastWrite s.past path).bind Operation.key?

namespace Intact

variable {cachePath : Text} {s : Stored}

/-- Entries that are written to the file, as an operation asks for. -/
theorem written (h : Intact cachePath s) (op : Operation) (isOpen : Bool) (entries : Entries)
    (hkeys : ∀ e ∈ entries, .char ' ' ∉ e.2 ∧ .char '\n' ∉ e.2)
    (hlast : ∀ path, entries.lookup path = (lastWrite (op :: s.past) path).bind Operation.key?) :
    Intact cachePath
      { cache := { place := s.cache.place, entries, isOpen }
        disk := s.disk.put s.cache.place (.file (toText entries))
        past := op :: s.past } where
  leads := (Disk.Differs.put h.file _).leadsTo_iff.mpr h.leads
  file := h.file.put_self _
  keys := hkeys
  entries := hlast

/-- The entries without a path. -/
theorem keys_without (h : Intact cachePath s) (path : Text) :
    ∀ e ∈ without s.cache.entries path, .char ' ' ∉ e.2 ∧ .char '\n' ∉ e.2 :=
  fun e he => h.keys e (List.mem_filter.mp he).1

/-- An operation that is about no path keeps the last operation on each. -/
theorem lastWrite_of_none (h : Intact cachePath s) {op : Operation} (hop : op.path? = none)
    (path : Text) :
    s.cache.entries.lookup path = (lastWrite (op :: s.past) path).bind Operation.key? := by
  rw [lastWrite_cons, if_neg (by simp [hop]), h.entries]

/-- A cache is opened from its file. -/
theorem openAt_eq (h : Intact cachePath s) :
    openAt s.disk cachePath = .ok ({ place := s.cache.place, entries := s.cache.entries },
      s.disk.put s.cache.place (.file (toText s.cache.entries))) := by
  obtain ⟨content, hresolve⟩ := h.leads
  simp [openAt, Disk.openFile, hresolve, h.file.contentAt, ofText?_toText h.keys]

/-- **What an operation makes of a cache** that allows it: the cache and its file are in
order again. -/
theorem perform? (h : Intact cachePath s) {op : Operation} (hallows : s.Allows op) :
    ∃ s', s.perform? cachePath op = some s' ∧ Intact cachePath s' ∧ s'.past = op :: s.past ∧
      s'.cache.isOpen = decide (op ≠ .close) := by
  cases op with
  | record path content o =>
      obtain ⟨hopen, hpath, hwidth⟩ := hallows
      let entries := (path, key content o) :: without s.cache.entries path
      have hkeys : ∀ e ∈ entries, .char ' ' ∉ e.2 ∧ .char '\n' ∉ e.2 := by
        intro e he
        rcases List.mem_cons.mp he with rfl | he
        · exact ⟨fun hr => (mem_key hr).1 rfl, fun hr => (mem_key hr).2 rfl⟩
        · exact h.keys_without path e he
      have hlast : ∀ k, entries.lookup k =
          (lastWrite (.record path content o :: s.past) k).bind Operation.key? := by
        intro k
        simp only [entries]
        rw [lastWrite_cons, without, lookup_set, h.entries]
        by_cases hk : k = path
        · simp [hk, Operation.path?, Operation.key?]
        · simp [hk, Ne.symm hk, Operation.path?]
      refine ⟨_, ?_, h.written (.record path content o) true entries hkeys hlast, rfl, rfl⟩
      simp [Stored.perform?, result?, Cache.record, hopen, hpath, Nat.not_lt.mpr hwidth,
        Cache.setEntries, Except.toOption, entries]
  | forget path =>
      have hopen : s.cache.isOpen = true := hallows
      have hlast : ∀ k, (without s.cache.entries path).lookup k =
          (lastWrite (.forget path :: s.past) k).bind Operation.key? := by
        intro k
        rw [lastWrite_cons, without, lookup_without, h.entries]
        by_cases hk : k = path
        · simp [hk, Operation.path?, Operation.key?]
        · simp [hk, Ne.symm hk, Operation.path?]
      refine ⟨_, ?_, h.written (.forget path) true _ (h.keys_without path) hlast, rfl, rfl⟩
      simp [Stored.perform?, result?, Cache.forget, hopen, Cache.setEntries, Except.toOption]
  | close => exact ⟨_, rfl, ⟨h.leads, h.file, h.keys, h.lastWrite_of_none rfl⟩, rfl, rfl⟩
  | reopen =>
      have hclosed : s.cache.isOpen = false := hallows
      refine ⟨_, ?_, h.written .reopen true _ h.keys (h.lastWrite_of_none rfl), rfl, rfl⟩
      simp [Stored.perform?, result?, hclosed, h.openAt_eq, Except.toOption]

/-- **Every sequence of operations** leaves a cache and its file in order. -/
theorem after (h : Intact cachePath s) (ops : List Operation) :
    Intact cachePath (s.after cachePath ops) := by
  induction ops generalizing s with
  | nil => exact h
  | cons op ops ih =>
      rw [Stored.after, List.foldl_cons]
      apply ih
      by_cases hallows : s.Allows op
      · obtain ⟨s', hperform, hintact, -, -⟩ := h.perform? hallows
        rw [hperform]
        exact hintact
      · rw [perform?_of_not_allows hallows]
        exact h

end Intact

/-- A new cache is in order. -/
theorem intact_of_openAt {d d' : Disk} {c : Cache} {cachePath : Text}
    (h : openAt d cachePath = .ok (c, d')) (hempty : c.entries = []) :
    Intact cachePath { cache := c, disk := d' } := by
  unfold openAt at h
  cases hopen : d.openFile cachePath with
  | error failure => simp [hopen] at h
  | ok opened =>
      obtain ⟨place, disk⟩ := opened
      cases hread : ofText? (disk.contentAt place) with
      | none => simp [hopen, hread] at h
      | some entries =>
          simp only [hopen, hread, Except.ok.injEq, Prod.mk.injEq] at h
          obtain ⟨rfl, rfl⟩ := h
          obtain rfl : entries = [] := hempty
          obtain ⟨content, hfile⟩ := (Disk.openFile_spec hopen).1
          have hleads := Disk.leadsTo_of_openFile hopen
          exact ⟨(Disk.Differs.put hfile _).leadsTo_iff.mpr hleads, hfile.put_self _,
            by simp, by simp [lastWrite]⟩

/-- One more operation. -/
theorem after_append (cachePath : Text) (s : Stored) (ops : List Operation) (op : Operation) :
    s.after cachePath (ops ++ [op]) =
      ((s.after cachePath ops).perform? cachePath op).getD (s.after cachePath ops) := by
  simp [after]

end Stored

open Stored

/-- **A cache is exactly the map of the last writes.**  The bytes that are digested for a
content under options determine the bytes of the content, and the options.  After any
operations on a new cache, one that is allowed succeeds, and any other changes nothing; and
while the cache is open, it finds a content formatted under options exactly if the last
operation on the path that succeeded has recorded these bytes under the same options, as
long as the digests of what was recorded for the path tell the digested bytes apart. -/
theorem isFormatted_after {d d' : Disk} {c : Cache} {cachePath : Text}
    (hopened : openAt d cachePath = .ok (c, d')) (hempty : c.entries = []) :
    (∀ content content' : Text, ∀ o o' : Options,
      (keyText content o).encode = (keyText content' o').encode →
        content.encode = content'.encode ∧ o = o') ∧
    ∀ ops : List Operation,
      let start : Stored := { cache := c, disk := d' }
      let s := start.after cachePath ops
      (∀ op, s.Allows op → (start.after cachePath (ops ++ [op])).past = op :: s.past ∧
        (start.after cachePath (ops ++ [op])).cache.isOpen = decide (op ≠ .close)) ∧
      (∀ op, ¬s.Allows op → s.perform? cachePath op = none ∧
        start.after cachePath (ops ++ [op]) = s) ∧
      ∀ path content : Text, ∀ o : Options, s.cache.isOpen = true →
        (∀ content' o', .record path content' o' ∈ s.past →
          Digest.sha256Hex (keyText content' o').encode =
            Digest.sha256Hex (keyText content o).encode →
          (keyText content' o').encode = (keyText content o).encode) →
        ∃ known, s.cache.isFormatted path content o = .ok known ∧
          (known = true ↔ ∃ content', lastWrite s.past path = some (.record path content' o) ∧
            content'.encode = content.encode) := by
  refine ⟨fun _ _ _ _ => keyText_bytes_inj, fun ops => ?_⟩
  intro start s
  have hintact : Intact cachePath s := (intact_of_openAt hopened hempty).after ops
  refine ⟨fun op hallows => ?_, fun op hrefused => ?_, fun path content o hopen hdigest => ?_⟩
  · obtain ⟨s', hperform, -, hpast, hopen⟩ := hintact.perform? hallows
    rw [after_append, hperform]
    exact ⟨hpast, hopen⟩
  · have hfails : s.perform? cachePath op = none := perform?_of_not_allows hrefused
    rw [after_append, hfails]
    exact ⟨rfl, rfl⟩
  · refine ⟨_, by rw [isFormatted, hopen, if_pos rfl], ?_⟩
    rw [beq_iff_eq, hintact.entries, Option.bind_eq_some_iff]
    constructor
    · rintro ⟨op, hlast, hkey⟩
      have hpath : op.path? = some path := by simpa using List.find?_some hlast
      cases op with
      | record path' content' o' =>
          obtain rfl : path' = path := Option.some.inj hpath
          obtain ⟨hcontent, rfl⟩ := keyText_bytes_inj
            (hdigest content' o' (List.mem_of_find?_eq_some hlast) (Option.some.inj hkey))
          exact ⟨content', hlast, hcontent⟩
      | forget path' => cases hkey
      | close => cases hkey
      | reopen => cases hkey
    · rintro ⟨content', hlast, hcontent⟩
      refine ⟨_, hlast, ?_⟩
      rw [Operation.key?, key, key, encode_keyText, encode_keyText, hcontent]

/-- A content that ends in a NUL is recorded, the cache is closed, which makes forgetting
fail, and opened again: the content is known. -/
theorem isFormatted_after_reopen :
    ∃ c d', openAt {} (text "c.db") = .ok (c, d') ∧
      let s := Stored.after (text "c.db") { cache := c, disk := d' }
        [.record (text "a.html") (text "x\x00") {}, .close, .forget (text "a.html"), .reopen]
      s.cache.isFormatted (text "a.html") (text "x\x00") {} = .ok true := by
  let recorded : Operation := .record (text "a.html") (text "x\x00") {}
  let forgotten : Operation := .forget (text "a.html")
  have hfile : Disk.openFile {} (text "c.db") =
      .ok ([text "c.db"], { root := .dir [(text "c.db", .file [])] }) :=
    Disk.openFile_new (by decide) rfl
  have hopened : openAt {} (text "c.db") = .ok ({ place := [text "c.db"], entries := [] },
      { root := .dir [(text "c.db", .file (toText []))] }) := by
    rw [openAt, hfile]
    rfl
  refine ⟨_, _, hopened, ?_⟩
  intro s
  obtain ⟨-, hruns⟩ := isFormatted_after hopened rfl
  obtain ⟨hpast₁, -⟩ := (hruns []).1 recorded ⟨rfl, by decide, by decide⟩
  obtain ⟨hpast₂, hclosed⟩ := (hruns [recorded]).1 .close trivial
  have hrefused := (hruns [recorded, .close]).2.1 forgotten fun hopen =>
    absurd (hclosed.symm.trans hopen) (by decide)
  have hkept : Stored.after (text "c.db") _ [recorded, .close, forgotten] = _ := hrefused.2
  obtain ⟨hpast₃, hopen⟩ := (hruns [recorded, .close, forgotten]).1 .reopen (by
    rw [hkept]
    exact hclosed)
  have hpast : s.past = [.reopen, .close, recorded] := by
    rw [hkept] at hpast₃
    exact hpast₃.trans (congrArg _ (hpast₂.trans (congrArg _ hpast₁)))
  obtain ⟨known, hformatted, hiff⟩ := (hruns [recorded, .close, forgotten, .reopen]).2.2
    (text "a.html") (text "x\x00") {} hopen (by
      intro content' o' hmem _
      have hsame : .record (text "a.html") content' o' ∈ [.reopen, .close, recorded] := hpast ▸ hmem
      simp only [List.mem_cons, reduceCtorEq, List.not_mem_nil, or_false, false_or] at hsame
      obtain ⟨-, rfl, rfl⟩ := Operation.record.inj hsame
      rfl)
  rw [hformatted, hiff.mpr ⟨text "x\x00", by rw [hpast]; rfl, rfl⟩]

end Cache

end TemplateFormat
