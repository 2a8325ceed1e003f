import Mathlib
import TemplateFormat.Proofs.Ancestors
import TemplateFormat.Settings.Basic
import TemplateFormat.Text.Lowercase

/-!
# Which files count as templates

A file is a template if the extension of its path, in lower case, is one of the
extensions of the settings.  Two rules for extensions meet here.  The
extension of a path starts at its last dot, but an extension of the settings
is taken as it is written and may hold more dots, as `.ng.html` does.  Such an
extension is the extension of no path, so that the files which carry it are
templates only if what stands behind its last dot is an extension of the
settings too.

* `lower_eq_iff` — nothing but a dot has a dot for its lower case;
* `isTemplate_iff` — the extensions that count are those with a single dot;
* `carriers_iff` — the settings for which every file that carries an extension
  is a template;
* `isTemplate_extensions` — both.
-/

namespace TemplateFormat

open Text

/-! ## Lower case -/

/-- Lower case outside ASCII starts behind the capital letters of ASCII. -/
theorem Glyph.le_lowerCode {n : Nat} (hn : 65 ≤ n) : 65 ≤ lowerCode n := by
  have hruns : ∀ run ∈ caseRuns, 65 ≤ (run.first : Int) + run.shift := by decide +kernel
  rw [lowerCode]
  split
  · next run hfind =>
      have hrun := hruns run (List.mem_of_find?_eq_some hfind)
      have hholds := List.find?_some hfind
      simp only [CaseRun.holds, Bool.and_eq_true, decide_eq_true_eq] at hholds
      omega
  · exact hn

/-- **A character before the letters** is the lower case of itself only. -/
theorem Glyph.lower_eq_iff {r : Glyph} {c : Char} (hpos : 0 < c.toNat) (hc : c.toNat < 65) :
    r.lower = .char c ↔ r = .char c := by
  cases r with
  | stray b =>
      rw [lower, replacement, Glyph.char.injEq]
      constructor
      · rintro rfl
        exact absurd hc (by decide)
      · intro h
        cases h
  | char d =>
      rw [lower, Glyph.char.injEq]
      split
      · next hascii =>
          have hcodes : ∀ n < 128, (Char.ofNat n).toNat < 65 ∨ (Char.ofNat n).toLower.toNat < 65 →
              (Char.ofNat n).toLower = Char.ofNat n := by decide +kernel
          have hsame := hcodes d.toNat hascii
          rw [Char.ofNat_toNat] at hsame
          rw [Glyph.char.injEq]
          constructor
          · intro h
            rw [← hsame (.inr (h ▸ hc)), h]
          · rintro rfl
            exact hsame (.inl hc)
      · next hascii =>
          have hcode : 65 ≤ lowerCode d.toNat := le_lowerCode (by omega)
          refine iff_of_false ?_ ?_
          · rw [Glyph.char.injEq]
            rintro rfl
            rw [Char.toNat_ofNat] at hpos hc
            split at hpos
            · next hvalid =>
                rw [if_pos hvalid] at hc
                omega
            · exact absurd hpos (Nat.lt_irrefl 0)
          · intro h
            rw [h] at hascii
            omega

/-- A character before the letters stands in a text exactly if it stands in the text in
lower case. -/
theorem Text.mem_lower_iff {s : Text} {c : Char} (hpos : 0 < c.toNat) (hc : c.toNat < 65) :
    .char c ∈ s.lower ↔ .char c ∈ s := by
  rw [lower, List.mem_map]
  constructor
  · rintro ⟨r, hr, hlower⟩
    rwa [(Glyph.lower_eq_iff hpos hc).mp hlower] at hr
  · intro h
    exact ⟨.char c, h, (Glyph.lower_eq_iff hpos hc).mpr rfl⟩

/-- Whether a text holds ASCII characters only. -/
def Text.IsAscii (s : Text) : Prop := ∀ r ∈ s, r.code < 128

instance (s : Text) : Decidable s.IsAscii := inferInstanceAs (Decidable (∀ r ∈ s, r.code < 128))

/-- The lower case of an ASCII character is its own lower case, and ASCII. -/
theorem Glyph.lower_of_ascii {r : Glyph} (h : r.code < 128) :
    r.lower.lower = r.lower ∧ r.lower.code < 128 := by
  have hcodes : ∀ n < 128, (char (Char.ofNat n)).lower.lower = (char (Char.ofNat n)).lower ∧
      (char (Char.ofNat n)).lower.code < 128 := by decide +kernel
  cases r with
  | stray b =>
      have hcode : (stray b).code = 0xFFFD := rfl
      omega
  | char d =>
      have hd := hcodes d.toNat h
      rwa [Char.ofNat_toNat] at hd

/-- A text whose glyphs are their own lower case is its own lower case. -/
theorem Text.lower_eq_self {s : Text} (h : ∀ r ∈ s, r.lower = r) : s.lower = s := by
  rw [lower, List.map_congr_left h]
  exact List.map_id s

/-! ## Extensions of paths -/

/-- A glyph of a text has a last place in it. -/
theorem Text.exists_last_of_mem {sep : Glyph} {s : Text} (h : sep ∈ s) :
    ∃ a b, s = a ++ sep :: b ∧ sep ∉ b := by
  obtain ⟨b, a, hsplit, hb⟩ := List.eq_append_cons_of_mem (List.mem_reverse.mpr h)
  refine ⟨a.reverse, b.reverse, ?_, by simpa using hb⟩
  simpa using congrArg List.reverse hsplit

/-- A glyph that does not occur cuts nothing off. -/
theorem Text.cutLast?_of_notMem {sep : Glyph} {s : Text} (h : sep ∉ s) :
    s.cutLast? sep = none := by
  have hall : s.reverse.dropWhile (· != sep) = [] := by
    rw [List.dropWhile_eq_nil_iff]
    intro r hr
    rw [bne_iff_ne]
    rintro rfl
    exact h (List.mem_reverse.mp hr)
  rw [cutLast?, hall]

namespace Storage.Path

/-- The last component of a path, slashes at its end left out. -/
def lastName (path : Text) : Text := base (path.trimEnd (· = .char '/'))

/-- The last component of a path holds no slash. -/
theorem slash_notMem_base (path : Text) : .char '/' ∉ base path := by
  by_cases h : .char '/' ∈ path
  · obtain ⟨a, b, rfl, hb⟩ := exists_last_of_mem h
    rwa [base, cutLast?_append _ _ hb]
  · rwa [base, cutLast?_of_notMem h]

/-- A path without slashes is its last component. -/
theorem base_of_notMem {path : Text} (h : .char '/' ∉ path) : base path = path := by
  rw [base, cutLast?_of_notMem h]

/-- Nothing stands behind a slash at the end. -/
theorem base_of_endsWith {path : Text} (h : path.endsWith (text "/") = true) :
    base path = [] := by
  obtain ⟨front, rfl⟩ := List.isSuffixOf_iff_suffix.mp h
  have hcut := cutLast?_append (.char '/') front (b := []) List.not_mem_nil
  rw [base, show front ++ text "/" = front ++ [.char '/'] from rfl, hcut]

/-- Without a slash at the end, the last component stands behind the last slash. -/
theorem lastName_eq {path : Text} (h : path.endsWith (text "/") = false) :
    lastName path = base path := by
  rcases List.eq_nil_or_concat path with rfl | ⟨front, r, rfl⟩
  · rfl
  · rw [List.concat_eq_append] at h ⊢
    have hr : r ≠ .char '/' := by
      rintro rfl
      have hend : endsWith (front ++ [.char '/']) (text "/") = true :=
        List.isSuffixOf_iff_suffix.mpr ⟨front, rfl⟩
      exact absurd hend (by simp [h])
    rw [lastName, trimEnd, List.reverse_append, List.reverse_singleton, List.singleton_append,
      List.dropWhile_cons, if_neg (by simpa using hr)]
    simp

/-- The last component of a path holds no slash, however it is told. -/
theorem slash_notMem_lastName (path : Text) : .char '/' ∉ lastName path :=
  slash_notMem_base _

/-- **The extension of a path** starts at the last dot of its last component. -/
theorem extension_of_base {path a b : Text} (h : base path = a ++ .char '.' :: b)
    (hb : .char '.' ∉ b) : extension path = .char '.' :: b := by
  rw [extension, h, cutLast?_append _ _ hb]

/-- Without a dot there is no extension. -/
theorem extension_of_notMem {path : Text} (h : .char '.' ∉ base path) : extension path = [] := by
  rw [extension, cutLast?_of_notMem h]

end Storage.Path

/-! ## Templates -/

namespace Settings

open Storage

/-- Every extension of template files starts with a dot. -/
theorem dot_of_mem_templateExtensions {c : Settings} {e : Text} (h : e ∈ c.templateExtensions) :
    ∃ t, e = .char '.' :: t := by
  have hdot : Glyph.lower (.char '.') = .char '.' := rfl
  have hnormal : ∀ ext : Text, ∃ t, normalExtension ext = .char '.' :: t := by
    intro ext
    rw [normalExtension]
    split
    · next hstart =>
        obtain ⟨t, rfl⟩ := List.isPrefixOf_iff_prefix.mp hstart
        exact ⟨lower t, rfl⟩
    · exact ⟨lower ext, by rw [Text.lower, List.map_cons, hdot]; rfl⟩
  rw [templateExtensions] at h
  split at h
  · obtain rfl := List.mem_singleton.mp h
    exact ⟨text "html", rfl⟩
  · obtain rfl := List.mem_singleton.mp h
    exact ⟨text "html", rfl⟩
  · obtain ⟨ext, -, rfl⟩ := List.mem_map.mp h
    exact hnormal ext

/-- **A path is that of a template** exactly if it does not end in a slash and its last
component ends, in lower case, in an extension with a single dot. -/
theorem isTemplate_iff (c : Settings) (path : Text) :
    c.isTemplate path = true ↔
      path.endsWith (text "/") = false ∧
        ∃ e ∈ c.templateExtensions, .char '.' ∉ e.tail ∧ e <:+ (Path.lastName path).lower := by
  rw [isTemplate, List.contains_iff_mem]
  constructor
  · intro hmem
    obtain ⟨t, ht⟩ := dot_of_mem_templateExtensions hmem
    have hdot : .char '.' ∈ Path.base path := by
      by_contra hdot
      rw [Path.extension_of_notMem hdot] at ht
      cases ht
    obtain ⟨a, b, hbase, hb⟩ := exists_last_of_mem hdot
    have hslash : path.endsWith (text "/") = false := by
      by_contra hslash
      rw [Path.base_of_endsWith (by simpa using hslash)] at hdot
      cases hdot
    rw [Path.extension_of_base hbase hb] at hmem
    refine ⟨hslash, _, hmem, ?_, ?_⟩
    · show Glyph.char '.' ∉ lower b
      rwa [mem_lower_iff (by decide) (by decide)]
    · rw [Path.lastName_eq hslash, hbase, Text.lower, Text.lower, List.map_append]
      exact List.suffix_append _ _
  · rintro ⟨hslash, e, he, hsingle, hend⟩
    obtain ⟨t, rfl⟩ := dot_of_mem_templateExtensions he
    obtain ⟨u, hu⟩ := hend
    rw [Path.lastName_eq hslash] at hu
    obtain ⟨a, tail, hbase, -, htail⟩ := List.map_eq_append_iff.mp hu.symm
    obtain ⟨r, b, rfl, hr, hb⟩ := List.map_eq_cons_iff.mp htail
    obtain rfl := (Glyph.lower_eq_iff (by decide) (by decide)).mp hr
    have hdot : .char '.' ∉ b := by
      rw [← mem_lower_iff (c := '.') (by decide) (by decide), Text.lower, hb]
      exact hsingle
    rw [Path.extension_of_base hbase hdot, Text.lower, htail]
    exact he

/-- Whether the last component of a path is longer than an extension and ends in it, in lower
case. -/
def Carries (path ext : Text) : Prop :=
  ext.length < (Path.lastName path).length ∧ ext <:+ (Path.lastName path).lower

/-- The extensions of settings in ASCII are ASCII and in lower case. -/
theorem lower_of_mem_templateExtensions {c : Settings}
    (hascii : ∀ ext ∈ c.extensions.getD [], IsAscii ext) {e : Text}
    (h : e ∈ c.templateExtensions) : ∀ r ∈ e, r.lower = r ∧ r.code < 128 := by
  have hdefault : ∀ r ∈ text ".html", r.lower = r ∧ r.code < 128 := by decide
  rw [templateExtensions] at h
  split at h
  · rwa [List.mem_singleton.mp h]
  · rwa [List.mem_singleton.mp h]
  · next exts hexts hne =>
      obtain ⟨ext, hext, rfl⟩ := List.mem_map.mp h
      have hwhole : ∀ r ∈ ext, r.code < 128 := hascii ext (by rwa [hne])
      have hdotted : ∀ r ∈ (if ext.startsWith (text ".") then ext else .char '.' :: ext),
          r.code < 128 := by
        intro r hr
        split at hr
        · exact hwhole r hr
        · rcases List.mem_cons.mp hr with rfl | hr
          · decide
          · exact hwhole r hr
      intro r hr
      obtain ⟨a, ha, rfl⟩ := List.mem_map.mp hr
      exact Glyph.lower_of_ascii (hdotted a ha)

/-- The extension of a path that ends in an extension without slashes. -/
theorem extension_append {front e : Text} (hfront : .char '/' ∉ front) (he : .char '/' ∉ e)
    (hdot : .char '.' ∈ e) : Path.extension (front ++ e) = Path.extension e := by
  obtain ⟨a, b, rfl, hb⟩ := exists_last_of_mem hdot
  have hwhole : .char '/' ∉ front ++ (a ++ .char '.' :: b) := by
    rw [List.mem_append, not_or]
    exact ⟨hfront, he⟩
  rw [Path.extension_of_base (Path.base_of_notMem he) hb]
  refine Path.extension_of_base (a := front ++ a) ?_ hb
  rw [Path.base_of_notMem hwhole, List.append_assoc]

/-- **All files that carry an extension of the settings are templates** exactly if for each of
the extensions, the part from its last dot on is one of them too. -/
theorem carriers_iff {c : Settings} (hascii : ∀ ext ∈ c.extensions.getD [], IsAscii ext) :
    (∀ path, path.endsWith (text "/") = false → IsAscii (Path.lastName path) →
        ∀ e ∈ c.templateExtensions, Carries path e → c.isTemplate path = true) ↔
      ∀ e ∈ c.templateExtensions, .char '/' ∉ e → Path.extension e ∈ c.templateExtensions := by
  constructor
  · intro hcarriers e he hslash
    have hlower := lower_of_mem_templateExtensions hascii he
    obtain ⟨t, ht⟩ := dot_of_mem_templateExtensions he
    have hdot : .char '.' ∈ e := by
      rw [ht]
      exact List.mem_cons_self
    -- the file `a.ext` carries the extension `.ext`
    have hpath : .char '/' ∉ Glyph.char 'a' :: e := by
      rw [List.mem_cons, not_or]
      exact ⟨by decide, hslash⟩
    have hend : endsWith (.char 'a' :: e) (text "/") = false := by
      by_contra hend
      rw [Bool.not_eq_false] at hend
      obtain ⟨front, hfront⟩ := List.isSuffixOf_iff_suffix.mp hend
      exact hpath (hfront ▸ List.mem_append_right front (by decide))
    have hname : Path.lastName (.char 'a' :: e) = .char 'a' :: e := by
      rw [Path.lastName_eq hend, Path.base_of_notMem hpath]
    have hsame : lower (.char 'a' :: e) = .char 'a' :: e := by
      refine lower_eq_self fun r hr => ?_
      rcases List.mem_cons.mp hr with rfl | hr
      · decide
      · exact (hlower r hr).1
    have hall : IsAscii (.char 'a' :: e) := by
      intro r hr
      rcases List.mem_cons.mp hr with rfl | hr
      · decide
      · exact (hlower r hr).2
    have htemplate := hcarriers (.char 'a' :: e) hend (by rwa [hname]) e he (by
      rw [Carries, hname, hsame]
      exact ⟨Nat.lt_succ_self _, List.suffix_cons _ e⟩)
    have hfront : .char '/' ∉ ([.char 'a'] : Text) := by decide
    have hextension : Path.extension (.char 'a' :: e) = Path.extension e :=
      extension_append hfront hslash hdot
    rw [isTemplate, List.contains_iff_mem, hextension] at htemplate
    obtain ⟨a, b, hab, hb⟩ := exists_last_of_mem hdot
    have hlast : Path.extension e = .char '.' :: b :=
      Path.extension_of_base ((Path.base_of_notMem hslash).trans hab) hb
    have hkept : lower (.char '.' :: b) = .char '.' :: b := by
      refine lower_eq_self fun r hr => (hlower r ?_).1
      rw [hab]
      exact List.mem_append_right a hr
    rw [hlast] at htemplate ⊢
    rwa [hkept] at htemplate
  · rintro hclosed path hend - e he ⟨-, hsuffix⟩
    have hslash : .char '/' ∉ e := by
      intro hslash
      have hname := hsuffix.subset hslash
      rw [mem_lower_iff (by decide) (by decide)] at hname
      exact Path.slash_notMem_lastName path hname
    obtain ⟨t, ht⟩ := dot_of_mem_templateExtensions he
    have hdot : .char '.' ∈ e := by simp [ht]
    obtain ⟨a, b, hab, hb⟩ := exists_last_of_mem hdot
    have hlast := hclosed e he hslash
    rw [Path.extension_of_base ((Path.base_of_notMem hslash).trans hab) hb] at hlast
    refine (isTemplate_iff c path).mpr ⟨hend, _, hlast, hb, ?_⟩
    rw [hab] at hsuffix
    exact (List.suffix_append a _).trans hsuffix

/-- **Extensions and templates.**  For all settings: a path is that of a template exactly if it
does not end in a slash and its last component ends, in lower case, in one of the extensions
that have a single dot.  So, for settings in ASCII, all files with ASCII names that carry one of
the extensions are templates exactly if for each extension, the part from its last dot on is an
extension of the settings too; one that holds a slash is carried by no file. -/
theorem isTemplate_extensions (c : Settings) :
    (∀ path, c.isTemplate path = true ↔
      path.endsWith (text "/") = false ∧
        ∃ e ∈ c.templateExtensions, .char '.' ∉ e.tail ∧ e <:+ (Path.lastName path).lower) ∧
      ((∀ ext ∈ c.extensions.getD [], IsAscii ext) →
        ((∀ path, path.endsWith (text "/") = false → IsAscii (Path.lastName path) →
            ∀ e ∈ c.templateExtensions, Carries path e → c.isTemplate path = true) ↔
          ∀ e ∈ c.templateExtensions, .char '/' ∉ e →
            Path.extension e ∈ c.templateExtensions)) :=
  ⟨isTemplate_iff c, carriers_iff⟩

/-- With `html` among the extensions, files that carry `.ng.html` are templates. -/
theorem isTemplate_extensions_both :
    let c : Settings := { extensions := some [text "NG.html", text "html"] }
    c.templateExtensions = [text ".ng.html", text ".html"] ∧
      (∀ path, path.endsWith (text "/") = false → IsAscii (Path.lastName path) →
        Carries path (text ".ng.html") → c.isTemplate path = true) ∧
      c.isTemplate (text "app/List.Ng.HTML") = true := by
  intro c
  obtain ⟨hpath, hsettings⟩ := isTemplate_extensions c
  have hcarriers := (hsettings (by decide)).mpr (by decide)
  exact ⟨by decide, fun path hend hascii => hcarriers path hend hascii _ (by decide),
    (hpath _).mpr ⟨by decide, text ".html", by decide, by decide, by decide⟩⟩

/-- **An extension with two dots is that of no path**: a file that carries it is no template. -/
theorem isTemplate_extensions_dotted :
    let c : Settings := { extensions := some [text "ng.html"] }
    text ".ng.html" ∈ c.templateExtensions ∧ IsAscii (Path.lastName (text "list.ng.html")) ∧
      Carries (text "list.ng.html") (text ".ng.html") ∧
      c.isTemplate (text "list.ng.html") = false := by
  refine ⟨by decide, by decide, ⟨by decide, by decide⟩, by decide⟩

end Settings

end TemplateFormat
