import TypeAtlas.Proofs.Project.Discovery

/-! Which files count as sources. A name needs something in front of its extension, and the
directory in front of the name is taken for that, so the answer is about the name of a file alone
for all names but those that are an extension and nothing else. -/

namespace TypeAtlas

theorem suffix_append_cons_iff {α : Type} {part s t : List α} {sep : α} (h : sep ∉ part) :
    part <:+ s ++ sep :: t ↔ part <:+ t := by
  constructor
  · intro hpart
    have hrest : sep :: t <:+ s ++ sep :: t := List.suffix_append s _
    rcases List.suffix_or_suffix_of_suffix hpart hrest with hshort | hlong
    · rcases List.suffix_cons_iff.mp hshort with rfl | ht
      · exact absurd List.mem_cons_self h
      · exact ht
    · exact absurd (hlong.subset List.mem_cons_self) h
  · intro ht
    exact (ht.trans (List.suffix_cons sep t)).trans (List.suffix_append s _)

namespace SourceName

/-- The extensions that are no name of a source when they stand alone. `.d.ts` ends in `.ts` and
has something in front of that. -/
def bare : List String :=
  [".ts", ".tsx"]

variable {name extension : String}

theorem hasExtension_iff :
    hasExtension name extension = true ↔
      extension.toList <:+ name.toList ∧ name ≠ extension := by
  rw [hasExtension, Bool.and_eq_true, decide_eq_true_eq, List.isSuffixOf_iff_suffix]
  constructor
  · rintro ⟨hlength, hsuffix⟩
    refine ⟨hsuffix, ?_⟩
    rintro rfl
    omega
  · rintro ⟨hsuffix, hne⟩
    have hlength := hsuffix.length_le
    have hdiffer : extension.toList.length ≠ name.toList.length := fun heq =>
      hne (String.toList_injective (hsuffix.eq_of_length heq)).symm
    exact ⟨by omega, hsuffix⟩

theorem hasExtension_below (directory name : String) (h : '/' ∉ extension.toList) :
    hasExtension (directory ++ "/" ++ name) extension = true ↔
      hasExtension name extension = true ∨ name = extension := by
  have htext : (directory ++ "/" ++ name).toList = directory.toList ++ '/' :: name.toList := by
    simp
  have hne : directory ++ "/" ++ name ≠ extension := by
    rintro rfl
    exact h (by simp [htext])
  rw [hasExtension_iff, hasExtension_iff, htext, suffix_append_cons_iff h, and_iff_left hne]
  by_cases heq : name = extension
  · simp [heq]
  · simp [heq]

theorem isSupported_below (directory name : String) :
    isSupported (directory ++ "/" ++ name) = true ↔ isSupported name = true ∨ name ∈ bare := by
  have hslash : ∀ extension ∈ extensions, '/' ∉ extension.toList := by decide
  have hany : isSupported (directory ++ "/" ++ name) = true ↔
      isSupported name = true ∨ name ∈ extensions := by
    simp only [isSupported, List.any_eq_true]
    constructor
    · rintro ⟨extension, hmem, hbelow⟩
      rcases (hasExtension_below directory name (hslash _ hmem)).mp hbelow with hname | rfl
      · exact .inl ⟨extension, hmem, hname⟩
      · exact .inr hmem
    · rintro (⟨extension, hmem, hname⟩ | hmem)
      · exact ⟨extension, hmem,
          (hasExtension_below directory name (hslash _ hmem)).mpr (.inl hname)⟩
      · exact ⟨name, hmem, (hasExtension_below directory name (hslash _ hmem)).mpr (.inr rfl)⟩
  have hextensions : ∀ extension ∈ extensions, extension ∈ bare ∨ isSupported extension = true := by
    decide
  have hbare : ∀ extension ∈ bare, extension ∈ extensions := by decide
  rw [hany]
  constructor
  · rintro (hname | hmem)
    · exact .inl hname
    · exact (hextensions name hmem).symm
  · rintro (hname | hmem)
    · exact .inl hname
    · exact .inr (hbare name hmem)

theorem isSupported_of_bare (h : name ∈ bare) : isSupported name = false := by
  revert name
  decide

theorem isSupported_below_eq_iff (directory name : String) :
    isSupported (directory ++ "/" ++ name) = isSupported name ↔ name ∉ bare := by
  have hbelow := isSupported_below directory name
  by_cases hbare : name ∈ bare
  · have hname := isSupported_of_bare hbare
    simp [hname, hbelow.mpr (.inr hbare), hbare]
  · rw [Bool.eq_iff_iff, hbelow, or_iff_left hbare]
    simp [hbare]

/-- A name that is nothing but an extension is one of a source below a directory only. -/
theorem bareName_not_alike :
    ¬ ∀ directory name : String, '/' ∉ name.toList →
      isSupported (directory ++ "/" ++ name) = isSupported name := by
  intro h
  have halike := h "src" ".ts" (by decide)
  have hbelow : isSupported ("src" ++ "/" ++ ".ts") = true := by decide
  have halone : isSupported ".ts" = false := by decide
  rw [hbelow, halone] at halike
  cases halike

end SourceName

theorem Path.normalize_join_cases (directory : String) {path : String}
    (h : isAbsolute path = false) :
    directory = "" ∧ normalize (join directory path) = normalize path ∨
      directory ≠ "" ∧
        ∃ above, normalize (join directory path) = above ++ "/" ++ normalize path := by
  by_cases hempty : directory = ""
  · subst hempty
    simp [join, h]
  · refine .inr ⟨hempty, ?_⟩
    by_cases hend : directory.toList.getLast? = some '/'
    · obtain ⟨above, habove⟩ := List.getLast?_eq_some_iff.mp hend
      refine ⟨normalize (String.ofList above), String.toList_injective ?_⟩
      simp [join, normalize, h, habove]
    · refine ⟨normalize directory, String.toList_injective ?_⟩
      simp [join, normalize, h, hend, hempty]

namespace Config

theorem isAbsolute_cons {name : String} (h : IsFileName name) (rest : Location) :
    Path.isAbsolute ("/".intercalate (name :: rest)) = false := by
  obtain ⟨tail, htail⟩ := intercalate_cons_eq_append name rest
  rw [Path.isAbsolute, htail, decide_eq_false (begins_with_name h tail).1]

theorem isAbsolute_intercalate {t : FileTree} {location : Location} (h : t.WellNamed)
    (hfile : t.HasFile location) : Path.isAbsolute ("/".intercalate location) = false := by
  cases location with
  | nil => rfl
  | cons name rest => exact isAbsolute_cons (h.isFileName_head hfile) rest

theorem isSupported_pathBelow_iff {t : FileTree} {location : Location} (h : t.WellNamed)
    (hfile : t.HasFile location) (directory : String) :
    SourceName.isSupported (Path.normalize (pathBelow directory location)) =
        SourceName.isSupported (relativePath location) ↔
      directory = "" ∨ relativePath location ∉ SourceName.bare := by
  have hrelative := isAbsolute_intercalate h hfile
  rcases Path.normalize_join_cases directory hrelative with ⟨hempty, hsame⟩ | ⟨hne, above, habove⟩
  · rw [pathBelow, hsame]
    simp [relativePath, hempty]
  · rw [pathBelow, habove, or_iff_right hne]
    exact SourceName.isSupported_below_eq_iff above _

/-- Whether a name is that of a source does not depend on the directory in front of it, just if the
name is more than an extension. So a file is taken alike where it is listed and where it is found,
unless its path from the directory of the configuration is nothing but an extension. -/
theorem isSupported_alike_iff (directory : String) :
    (∀ name : String,
      SourceName.isSupported (directory ++ "/" ++ name) = SourceName.isSupported name ↔
        name ∉ SourceName.bare) ∧
    ∀ t : FileTree, t.WellNamed → ∀ location, t.HasFile location → ∀ file ∈
      ["/".intercalate location, "./" ++ "/".intercalate location],
      (SourceName.isSupported (listedPath directory file) =
          SourceName.isSupported (relativePath location) ↔
        directory = "" ∨ relativePath location ∉ SourceName.bare) := by
  refine ⟨SourceName.isSupported_below_eq_iff directory,
    fun t ht location hfile file hspelled => ?_⟩
  have hpath : listedPath directory file = Path.normalize (pathBelow directory location) := by
    rcases List.mem_pair.mp hspelled with rfl | rfl
    · exact listedPath_intercalate ht hfile directory
    · exact listedPath_dot_append directory _
  rw [hpath]
  exact isSupported_pathBelow_iff ht hfile directory

theorem sourceDirectory_alike :
    sourceDirectory.WellNamed ∧ sourceDirectory.HasFile ["src", "a.ts"] ∧
      SourceName.isSupported (listedPath "p" "./src/a.ts") =
        SourceName.isSupported (relativePath ["src", "a.ts"]) := by
  have hnamed := sourceDirectory_searchable.wellNamed
  have hfile : sourceDirectory.HasFile ["src", "a.ts"] := ⟨.empty, rfl⟩
  have hbare : relativePath ["src", "a.ts"] ∉ SourceName.bare := by decide
  have hspelled : "./src/a.ts" ∈
      ["/".intercalate ["src", "a.ts"], "./" ++ "/".intercalate ["src", "a.ts"]] := by decide
  have halike := (isSupported_alike_iff "p").2 sourceDirectory hnamed _ hfile _ hspelled
  exact ⟨hnamed, hfile, halike.mpr (.inr hbare)⟩

end Config

end TypeAtlas
