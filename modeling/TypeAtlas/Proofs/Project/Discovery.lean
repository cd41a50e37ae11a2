import Mathlib.Data.List.Infix
import TypeAtlas.Project.Inputs
import TypeAtlas.Proofs.Files.Searching

/-! The inputs of a project: those of the listed files that are supported, and the files below the
directory to which the patterns lead. A file that is both is an input once. -/

namespace TypeAtlas

/-- Directories that can all be opened when they are searched for below `directory`. -/
structure FileTree.Searchable (directory : String) (t : FileTree) : Prop where
  wellNamed : t.WellNamed
  opens : ∀ location entries, location ≠ [] → t.get? location = some (.directory entries) →
    (Config.pathBelow directory location).utf8ByteSize < Files.maxPath

namespace Config

variable {c : Config} {directory : String} {t : FileTree} {location : Location}

theorem enters_concat {excludes : List Glob.Pattern} {above : Location} {name : String} :
    enters directory excludes (above ++ [name]) = true ↔
      (name ∉ packageDirectories ∧
        Patterns.isMatch excludes (relativePath (above ++ [name])) = false) ∧
      (pathBelow directory (above ++ [name])).utf8ByteSize < Files.maxPath := by
  simp [enters]

theorem isIncluded_iff {includes excludes : List Glob.Pattern} :
    isIncluded includes excludes location = true ↔
      SourceName.isSupported (relativePath location) = true ∧
      Patterns.isMatch includes (relativePath location) = true ∧
      Patterns.isMatch excludes (relativePath location) = false := by
  simp [isIncluded, and_assoc]

theorem mem_filesAt_enters_iff (h : t.WellNamed) {excludes : List Glob.Pattern} :
    location ∈ FileTree.filesAt (enters directory excludes) [] t ↔ t.HasFile location ∧
      ∀ above name, above ++ [name] <+: location → above ++ [name] ≠ location →
        enters directory excludes (above ++ [name]) = true := by
  rw [h.mem_filesAt_iff]
  constructor
  · rintro ⟨rest, rfl, hfile, hways⟩
    exact ⟨hfile, fun above name => hways (above ++ [name])⟩
  · rintro ⟨hfile, hways⟩
    refine ⟨location, rfl, hfile, fun above hway hne => ?_⟩
    rw [List.nil_append]
    rcases List.eq_nil_or_concat above with rfl | ⟨above, name, rfl⟩
    · rfl
    · rw [List.concat_eq_append] at hway hne ⊢
      exact hways above name hway hne

theorem begins_with_name {name : String} (h : IsFileName name) (rest : List Char) :
    (name.toList ++ rest).head? ≠ some '/' ∧
      ['.', '/'].isPrefixOf (name.toList ++ rest) = false := by
  have hslash := h.not_mem_slash
  cases hname : name.toList with
  | nil => exact absurd (String.toList_eq_nil_iff.mp hname) h.ne_empty
  | cons c cs =>
    rw [hname, List.mem_cons, not_or] at hslash
    obtain ⟨hc, hcs⟩ := hslash
    refine ⟨by simpa [eq_comm] using hc, ?_⟩
    cases cs with
    | nil =>
      have hdot : c ≠ '.' := by
        rintro rfl
        exact h.ne_dot (String.toList_injective hname)
      simp [List.isPrefixOf, hdot.symm]
    | cons d cs =>
      rw [List.mem_cons, not_or] at hcs
      simp [List.isPrefixOf, hcs.1]

theorem intercalate_cons_eq_append (name : String) (rest : Location) :
    ∃ tail, ("/".intercalate (name :: rest)).toList = name.toList ++ tail := by
  cases rest with
  | nil => exact ⟨[], by simp⟩
  | cons next rest =>
    rw [String.intercalate_cons_cons, String.toList_append, String.toList_append, List.append_assoc]
    exact ⟨_, rfl⟩

theorem listedPath_intercalate (h : t.WellNamed) (hfile : t.HasFile location) (directory : String) :
    listedPath directory ("/".intercalate location) =
      Path.normalize (pathBelow directory location) := by
  cases location with
  | nil => rfl
  | cons name rest =>
    obtain ⟨tail, htail⟩ := intercalate_cons_eq_append name rest
    obtain ⟨hslash, hdot⟩ := begins_with_name (h.isFileName_head hfile) tail
    rw [← htail] at hslash hdot
    rw [listedPath, Path.isAbsolute, decide_eq_false hslash, Patterns.dropLeading, hdot, pathBelow]
    simp only [Bool.false_eq_true, if_false, String.ofList_toList]

theorem listedPath_dot_append (directory path : String) :
    listedPath directory ("./" ++ path) = Path.normalize (Path.join directory path) := by
  simp [listedPath, Path.isAbsolute, Patterns.dropLeading]

def sourceDirectory : FileTree :=
  .directory [("src", .directory [("a.ts", .file .empty)])]

def listsIncluded : Config :=
  { files := some ["./src/a.ts"], includes := some ["src"] }

theorem sourceDirectory_searchable : sourceDirectory.Searchable "p" where
  wellNamed := by
    have hfile : IsFileName "a.ts" := ⟨by decide, by decide, by decide, by decide⟩
    have hdirectory : IsFileName "src" := ⟨by decide, by decide, by decide, by decide⟩
    refine .directory (by decide) (by simpa using hdirectory) ?_
    simpa using .directory (by decide) (by simpa using hfile) (by simpa using .file _)
  opens := by
    intro location entries hne hget
    cases location with
    | nil => exact absurd rfl hne
    | cons name rest =>
      obtain ⟨rfl, hbelow⟩ := FileTree.of_get?_single hget
      cases rest with
      | nil => decide
      | cons name rest =>
        have hfile := (FileTree.of_get?_single hbelow).2
        cases rest <;> cases hfile

theorem eq_of_concat_prefix_pair {above : Location} {name first second : String}
    (hway : above ++ [name] <+: [first, second]) (hne : above ++ [name] ≠ [first, second]) :
    above = [] ∧ name = first := by
  have habove : above ++ [name] = [first] := by
    simpa [hne] using (List.mem_inits _ _).mpr hway
  simpa [List.append_eq_cons_iff] using habove

end Config

end TypeAtlas
