import TypeAtlas.Proofs.Project.SourceNames
import TypeAtlas.Proofs.Text.Replacing

/-! The names of outputs. The first `.ts` of a name is rewritten, wherever it stands, so an output
lies beside its source and is no source itself just if nothing in front of the extension looks like
one. -/

namespace TypeAtlas

namespace SourceName

open Text

def source : List Char :=
  ['.', 't', 's']

def script : List Char :=
  ['.', 'j', 's']

def directory : List Char → List Char
  | [] => []
  | c :: rest => if '/' ∈ c :: rest then c :: directory rest else []

/-- A text with `.ts` or `.tsx` at its end and something in front of that. -/
structure IsSource (text stem rest : List Char) : Prop where
  stem_ne_nil : stem ≠ []
  rest_eq : rest = [] ∨ rest = ['x']
  text_eq : text = stem ++ (source ++ rest)

variable {name : String} {text stem rest : List Char}

theorem isSupported_iff_isSource :
    isSupported name = true ↔ ∃ stem rest, IsSource name.toList stem rest := by
  have hany : isSupported name = true ↔
      ∃ extension ∈ extensions, extension.toList <:+ name.toList ∧ name ≠ extension := by
    simp only [isSupported, List.any_eq_true, hasExtension_iff]
  have hfront : ∀ {extension : String} {front : List Char},
      front ++ extension.toList = name.toList → name ≠ extension → front ≠ [] := by
    rintro extension front htext hne rfl
    exact hne (String.toList_injective htext).symm
  rw [hany]
  constructor
  · rintro ⟨extension, hmem, ⟨front, htext⟩, hne⟩
    simp only [extensions, List.mem_cons, List.not_mem_nil, or_false] at hmem
    rcases hmem with rfl | rfl | rfl
    · exact ⟨front, [], hfront htext hne, .inl rfl, htext.symm⟩
    · exact ⟨front, ['x'], hfront htext hne, .inr rfl, htext.symm⟩
    · have hstem : (front ++ ['.', 'd']) ++ (source ++ []) = name.toList := by
        rw [← htext, List.append_assoc]
        rfl
      exact ⟨front ++ ['.', 'd'], [], by simp, .inl rfl, hstem.symm⟩
  · rintro ⟨stem, rest, hstem, hrest, htext⟩
    have hne : ∀ {extension : String}, extension.toList = source ++ rest → name ≠ extension := by
      rintro extension hextension rfl
      rw [hextension] at htext
      exact hstem (List.self_eq_append_left.mp htext)
    rcases hrest with rfl | rfl
    · exact ⟨".ts", by decide, ⟨stem, htext.symm⟩, hne rfl⟩
    · exact ⟨".tsx", by decide, ⟨stem, htext.symm⟩, hne rfl⟩

theorem directory_of_not_mem (h : '/' ∉ text) : directory text = [] := by
  cases text with
  | nil => rfl
  | cons c text => exact if_neg h

theorem directory_append {last : List Char} (h : '/' ∉ last) (above : List Char) :
    directory (above ++ '/' :: last) = above ++ ['/'] := by
  induction above with
  | nil => rw [List.nil_append, directory, if_pos List.mem_cons_self, directory_of_not_mem h]; rfl
  | cons c above ih =>
    have hslash : '/' ∈ c :: (above ++ '/' :: last) := by simp
    rw [List.cons_append, directory, if_pos hslash, ih, List.cons_append]

theorem exists_directory (h : '/' ∈ text) :
    ∃ above last, text = above ++ '/' :: last ∧ '/' ∉ last := by
  induction text with
  | nil => cases h
  | cons c text ih =>
    by_cases hlast : '/' ∈ text
    · obtain ⟨above, last, rfl, hslash⟩ := ih hlast
      exact ⟨c :: above, last, rfl, hslash⟩
    · obtain rfl := (List.mem_cons.mp h).resolve_right hlast
      exact ⟨[], text, rfl, hlast⟩

theorem slash_not_mem_source : '/' ∉ source := by
  decide

theorem source_ne_nil : source ≠ [] := by
  decide

theorem directory_replaceFirst (text : List Char) :
    directory (replaceFirst source script text) = replaceFirst source script (directory text) := by
  have hlast : ∀ {last : List Char}, '/' ∉ last → '/' ∉ replaceFirst source script last := by
    intro last hlast hmem
    rcases mem_replaceFirst hmem with hscript | hmem
    · exact absurd hscript (by decide)
    · exact hlast hmem
  by_cases hmem : '/' ∈ text
  · obtain ⟨above, last, rfl, hslash⟩ := exists_directory hmem
    rw [directory_append hslash]
    by_cases hsource : source <:+: above
    · rw [replaceFirst_append_of_occurs source_ne_nil hsource,
        replaceFirst_append_of_occurs source_ne_nil hsource, directory_append hslash]
    · rw [replaceFirst_append_cons slash_not_mem_source source_ne_nil hsource,
        replaceFirst_append_cons slash_not_mem_source source_ne_nil hsource,
        directory_append (hlast hslash)]
      rfl
  · rw [directory_of_not_mem hmem, directory_of_not_mem (hlast hmem)]
    rfl

theorem toList_output (name : String) :
    (output name).toList = replaceFirst source script name.toList :=
  String.toList_ofList

theorem directory_output (name : String) :
    directory (output name).toList = replaceFirst source script (directory name.toList) := by
  rw [toList_output, directory_replaceFirst]

theorem replaceFirst_first {before behind : List Char} (h : ¬ source <:+: before) :
    replaceFirst source script (before ++ (source ++ behind)) = before ++ (script ++ behind) :=
  replaceFirst_append_part (by decide) h

theorem replaceFirst_eq_self_iff :
    replaceFirst source script text = text ↔ ¬ source <:+: text := by
  constructor
  · intro hsame hsource
    obtain ⟨before, behind, rfl, hfirst⟩ := exists_first source_ne_nil hsource
    rw [replaceFirst_first hfirst] at hsame
    have hparts := List.append_cancel_right (List.append_cancel_left hsame)
    exact absurd hparts (by decide)
  · exact replaceFirst_of_not_occurs

namespace IsSource

theorem replaceFirst_of_occurs (h : IsSource text stem rest) (hstem : source <:+: stem) :
    IsSource (replaceFirst source script text) (replaceFirst source script stem) rest where
  stem_ne_nil := by
    obtain ⟨before, behind, rfl, hfirst⟩ := exists_first source_ne_nil hstem
    rw [replaceFirst_first hfirst]
    simp [script]
  rest_eq := h.rest_eq
  text_eq := by rw [h.text_eq, replaceFirst_append_of_occurs source_ne_nil hstem]

theorem ne_script (h : IsSource text stem rest) {stem' rest' : List Char}
    (hrest : rest' = [] ∨ rest' = ['x']) : text ≠ stem' ++ (script ++ rest') := by
  intro htext
  have hends : stem ++ (source ++ rest) = stem' ++ (script ++ rest') := h.text_eq.symm.trans htext
  rcases h.rest_eq with rfl | rfl <;> rcases hrest with rfl | rfl
  · exact absurd (List.append_inj' hends rfl).2 (by decide)
  · simpa [source, script] using congrArg List.getLast? hends
  · simpa [source, script] using congrArg List.getLast? hends
  · exact absurd (List.append_inj' hends rfl).2 (by decide)

theorem replaceFirst_eq_iff (h : IsSource text stem rest) :
    replaceFirst source script text = stem ++ (script ++ rest) ↔ ¬ source <:+: stem := by
  constructor
  · intro hlast hstem
    exact (h.replaceFirst_of_occurs hstem).ne_script h.rest_eq hlast
  · intro hstem
    rw [h.text_eq, replaceFirst_first hstem]

theorem isSupported_output_iff (h : IsSource name.toList stem rest) :
    isSupported (output name) = true ↔ source <:+: stem := by
  rw [isSupported_iff_isSource, toList_output]
  constructor
  · rintro ⟨stem', rest', hsource⟩
    by_contra hstem
    exact hsource.ne_script h.rest_eq (h.replaceFirst_eq_iff.mpr hstem)
  · exact fun hstem => ⟨_, _, h.replaceFirst_of_occurs hstem⟩

end IsSource

/-- In the name of a source the first `.ts` becomes `.js`. This is the extension, and the output is
no source, just if there is none in front of it. An output stays in the directory of its source just
if there is no `.ts` in that, and outputs from two such directories never meet in one. -/
theorem output_rewrites_first (h : isSupported name = true) :
    ∃ stem rest, IsSource name.toList stem rest ∧
      (∀ before behind, ¬ source <:+: before → name.toList = before ++ (source ++ behind) →
        (output name).toList = before ++ (script ++ behind)) ∧
      ((output name).toList = stem ++ (script ++ rest) ↔ ¬ source <:+: stem) ∧
      (isSupported (output name) = false ↔ ¬ source <:+: stem) ∧
      directory (output name).toList = replaceFirst source script (directory name.toList) ∧
      (directory (output name).toList = directory name.toList ↔
        ¬ source <:+: directory name.toList) ∧
      ∀ other, isSupported other = true → ¬ source <:+: directory name.toList →
        ¬ source <:+: directory other.toList → directory name.toList ≠ directory other.toList →
        directory (output name).toList ≠ directory (output other).toList := by
  obtain ⟨stem, rest, hsource⟩ := isSupported_iff_isSource.mp h
  refine ⟨stem, rest, hsource, fun before behind hfirst hname => ?_, ?_, ?_,
    directory_output name, ?_, fun other _ hname hother hne => ?_⟩
  · rw [toList_output, hname, replaceFirst_first hfirst]
  · rw [toList_output]
    exact hsource.replaceFirst_eq_iff
  · rw [Bool.eq_false_iff, ne_eq, hsource.isSupported_output_iff]
  · rw [directory_output]
    exact replaceFirst_eq_self_iff
  · rwa [directory_output, directory_output, replaceFirst_eq_self_iff.mpr hname,
      replaceFirst_eq_self_iff.mpr hother]

theorem declarations_rewrites_first :
    isSupported "lib/a.d.ts" = true ∧ isSupported "lib.d/a.tsx" = true ∧
      output "lib/a.d.ts" = "lib/a.d.js" ∧
      directory (output "lib/a.d.ts").toList ≠ directory (output "lib.d/a.tsx").toList := by
  have hname : isSupported "lib/a.d.ts" = true := by decide
  have hother : isSupported "lib.d/a.tsx" = true := by decide
  obtain ⟨_, _, _, hfirst, _, _, _, _, hdirectory⟩ := output_rewrites_first hname
  have houtput : (output "lib/a.d.ts").toList = "lib/a.d".toList ++ (script ++ []) :=
    hfirst "lib/a.d".toList [] (by decide) (by decide)
  refine ⟨hname, hother, String.toList_injective (houtput.trans (by decide)), ?_⟩
  exact hdirectory _ hother (by decide) (by decide) (by decide)

/-- A directory whose name has `.ts` in it is renamed, and the output is a source as before. -/
theorem sourceBelowSource_not_extension_only :
    isSupported "a.ts/b.ts" = true ∧ output "a.ts/b.ts" = "a.js/b.ts" ∧
      isSupported "a.js/c.ts" = true ∧ output "a.js/c.ts" = "a.js/c.js" ∧
      ¬ ∀ name : String, isSupported name = true →
        (∀ stem rest, IsSource name.toList stem rest →
          (output name).toList = stem ++ (script ++ rest)) ∧
        directory (output name).toList = directory name.toList ∧
        isSupported (output name) = false ∧
        ∀ other, isSupported other = true → directory name.toList ≠ directory other.toList →
          directory (output name).toList ≠ directory (output other).toList := by
  have hname : isSupported "a.ts/b.ts" = true := by decide
  have houtput : output "a.ts/b.ts" = "a.js/b.ts" := by decide
  refine ⟨hname, houtput, by decide, by decide, fun h => ?_⟩
  have hsupported := (h "a.ts/b.ts" hname).2.2.1
  rw [houtput] at hsupported
  exact absurd hsupported (by decide)

end SourceName

end TypeAtlas
