import TypeAtlas.Proofs.Files.Pieces
import TypeAtlas.Proofs.Glob.Literals
import TypeAtlas.Proofs.Project.SourceNames

/-! Patterns that name directories. Such a pattern matches the directory and everything below it at
any depth, but no directory whose name only begins like it. So directories that are included lead to
the sources below them, and nothing below the directory of the outputs is taken for a source. -/

namespace TypeAtlas

theorem Path.anchor_append_eq_nil {name : String} (h : IsFileName name) (rest : List Char) :
    anchor (name.toList ++ rest) = [] := by
  obtain ⟨hslash, hdot⟩ := Config.begins_with_name h rest
  unfold anchor
  split
  · rename_i heq
    exact absurd (congrArg List.head? heq) hslash
  · rename_i heq
    have hne : name.toList ≠ [] := fun hnil => h.ne_empty (String.toList_eq_nil_iff.mp hnil)
    have hname : name.toList = ['.'] := by
      rcases List.append_eq_singleton_iff.mp heq with ⟨hnil, -⟩ | ⟨hname, -⟩
      · exact absurd hnil hne
      · exact hname
    exact absurd (String.toList_injective hname) h.ne_dot
  · rename_i heq
    rw [heq] at hdot
    cases hdot
  · rfl

namespace Patterns

/-- A component of a path that stands for itself in a pattern. -/
structure IsComponent (name : String) : Prop extends IsFileName name where
  not_special : ∀ c ∈ name.toList, c ∉ Glob.special
  not_mem_backslash : '\\' ∉ name.toList

instance : DecidablePred IsComponent := fun name =>
  decidable_of_iff (IsFileName name ∧ (name.toList.all fun c => c ∉ Glob.special) = true ∧
      '\\' ∉ name.toList)
    ⟨fun ⟨hname, hspecial, hbackslash⟩ => ⟨hname, by simpa using hspecial, hbackslash⟩,
      fun h => ⟨h.toIsFileName, by simpa using h.not_special, h.not_mem_backslash⟩⟩

/-- A pattern consists of the components of a directory, apart from blanks around it, one `./` in
front and slashes behind. -/
structure NamesDirectory (pattern : String) (directory : List String) : Prop where
  ne_nil : directory ≠ []
  component : ∀ name ∈ directory, IsComponent name
  no_extension : ∀ name ∈ directory.getLast?, '.' ∉ name.toList.drop 1
  spelled : ∃ front ∈ ["", "./"], ∃ slashes, Text.trim pattern.toList =
    (front ++ "/".intercalate directory).toList ++ List.replicate slashes '/'

/-- What a directory is read as: itself, and everything below it. -/
def below (directory : List String) : List Glob.Pattern :=
  let text := Glob.literals ("/".intercalate directory).toList
  [text, text ++ [.anyBetween, .star]]

variable {pattern : String} {directory : List String}

namespace NamesDirectory

theorem single {name : String} (hname : IsComponent name)
    (hextension : '.' ∉ name.toList.drop 1) (front : String) (slashes : Nat)
    (hfront : front ∈ ["", "./"])
    (hspelled : Text.trim pattern.toList = (front ++ name).toList ++ List.replicate slashes '/') :
    NamesDirectory pattern [name] where
  ne_nil := List.cons_ne_nil _ _
  component := by simpa using hname
  no_extension := by simpa using hextension
  spelled := ⟨front, hfront, slashes, by rwa [String.intercalate_singleton]⟩

theorem not_mem_slash (h : NamesDirectory pattern directory) :
    ∀ name ∈ directory, '/' ∉ name.toList :=
  fun name hname => (h.component name hname).not_mem_slash

theorem mem_text (h : NamesDirectory pattern directory) {c : Char}
    (hc : c ∈ ("/".intercalate directory).toList) : c ∉ Glob.special ∧ c ≠ '\\' := by
  rw [String.toList_intercalate] at hc
  rcases Text.mem_intercalate hc with rfl | ⟨_, hpiece, hc⟩
  · decide
  · obtain ⟨name, hname, rfl⟩ := List.mem_map.mp hpiece
    have hcomponent := h.component name hname
    refine ⟨hcomponent.not_special c hc, ?_⟩
    rintro rfl
    exact hcomponent.not_mem_backslash hc

theorem text_eq_append (h : NamesDirectory pattern directory) : ∃ name rest,
    IsComponent name ∧ ("/".intercalate directory).toList = name.toList ++ rest := by
  obtain ⟨name, names, rfl⟩ := List.exists_cons_of_ne_nil h.ne_nil
  obtain ⟨rest, hrest⟩ := Config.intercalate_cons_eq_append name names
  exact ⟨name, rest, h.component name List.mem_cons_self, hrest⟩

theorem text_eq_concat (h : NamesDirectory pattern directory) : ∃ above name, IsComponent name ∧
    directory = above ++ [name] ∧
    ∃ front, ("/".intercalate directory).toList = front ++ name.toList := by
  rcases List.eq_nil_or_concat directory with rfl | ⟨above, name, rfl⟩
  · exact absurd rfl h.ne_nil
  · rw [List.concat_eq_append] at h ⊢
    refine ⟨above, name, h.component name (by simp), rfl, ?_⟩
    by_cases hnil : above = []
    · subst hnil
      exact ⟨[], by simp⟩
    · rw [String.intercalate_append_of_ne_nil hnil (List.cons_ne_nil _ _), String.toList_append]
      exact ⟨_, by rw [String.intercalate_singleton]⟩

theorem getLast?_text_ne_slash (h : NamesDirectory pattern directory) :
    ("/".intercalate directory).toList.getLast? ≠ some '/' := by
  obtain ⟨above, name, hname, rfl, front, htext⟩ := h.text_eq_concat
  have hne : name.toList ≠ [] := fun hnil => hname.ne_empty (String.toList_eq_nil_iff.mp hnil)
  rw [htext, List.getLast?_append_of_ne_nil _ hne]
  intro hlast
  exact hname.not_mem_slash (List.mem_of_getLast? hlast)

theorem liesIn_intercalate_iff (h : NamesDirectory pattern directory) {names : List String}
    (hnames : ∀ name ∈ names, '/' ∉ name.toList) :
    Path.LiesIn directory ("/".intercalate names) ↔ directory <+: names := by
  by_cases hnil : names = []
  · subst hnil
    have hpieces : Path.pieces "" = [""] := rfl
    rw [String.intercalate_nil, Path.LiesIn, hpieces, List.prefix_nil]
    refine ⟨fun hlies => ?_, fun heq => absurd heq h.ne_nil⟩
    obtain ⟨name, rest, rfl⟩ := List.exists_cons_of_ne_nil h.ne_nil
    obtain ⟨rfl, -⟩ := List.cons_prefix_cons.mp hlies
    exact absurd rfl (h.component "" List.mem_cons_self).ne_empty
  · rw [Path.LiesIn, Path.pieces_intercalate hnil hnames]

theorem dropLeading_eq (h : NamesDirectory pattern directory) {front : String}
    (hfront : front ∈ ["", "./"]) (behind : List Char) :
    dropLeading ['.', '/'] ((front ++ "/".intercalate directory).toList ++ behind) =
      ("/".intercalate directory).toList ++ behind := by
  rcases List.mem_pair.mp hfront with rfl | rfl
  · obtain ⟨name, rest, hname, htext⟩ := h.text_eq_append
    have hdot := (Config.begins_with_name hname.toIsFileName (rest ++ behind)).2
    rw [String.empty_append, htext, List.append_assoc, dropLeading, hdot]
    rfl
  · rw [String.toList_append, List.append_assoc]
    rfl

theorem normalize_eq (h : NamesDirectory pattern directory) :
    normalize pattern = "/".intercalate directory := by
  obtain ⟨front, hfront, slashes, htrim⟩ := h.spelled
  have hplain : Path.normalize (String.ofList (Text.trim pattern.toList)) =
      String.ofList (Text.trim pattern.toList) := by
    have hfronts : ∀ front ∈ ["", "./"], '\\' ∉ front.toList := by decide
    have htext : '\\' ∉ ("/".intercalate directory).toList := fun hc => (h.mem_text hc).2 rfl
    refine Path.normalize_of_not_mem ?_
    rw [String.toList_ofList, htrim, String.toList_append, List.mem_append, List.mem_append]
    rintro ((hc | hc) | hc)
    · exact hfronts front hfront hc
    · exact htext hc
    · exact absurd (List.eq_of_mem_replicate hc) (by decide)
  have hlast : ∀ c ∈ ("/".intercalate directory).toList.reverse.head?,
      decide (c = '/') = false := by
    intro c hc
    rw [List.head?_reverse] at hc
    refine decide_eq_false ?_
    rintro rfl
    exact h.getLast?_text_ne_slash hc
  have hslashes : ∀ c ∈ List.replicate slashes '/', decide (c = '/') = true := by
    intro c hc
    exact decide_eq_true (List.eq_of_mem_replicate hc)
  rw [normalize, hplain, String.toList_ofList, htrim, h.dropLeading_eq hfront, List.reverse_append,
    List.reverse_replicate, dropWhile_append_eq hslashes hlast, List.reverse_reverse,
    String.ofList_toList]

theorem unique {other : List String} (h : NamesDirectory pattern directory)
    (h' : NamesDirectory pattern other) : directory = other := by
  have htext : "/".intercalate directory = "/".intercalate other :=
    h.normalize_eq.symm.trans h'.normalize_eq
  rw [← Path.pieces_intercalate h.ne_nil h.not_mem_slash, htext,
    Path.pieces_intercalate h'.ne_nil h'.not_mem_slash]

theorem hasWildcard_eq_false (h : NamesDirectory pattern directory) :
    hasWildcard ("/".intercalate directory) = false := by
  rw [hasWildcard, List.any_eq_false]
  intro c hc
  have hspecial := (h.mem_text hc).1
  simp only [Glob.special, List.mem_cons, not_or] at hspecial
  simp [hspecial.1, hspecial.2.1]

theorem hasExtension_eq_false (h : NamesDirectory pattern directory) :
    Path.hasExtension ("/".intercalate directory) = false := by
  have hanchor : Path.anchor ("/".intercalate directory).toList = [] := by
    obtain ⟨name, rest, hname, htext⟩ := h.text_eq_append
    rw [htext, Path.anchor_append_eq_nil hname.toIsFileName]
  obtain ⟨above, name, hname, hdirectory, -⟩ := h.text_eq_concat
  have hsplit : Text.split '/' ("/".intercalate directory).toList =
      directory.map String.toList := by
    rw [← Path.map_toList_pieces, Path.pieces_intercalate h.ne_nil h.not_mem_slash]
  have hlast : Path.isEmptyComponent name.toList = false := by
    have hempty : name.toList ≠ [] := fun hnil => hname.ne_empty (String.toList_eq_nil_iff.mp hnil)
    have hdot : name.toList ≠ ['.'] := fun hdot => hname.ne_dot (String.toList_injective hdot)
    simp [Path.isEmptyComponent, hempty, hdot]
  have htrailing : Path.trailing ("/".intercalate directory).toList =
      name.toList :: (above.map String.toList).reverse := by
    rw [Path.trailing, hanchor, List.length_nil, List.drop_zero, hsplit, hdirectory]
    simp [hlast]
  have hextension := h.no_extension name (by simp [hdirectory])
  rw [Path.hasExtension, htrailing]
  exact Bool.and_eq_false_imp.mpr fun _ => by simpa using hextension

theorem filterMap_read_expand (h : NamesDirectory pattern directory) :
    (expand (normalize pattern)).filterMap Glob.read = below directory := by
  obtain ⟨text, htext⟩ : ∃ text, "/".intercalate directory = String.ofList text :=
    ⟨_, String.ofList_toList.symm⟩
  have hplain : ∀ c ∈ text, c ∉ Glob.special := by
    intro c hc
    refine (h.mem_text ?_).1
    rwa [htext, String.toList_ofList]
  have hne : ("/".intercalate directory).isEmpty = false := by
    obtain ⟨name, rest, hname, happend⟩ := h.text_eq_append
    refine Bool.eq_false_iff.mpr fun hempty => hname.ne_empty ?_
    rw [String.isEmpty_iff.mp hempty] at happend
    exact String.toList_eq_nil_iff.mp (List.append_eq_nil_iff.mp happend.symm).1
  have hread := Glob.read_literals hplain
  have hbelow := Glob.read_below hplain
  rw [← htext] at hread hbelow
  rw [h.normalize_eq, expand, hne, h.hasWildcard_eq_false, h.hasExtension_eq_false]
  simp only [Bool.false_eq_true, if_false, Bool.or_self]
  rw [List.filterMap_cons_some hread, List.filterMap_cons_some hbelow, List.filterMap_nil, below,
    htext, String.toList_ofList]

theorem isMatch_below (h : NamesDirectory pattern directory) {path : String} :
    isMatch (below directory) path = true ↔ Path.LiesIn directory path := by
  have hany : isMatch (below directory) path = true ↔
      path.toList = ("/".intercalate directory).toList ∨
        ("/".intercalate directory).toList ++ ['/'] <+: path.toList := by
    rw [← Glob.isMatch_literals, ← Glob.isMatch_below]
    simp [isMatch, below]
  rw [hany, Path.liesIn_iff h.ne_nil h.not_mem_slash]
  refine or_congr String.toList_inj ?_
  constructor
  · rintro ⟨rest, hrest⟩
    exact ⟨String.ofList rest, String.toList_injective (by simp [← hrest])⟩
  · rintro ⟨rest, rfl⟩
    exact ⟨rest.toList, by simp⟩

end NamesDirectory

theorem nesting_below (directory : List String) :
    ∀ tokens ∈ below directory, Glob.nesting tokens ≤ Glob.maxNesting := by
  have hdepth : ∀ s rest, Glob.nesting (Glob.literals s ++ rest) = Glob.nesting rest := by
    intro s rest
    rw [Glob.nesting, Glob.depth_literals_append, Glob.nesting]
  intro tokens htokens
  rcases List.mem_pair.mp htokens with rfl | rfl
  · rw [← List.append_nil (Glob.literals _), hdepth]
    decide
  · rw [hdepth]
    decide

variable {patterns : List String} {path : String}

theorem isMatch_read_iff (h : ∀ pattern ∈ patterns, ∃ directory, NamesDirectory pattern directory) :
    isMatch (read patterns) path = true ↔
      ∃ pattern ∈ patterns, ∃ directory, NamesDirectory pattern directory ∧
        Path.LiesIn directory path := by
  have hmem : ∀ tokens, tokens ∈ wellFormed patterns ↔ ∃ pattern ∈ patterns,
      tokens ∈ (expand (normalize pattern)).filterMap Glob.read := by
    intro tokens
    rw [wellFormed, List.filterMap_flatMap, List.mem_flatMap]
  have hnesting : (wellFormed patterns).all (Glob.nesting · ≤ Glob.maxNesting) = true := by
    rw [List.all_eq_true]
    intro tokens htokens
    obtain ⟨pattern, hpattern, htokens⟩ := (hmem tokens).mp htokens
    obtain ⟨directory, hnames⟩ := h pattern hpattern
    rw [hnames.filterMap_read_expand] at htokens
    exact decide_eq_true (nesting_below directory tokens htokens)
  rw [read, if_pos hnesting, isMatch, List.any_eq_true]
  constructor
  · rintro ⟨tokens, htokens, hmatch⟩
    obtain ⟨pattern, hpattern, htokens⟩ := (hmem tokens).mp htokens
    obtain ⟨directory, hnames⟩ := h pattern hpattern
    rw [hnames.filterMap_read_expand] at htokens
    exact ⟨pattern, hpattern, directory, hnames,
      hnames.isMatch_below.mp (List.any_eq_true.mpr ⟨tokens, htokens, hmatch⟩)⟩
  · rintro ⟨pattern, hpattern, directory, hnames, hlies⟩
    obtain ⟨tokens, htokens, hmatch⟩ := List.any_eq_true.mp (hnames.isMatch_below.mpr hlies)
    refine ⟨tokens, (hmem tokens).mpr ⟨pattern, hpattern, ?_⟩, hmatch⟩
    rwa [hnames.filterMap_read_expand]

end Patterns

namespace Config

open Patterns (NamesDirectory)
open TypeAtlas.Path (LiesIn)

/-- Neither a file nor a directory on the way to it is left out, and all these directories can be
opened. -/
structure Kept (c : Config) (directory : String) (location : Location) : Prop where
  file : Patterns.isMatch (Patterns.read c.excludePatterns) (relativePath location) = false
  way : ∀ above name, above ++ [name] <+: location → above ++ [name] ≠ location →
    (name ∉ packageDirectories ∧
      Patterns.isMatch (Patterns.read c.excludePatterns) (relativePath (above ++ [name])) = false) ∧
    (pathBelow directory (above ++ [name])).utf8ByteSize < Files.maxPath

variable {c : Config} {directory : String} {t : FileTree} {location : Location}

theorem mem_foundFiles_iff_kept (h : t.WellNamed) {x : String} :
    x ∈ c.foundFiles directory t ↔ ∃ location, t.HasFile location ∧
      SourceName.isSupported (relativePath location) = true ∧
      Patterns.isMatch (Patterns.read c.includePatterns) (relativePath location) = true ∧
      c.Kept directory location ∧ x = Path.normalize (pathBelow directory location) := by
  unfold foundFiles
  split
  · rename_i hempty
    refine ⟨nofun, ?_⟩
    rintro ⟨location, -, -, hincluded, -⟩
    rw [List.isEmpty_iff.mp hempty] at hincluded
    cases hincluded
  · simp only [List.mem_map, List.mem_filter, mem_filesAt_enters_iff h, isIncluded_iff,
      enters_concat]
    constructor
    · rintro ⟨location, ⟨⟨hfile, hway⟩, hsupported, hincluded, hexcluded⟩, rfl⟩
      exact ⟨location, hfile, hsupported, hincluded, ⟨hexcluded, hway⟩, rfl⟩
    · rintro ⟨location, hfile, hsupported, hincluded, hkept, rfl⟩
      exact ⟨location, ⟨⟨hfile, hkept.way⟩, hsupported, hincluded, hkept.file⟩, rfl⟩

theorem liesIn_relativePath_iff {pattern : String} {above : Location}
    (hnames : NamesDirectory pattern above)
    (h : ∀ name ∈ location, IsFileName name ∧ '\\' ∉ name.toList) :
    LiesIn above (relativePath location) ↔ above <+: location := by
  have hplain : '\\' ∉ ("/".intercalate location).toList := by
    rw [String.toList_intercalate]
    intro hc
    rcases Text.mem_intercalate hc with hslash | ⟨_, hpiece, hc⟩
    · cases hslash
    · obtain ⟨name, hname, rfl⟩ := List.mem_map.mp hpiece
      exact (h name hname).2 hc
  rw [relativePath, Path.normalize_of_not_mem hplain]
  exact hnames.liesIn_intercalate_iff fun name hname => (h name hname).1.not_mem_slash

theorem liesIn_relativePath {pattern : String} {above : Location}
    (h : NamesDirectory pattern above) (hway : above <+: location) :
    LiesIn above (relativePath location) := by
  have htext : Path.normalize ("/".intercalate above) = "/".intercalate above :=
    Path.normalize_of_not_mem fun hc => (h.mem_text hc).2 rfl
  obtain ⟨rest, rfl⟩ := hway
  refine (Path.liesIn_iff h.ne_nil h.not_mem_slash).mpr ?_
  by_cases hnil : rest = []
  · subst hnil
    rw [relativePath, List.append_nil, htext]
    exact .inl rfl
  · rw [relativePath, String.intercalate_append_of_ne_nil h.ne_nil hnil, Path.normalize_append,
      Path.normalize_append, htext]
    exact .inr ⟨_, rfl⟩

theorem namesDirectory_packageDirectories :
    ∀ pattern ∈ packageDirectories, NamesDirectory pattern [pattern] := by
  have hnames : ∀ pattern ∈ packageDirectories, Patterns.IsComponent pattern ∧
      '.' ∉ pattern.toList.drop 1 ∧ Text.trim pattern.toList = ("" ++ pattern).toList ++ [] := by
    decide
  intro pattern hpattern
  obtain ⟨hname, hextension, htrim⟩ := hnames pattern hpattern
  exact .single hname hextension "" 0 List.mem_cons_self htrim

theorem not_mem_foundFiles_of_outDir (h : t.WellNamed) {out : String} {outputs : Location}
    (hexcludes : c.excludes = none) (hout : c.optionsOrNone.outDir = some out)
    (hnames : NamesDirectory out outputs) (hbelow : outputs <+: location) :
    Path.normalize (pathBelow directory location) ∉ c.foundFiles directory t := by
  have hpatterns : c.excludePatterns = packageDirectories ++ [out] := by
    rw [excludePatterns, hexcludes, hout]
    rfl
  have hdirectories : ∀ pattern ∈ c.excludePatterns, ∃ directory,
      NamesDirectory pattern directory := by
    intro pattern hpattern
    rw [hpatterns] at hpattern
    rcases List.mem_append.mp hpattern with hpackage | hlast
    · exact ⟨_, namesDirectory_packageDirectories pattern hpackage⟩
    · obtain rfl := List.mem_singleton.mp hlast
      exact ⟨outputs, hnames⟩
  have hlies : LiesIn outputs (relativePath location) := liesIn_relativePath hnames hbelow
  have hrelative : Path.isAbsolute ("/".intercalate location) = false := by
    obtain ⟨name, names, hcons⟩ := List.exists_cons_of_ne_nil hnames.ne_nil
    obtain ⟨rest, rfl⟩ := hbelow
    rw [hcons, List.cons_append]
    exact isAbsolute_cons (hnames.component name (by simp [hcons])).toIsFileName _
  intro hfound
  obtain ⟨found, hfile, -, -, hkept, heq⟩ := (mem_foundFiles_iff_kept h).mp hfound
  have hsame : relativePath location = relativePath found :=
    Path.normalize_join_inj hrelative (isAbsolute_intercalate h hfile) directory heq
  have hmatch := (Patterns.isMatch_read_iff hdirectories).mpr
    ⟨out, by simp [hpatterns], outputs, hnames, hsame ▸ hlies⟩
  rw [hkept.file] at hmatch
  cases hmatch

/-- Patterns that name directories match what lies in these directories, at any depth, and nothing
else. So outputs are not found again as long as a configuration does not say itself what it
excludes, and directories that are included lead to the sources in them that are not left out. -/
theorem directories_match_what_lies_in :
    (∀ patterns : List String,
      (∀ pattern ∈ patterns, ∃ directory, NamesDirectory pattern directory) →
      ∀ names : List String, (∀ name ∈ names, IsFileName name) →
        (Patterns.isMatch (Patterns.read patterns) ("/".intercalate names) = true ↔
          ∃ pattern ∈ patterns, ∃ directory, NamesDirectory pattern directory ∧
            directory <+: names)) ∧
    (∀ (c : Config) (directory : String) (t : FileTree) (out : String) (outputs : Location),
      t.WellNamed → c.excludes = none → c.optionsOrNone.outDir = some out →
      NamesDirectory out outputs → ∀ location, outputs <+: location →
        Path.normalize (pathBelow directory location) ∉ c.foundFiles directory t) ∧
    (∀ (c : Config) (directory : String) (t : FileTree) (patterns : List String),
      t.WellNamed → c.includes = some patterns →
      (∀ pattern ∈ patterns, ∃ included, NamesDirectory pattern included) →
      ∀ x, x ∈ c.foundFiles directory t ↔ ∃ location, t.HasFile location ∧
        SourceName.isSupported (relativePath location) = true ∧
        (∃ pattern ∈ patterns, ∃ included, NamesDirectory pattern included ∧
          LiesIn included (relativePath location)) ∧
        c.Kept directory location ∧ x = Path.normalize (pathBelow directory location)) ∧
    ∀ (pattern : String) (included location : Location), NamesDirectory pattern included →
      (∀ name ∈ location, IsFileName name ∧ '\\' ∉ name.toList) →
      (LiesIn included (relativePath location) ↔ included <+: location) := by
  refine ⟨fun patterns hpatterns names hnames => ?_, fun c directory t out outputs ht hexcludes
    hout houtputs location => not_mem_foundFiles_of_outDir ht hexcludes hout houtputs,
    fun c directory t patterns ht hincludes hpatterns x => ?_,
    fun pattern included location hnames => liesIn_relativePath_iff hnames⟩
  · rw [Patterns.isMatch_read_iff hpatterns]
    have hslash : ∀ name ∈ names, '/' ∉ name.toList := fun name hname =>
      (hnames name hname).not_mem_slash
    refine exists_congr fun pattern => and_congr_right fun _ => exists_congr fun directory => ?_
    exact and_congr_right fun h => h.liesIn_intercalate_iff hslash
  · have hsearched : c.includePatterns = patterns := by rw [includePatterns, hincludes]
    rw [mem_foundFiles_iff_kept ht, hsearched]
    simp only [Patterns.isMatch_read_iff hpatterns]

/-- A configuration by which the outputs are written beside the sources. -/
def writesBeside : Config :=
  { options := some { outDir := some "./src/" } }

/-- A source is found where its directory is included, and not where it is that of the outputs. A
directory with a longer name is another one. -/
theorem sourceDirectory_lies_in :
    "p/src/a.ts" ∈ listsIncluded.foundFiles "p" sourceDirectory ∧
      "p/src/a.ts" ∉ writesBeside.foundFiles "p" sourceDirectory ∧
      Patterns.isMatch (Patterns.read ["src"]) "src/lib/a.ts" = true ∧
      Patterns.isMatch (Patterns.read ["src"]) "src2/a.ts" = false := by
  have hname : Patterns.IsComponent "src" := by decide
  have hsrc : NamesDirectory "src" ["src"] :=
    .single hname (by decide) "" 0 (by decide) (by decide)
  have hout : NamesDirectory "./src/" ["src"] :=
    .single hname (by decide) "./" 1 (by decide) (by decide)
  have hpatterns : ∀ pattern ∈ ["src"], ∃ directory, NamesDirectory pattern directory := by
    simpa using ⟨_, hsrc⟩
  have hkept : listsIncluded.Kept "p" ["src", "a.ts"] := by
    refine ⟨by decide +kernel, fun above name hway hne => ?_⟩
    obtain ⟨rfl, rfl⟩ := eq_of_concat_prefix_pair hway hne
    decide +kernel
  have hnamed := sourceDirectory_searchable.wellNamed
  obtain ⟨hmatch, houtputs, hfound, -⟩ := directories_match_what_lies_in
  have hmatches := hmatch ["src"] hpatterns
  refine ⟨?_, ?_, ?_, ?_⟩
  · refine (hfound listsIncluded "p" _ _ hnamed rfl hpatterns _).mpr ⟨_, ⟨.empty, rfl⟩, by decide,
      ⟨"src", List.mem_cons_self, _, hsrc, liesIn_relativePath hsrc ⟨_, rfl⟩⟩, hkept, by decide⟩
  · exact houtputs writesBeside "p" _ _ _ hnamed rfl rfl hout ["src", "a.ts"] ⟨_, rfl⟩
  · exact (hmatches ["src", "lib", "a.ts"] (by decide)).mpr
      ⟨_, List.mem_cons_self, _, hsrc, ⟨_, rfl⟩⟩
  · refine Bool.eq_false_iff.mpr fun hlonger => ?_
    obtain ⟨pattern, hpattern, directory, hnames, hprefix⟩ :=
      (hmatches ["src2", "a.ts"] (by decide)).mp hlonger
    obtain rfl := List.mem_singleton.mp hpattern
    obtain rfl := hsrc.unique hnames
    exact absurd hprefix (by decide)

end Config

end TypeAtlas
