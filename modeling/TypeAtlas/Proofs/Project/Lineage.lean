import TypeAtlas.Project.Extends
import TypeAtlas.Proofs.Files.Following

/-! Configurations that extend one another. Loading one succeeds exactly when its line ends in a
configuration that extends none, with every file on it read once, and what is loaded has each
setting from the nearest configuration on the line that has it. -/

namespace TypeAtlas

/-- A single compiler option, by the type of its values. -/
inductive CompilerSetting : Type → Type
  | target : CompilerSetting String
  | module : CompilerSetting String
  | moduleResolution : CompilerSetting String
  | lib : CompilerSetting (List String)
  | rootDir : CompilerSetting String
  | outDir : CompilerSetting String
  | declaration : CompilerSetting Bool
  | strict : CompilerSetting Bool
  | noEmit : CompilerSetting Bool
  | experimentalDecorators : CompilerSetting Bool

def CompilerSetting.get? {α : Type} : CompilerSetting α → CompilerOptions → Option α
  | target => CompilerOptions.target
  | module => CompilerOptions.module
  | moduleResolution => CompilerOptions.moduleResolution
  | lib => CompilerOptions.lib
  | rootDir => CompilerOptions.rootDir
  | outDir => CompilerOptions.outDir
  | declaration => CompilerOptions.declaration
  | strict => CompilerOptions.strict
  | noEmit => CompilerOptions.noEmit
  | experimentalDecorators => CompilerOptions.experimentalDecorators

theorem CompilerSetting.get?_extend {α : Type} (s : CompilerSetting α)
    (options base : CompilerOptions) :
    s.get? (options.extend base) = (s.get? options).or (s.get? base) := by
  cases s <;> rfl

namespace Config

def compilerSetting? {α : Type} (s : CompilerSetting α) (c : Config) : Option α :=
  c.options.bind s.get?

/-- Every setting of `c` is that of the nearest configuration on a line that has it. -/
structure TakesNearest (line : List Config) (c : Config) : Prop where
  base : c.base = none
  includes : c.includes = line.findSome? Config.includes
  excludes : c.excludes = line.findSome? Config.excludes
  files : c.files = line.findSome? Config.files
  options : c.options.isSome ↔ ∃ x ∈ line, x.options.isSome
  setting : ∀ {α : Type} (s : CompilerSetting α),
    c.compilerSetting? s = line.findSome? (compilerSetting? s)

theorem compilerSetting?_extend {α : Type} (s : CompilerSetting α) (c base : Config) :
    (c.extend base).compilerSetting? s = (c.compilerSetting? s).or (base.compilerSetting? s) := by
  simp only [compilerSetting?, extend]
  cases c.options <;> cases base.options <;> simp [Option.merge, s.get?_extend]

theorem TakesNearest.single {c : Config} (h : c.base = none) : TakesNearest [c] c where
  base := h
  includes := by simp
  excludes := by simp
  files := by simp
  options := by simp
  setting s := by simp

theorem TakesNearest.extend {line : List Config} {base : Config} (h : TakesNearest line base)
    (c : Config) : TakesNearest (c :: line) (c.extend base) where
  base := rfl
  includes := by
    rw [List.findSome?_cons, ← h.includes]
    cases hc : c.includes <;> simp [Config.extend, hc]
  excludes := by
    rw [List.findSome?_cons, ← h.excludes]
    cases hc : c.excludes <;> simp [Config.extend, hc]
  files := by
    rw [List.findSome?_cons, ← h.files]
    cases hc : c.files <;> simp [Config.extend, hc]
  options := by
    simp only [List.mem_cons, exists_eq_or_imp, ← h.options]
    cases hc : c.options <;> cases hb : base.options <;> simp [Config.extend, hc, hb, Option.merge]
  setting s := by
    rw [List.findSome?_cons, ← h.setting s, compilerSetting?_extend]
    cases c.compilerSetting? s <;> rfl

end Config

namespace Files

section Definitions

variable (files : Files)

def Opens (path : String) (location : Location) (config : Config) : Prop :=
  files.locate path = .ok location ∧
    ∃ text, files.readText path = .ok text ∧ Config.parse text = .ok config

/-- The configurations that extend one another, from the one at a path to one that extends none,
with the locations of their files. -/
inductive Lineage : String → List (Location × Config) → Prop
  | last {path : String} {location : Location} {config : Config}
    (opens : files.Opens path location config) (h : config.base = none) :
    Lineage path [(location, config)]
  | next {path base target : String} {location : Location} {config : Config}
    {line : List (Location × Config)} (opens : files.Opens path location config)
    (h : config.base = some base) (at_target : basePath? path base = some target)
    (rest : Lineage target line) : Lineage path ((location, config) :: line)

/-- A configuration extends another one by a name that leads to it from its own directory. -/
def Extends (a b : Location × Config) : Prop :=
  ∃ base, a.2.base = some base ∧ files.follow a.1.dropLast (withJson base) = .ok b.1

end Definitions

variable {files : Files}

theorem exists_visit_iff {visited : List Location} {path : String} {location : Location}
    {config : Config} :
    (∃ v, files.visit visited path = .ok v ∧ v.location = location ∧ v.config = config) ↔
      files.Opens path location config ∧ location ∉ visited := by
  constructor
  · rintro ⟨v, hv, rfl, rfl⟩
    refine ⟨?_, v.not_mem⟩
    unfold visit at hv
    split at hv
    · cases hv
    · split at hv
      · cases hv
      · rename_i hl
        split at hv
        · cases hv
        · rename_i ht
          split at hv
          · cases hv
          · rename_i hc
            cases hv
            exact ⟨hl, _, ht, hc⟩
  · rintro ⟨⟨hl, text, ht, hc⟩, hv⟩
    have hnew : ¬ files.Repeats visited path := by
      rw [repeats_iff]
      rintro ⟨location', hmem, hresolve⟩
      cases hresolve.symm.trans (files.resolve_of_locate hl)
      exact hv hmem
    refine ⟨⟨location, config, files.mem_locations_of_readText hl ht, hv⟩, ?_, rfl, rfl⟩
    unfold visit
    rw [dif_neg hnew]
    split
    · rename_i h
      cases hl.symm.trans h
    · rename_i h
      cases hl.symm.trans h
      split
      · rename_i h
        cases ht.symm.trans h
      · rename_i h
        cases ht.symm.trans h
        split
        · rename_i h
          cases hc.symm.trans h
        · rename_i h
          cases hc.symm.trans h
          rfl

theorem Lineage.of_loadFrom {visited : List Location} {path : String} {c : Config}
    (h : files.loadFrom visited path = .ok c) :
    ∃ line, files.Lineage path line ∧ (line.map Prod.fst).Nodup ∧
      (∀ x ∈ line, x.1 ∉ visited) ∧ Config.TakesNearest (line.map Prod.snd) c := by
  fun_induction Files.loadFrom files visited path generalizing c with
  | case1 => cases h
  | case2 visited path v hvisit hbase =>
    cases h
    obtain ⟨hopens, hnew⟩ := exists_visit_iff.mp ⟨v, hvisit, rfl, rfl⟩
    exact ⟨_, .last hopens hbase, by simp, by simpa using hnew, .single hbase⟩
  | case3 => cases h
  | case4 => cases h
  | case5 visited path v hvisit base hbase target htarget loaded hloaded ih =>
    cases h
    obtain ⟨hopens, hnew⟩ := exists_visit_iff.mp ⟨v, hvisit, rfl, rfl⟩
    obtain ⟨line, hline, hnodup, hfresh, htakes⟩ := ih hloaded
    refine ⟨_, .next hopens hbase htarget hline, ?_, ?_, htakes.extend v.config⟩
    · refine List.nodup_cons.mpr ⟨fun hmem => ?_, hnodup⟩
      obtain ⟨x, hx, heq⟩ := List.mem_map.mp hmem
      exact hfresh x hx (heq ▸ List.mem_cons_self)
    · refine List.forall_mem_cons.mpr ⟨hnew, fun x hx hv => ?_⟩
      exact hfresh x hx (List.mem_cons_of_mem _ hv)

theorem Lineage.exists_loadFrom {path : String} {line : List (Location × Config)}
    (h : files.Lineage path line) {visited : List Location} (hnodup : (line.map Prod.fst).Nodup)
    (hfresh : ∀ x ∈ line, x.1 ∉ visited) : ∃ c, files.loadFrom visited path = .ok c := by
  induction h generalizing visited with
  | last hopens hbase =>
    obtain ⟨v, hvisit, rfl, rfl⟩ :=
      exists_visit_iff.mpr ⟨hopens, hfresh _ List.mem_cons_self⟩
    refine ⟨v.config, ?_⟩
    simp [loadFrom, hvisit, hbase]
  | @next path base target location config line hopens hbase htarget hline ih =>
    obtain ⟨v, hvisit, rfl, rfl⟩ :=
      exists_visit_iff.mpr ⟨hopens, hfresh _ List.mem_cons_self⟩
    obtain ⟨hfirst, hrest⟩ := List.nodup_cons.mp hnodup
    have hfresh' : ∀ x ∈ line, x.1 ∉ v.location :: visited := by
      intro x hx hmem
      rcases List.mem_cons.mp hmem with heq | hmem
      · exact hfirst (List.mem_map.mpr ⟨x, hx, heq⟩)
      · exact hfresh x (List.mem_cons_of_mem _ hx) hmem
    obtain ⟨loaded, hloaded⟩ := ih hrest hfresh'
    refine ⟨v.config.extend loaded, ?_⟩
    rw [loadFrom, hvisit]
    simp [hbase, htarget, hloaded]

theorem Opens.unique {path : String} {location location' : Location} {config config' : Config}
    (h : files.Opens path location config) (h' : files.Opens path location' config') :
    location = location' ∧ config = config' := by
  obtain ⟨hl, text, ht, hc⟩ := h
  obtain ⟨hl', text', ht', hc'⟩ := h'
  cases hl.symm.trans hl'
  cases ht.symm.trans ht'
  cases hc.symm.trans hc'
  exact ⟨rfl, rfl⟩

theorem Lineage.unique {path : String} {line line' : List (Location × Config)}
    (h : files.Lineage path line) (h' : files.Lineage path line') : line = line' := by
  induction h generalizing line' with
  | last hopens hbase =>
    cases h' with
    | last hopens' hbase' =>
      obtain ⟨rfl, rfl⟩ := hopens.unique hopens'
      rfl
    | next hopens' hbase' =>
      obtain ⟨rfl, rfl⟩ := hopens.unique hopens'
      cases hbase.symm.trans hbase'
  | next hopens hbase htarget _ ih =>
    cases h' with
    | last hopens' hbase' =>
      obtain ⟨rfl, rfl⟩ := hopens.unique hopens'
      cases hbase.symm.trans hbase'
    | next hopens' hbase' htarget' hrest' =>
      obtain ⟨rfl, rfl⟩ := hopens.unique hopens'
      cases hbase.symm.trans hbase'
      cases htarget.symm.trans htarget'
      rw [ih hrest']

theorem Opens.isFile {path : String} {location : Location} {config : Config}
    (h : files.Opens path location config) : files.IsFile location := by
  obtain ⟨hl, text, ht, -⟩ := h
  simp only [readText, find, hl, bind, Except.bind] at ht
  cases hget : files.root.get? location with
  | none => simp [hget] at ht
  | some t =>
    cases t with
    | directory => simp [hget, pure, Except.pure] at ht
    | file contents => exact ⟨contents, hget⟩

theorem Opens.extends_of_basePath? {path base target : String} {location location' : Location}
    {config config' : Config} (h : files.Opens path location config)
    (hbase : config.base = some base) (htarget : basePath? path base = some target)
    (h' : files.Opens target location' config') :
    files.Extends (location, config) (location', config') := by
  obtain ⟨directory, hparent, rfl⟩ := Option.map_eq_some_iff.mp htarget
  have habove := follow_parent? hparent (names_ne_nil_of_locate h.1 h.isFile) h.isFile
    (follow_of_locate h.1)
  have hnext := follow_of_locate h'.1
  rw [follow_join habove] at hnext
  exact ⟨base, hbase, hnext⟩

theorem Lineage.exists_opens {path : String} {line : List (Location × Config)}
    (h : files.Lineage path line) :
    ∃ location config rest, line = (location, config) :: rest ∧
      files.Opens path location config := by
  cases h with
  | last hopens => exact ⟨_, _, _, rfl, hopens⟩
  | next hopens => exact ⟨_, _, _, rfl, hopens⟩

theorem Lineage.isChain {path : String} {line : List (Location × Config)}
    (h : files.Lineage path line) : line.IsChain files.Extends := by
  induction h with
  | last => exact .singleton _
  | next hopens hbase htarget hline ih =>
    obtain ⟨location, config, rest, rfl, hopens'⟩ := hline.exists_opens
    exact .cons_cons (hopens.extends_of_basePath? hbase htarget hopens') ih

theorem readText_of_locate {path text : String} {location : Location}
    (hlocate : files.locate path = .ok location)
    (hfile : files.root.get? location = some (.file text.toUTF8)) :
    files.readText path = .ok text := by
  have htext : String.fromUTF8? text.toUTF8 = some text := dif_pos text.isValidUTF8
  simp only [readText, find, hlocate, hfile, bind, Except.bind, pure, Except.pure, htext]

/-- A configuration is loaded exactly when its line ends, and no file is on the line twice. Every
configuration on the line is found from the directory of the one that extends it, and the settings
are those of the nearest configuration that has them. -/
theorem loadConfig_takes_nearest (files : Files) (path : String) :
    ((∃ c, files.loadConfig path = .ok c) ↔
      ∃ line, files.Lineage path line ∧ (line.map Prod.fst).Nodup) ∧
    ∀ line, files.Lineage path line → line.IsChain files.Extends ∧
      ∀ c, files.loadConfig path = .ok c → Config.TakesNearest (line.map Prod.snd) c := by
  refine ⟨⟨fun ⟨c, hc⟩ => ?_, fun ⟨line, hline, hnodup⟩ => ?_⟩,
    fun line hline => ⟨hline.isChain, fun c hc => ?_⟩⟩
  · obtain ⟨line, hline, hnodup, -, -⟩ := Lineage.of_loadFrom hc
    exact ⟨line, hline, hnodup⟩
  · exact hline.exists_loadFrom hnodup fun _ _ => List.not_mem_nil
  · obtain ⟨line', hline', -, -, htakes⟩ := Lineage.of_loadFrom hc
    rwa [hline.unique hline']

def childText : String :=
  "\x7b\"extends\":\"./b\",\"files\":[]\x7d"

def baseText : String :=
  "\x7b\"files\":[\"x\"],\"include\":[\"y\"]\x7d"

/-- A configuration with an empty list of files extends one whose list is not empty. -/
def childAndBase : Files where
  root := .directory
    [("a.json", .file childText.toUTF8), ("b.json", .file baseText.toUTF8)]
  current := []

theorem childAndBase_takes_nearest :
    ∃ c, childAndBase.loadConfig "a.json" = .ok c ∧
      c.base = none ∧ c.files = some [] ∧ c.includes = some ["y"] := by
  have hlocate : childAndBase.locate "a.json" = .ok ["a.json"] := by
    have hsize : "a.json".utf8ByteSize = 6 := by decide
    simp [locate, resolve, Text.split, step, childAndBase, FileTree.get?, maxPath, maxName, hsize]
  have hread : childAndBase.readText "a.json" = .ok childText :=
    readText_of_locate hlocate (by simp [childAndBase, FileTree.get?, FileTree.entries])
  have hparse : Config.parse childText = .ok { base := some "./b", files := some [] } := by cbv
  have htarget : basePath? "a.json" "./b" = some "./b.json" := by
    have hname : withJson "./b" = "./b.json" := by
      have hsuffix : ¬ ".json".toList.isSuffixOf "./b".toList = true := by decide
      rw [withJson, if_neg hsuffix]
      simp
    rw [basePath?, hname]
    simp [Path.parent?, Path.anchor, Path.trailing, Text.split, Path.join, Path.isAbsolute,
      Path.isEmptyComponent]
  have hlocate' : childAndBase.locate "./b.json" = .ok ["b.json"] := by
    have hsize : "./b.json".utf8ByteSize = 8 := by decide
    have hname : "b.json".utf8ByteSize = 6 := by decide
    simp [locate, resolve, Text.split, step, childAndBase, FileTree.get?, maxPath, maxName, hsize, hname,
      bind, Except.bind, pure, Except.pure]
  have hread' : childAndBase.readText "./b.json" = .ok baseText :=
    readText_of_locate hlocate'
      (by simp [childAndBase, FileTree.get?, FileTree.entries, List.lookup_cons])
  have hparse' : Config.parse baseText =
      .ok { files := some ["x"], includes := some ["y"] } := by cbv
  have hline : childAndBase.Lineage "a.json" _ :=
    .next ⟨hlocate, _, hread, hparse⟩ rfl htarget (.last ⟨hlocate', _, hread', hparse'⟩ rfl)
  obtain ⟨hloads, htakes⟩ := loadConfig_takes_nearest childAndBase "a.json"
  obtain ⟨c, hc⟩ := hloads.mpr ⟨_, hline, by simp⟩
  have hnearest := (htakes _ hline).2 c hc
  exact ⟨c, hc, hnearest.base, hnearest.files, hnearest.includes⟩

end Files

end TypeAtlas
