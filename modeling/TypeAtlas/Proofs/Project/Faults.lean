import TypeAtlas.Project.Inputs
import TypeAtlas.Proofs.Project.Lineage

/-! How loading a configuration fails. The configurations extend one another up to the first that
leads back to an earlier one, cannot be read or is malformed. The error names that one behind those
that led to it, and a project has the diagnostic that its fault decides. -/

namespace TypeAtlas

namespace ConfigFault

def code? : ConfigFault → Option UInt32
  | circular _ => some 18000
  | unreadable _ _ => some 5083
  | malformed _ _ => some 5014
  | noDirectory => none

theorem code?_eq_diagnostic_code {fault : ConfigFault} (h : fault ≠ .noDirectory)
    (start : String) : fault.code? = some (fault.diagnostic start).code := by
  cases fault with
  | circular => rfl
  | unreadable => rfl
  | malformed => rfl
  | noDirectory => exact absurd rfl h

end ConfigFault

theorem Path.exists_parent? {path : String} (h : names path.toList ≠ []) :
    ∃ directory, parent? path = some directory := by
  cases ht : trailing path.toList with
  | nil => exact absurd (by rw [names_eq_trailing, ht]; rfl) h
  | cons last above => simp [parent?, ht]

namespace Files

section Definitions

variable (files : Files)

/-- What keeps the configuration at a path from being used, where those at the locations `earlier`
have been read before. The cases are in the order in which they are looked for. -/
inductive Faulty (earlier : List Location) (path : String) : ConfigFault → Prop
  | circular (repeats : files.Repeats earlier path) :
    Faulty earlier path (.circular (Path.normalize path))
  | unreadable {cause : FileFault} (new : ¬ files.Repeats earlier path)
    (read : files.readText path = .error cause) :
    Faulty earlier path (.unreadable (Path.normalize path) cause)
  | malformed {text : String} {cause : DecodeError} (new : ¬ files.Repeats earlier path)
    (read : files.readText path = .ok text) (parse : Config.parse text = .error cause) :
    Faulty earlier path (.malformed (Path.normalize path) cause)

/-- Configurations that are read, each under the path by which the one before extends it, and the
path to which the last of them leads. -/
inductive Leads : String → List (String × Location) → String → Prop
  | here {path : String} : Leads path [] path
  | next {path base target last : String} {location : Location} {config : Config}
    {line : List (String × Location)} (opens : files.Opens path location config)
    (h : config.base = some base) (at_target : basePath? path base = some target)
    (rest : Leads target line last) : Leads path ((path, location) :: line) last

/-- An error tells of the configurations that were read and of the first that could not be used. -/
structure FailsAt (path : String) (line : List (String × Location)) (last : String)
    (e : LoadError) : Prop where
  leads : files.Leads path line last
  distinct : (line.map Prod.snd).Nodup
  faulty : files.Faulty (line.map Prod.snd) last e.fault
  extending : e.extending = line.map fun c => Path.normalize c.1

end Definitions

variable {files : Files} {path : String} {visited : List Location} {fault fault' : ConfigFault}

theorem readText_of_locate_error {cause : FileFault} (h : files.locate path = .error cause) :
    files.readText path = .error cause := by
  simp [readText, find, h, bind, Except.bind]

theorem Faulty.of_visit (h : files.visit visited path = .error fault) :
    files.Faulty visited path fault := by
  unfold visit at h
  split at h
  · cases h
    exact .circular ‹_›
  · rename_i hnew
    split at h
    · rename_i hlocate
      cases h
      exact .unreadable hnew (readText_of_locate_error hlocate)
    · split at h
      · rename_i hread
        cases h
        exact .unreadable hnew hread
      · rename_i hread
        split at h
        · rename_i hparse
          cases h
          exact .malformed hnew hread hparse
        · cases h

theorem Faulty.unique (h : files.Faulty visited path fault)
    (h' : files.Faulty visited path fault') : fault = fault' := by
  cases h with
  | circular hrepeats =>
    cases h' with
    | circular => rfl
    | unreadable hnew => exact absurd hrepeats hnew
    | malformed hnew => exact absurd hrepeats hnew
  | unreadable hnew hread =>
    cases h' with
    | circular hrepeats => exact absurd hrepeats hnew
    | unreadable _ hread' =>
      cases hread.symm.trans hread'
      rfl
    | malformed _ hread' => cases hread.symm.trans hread'
  | malformed hnew hread hparse =>
    cases h' with
    | circular hrepeats => exact absurd hrepeats hnew
    | unreadable _ hread' => cases hread.symm.trans hread'
    | malformed _ hread' hparse' =>
      cases hread.symm.trans hread'
      cases hparse.symm.trans hparse'
      rfl

theorem Opens.not_faulty {location : Location} {config : Config}
    (h : files.Opens path location config) (hnew : location ∉ visited) :
    ¬ files.Faulty visited path fault := by
  obtain ⟨hlocate, text, hread, hparse⟩ := h
  intro hfaulty
  cases hfaulty with
  | circular hrepeats =>
    obtain ⟨location', hmem, hresolve⟩ := files.repeats_iff.mp hrepeats
    cases hresolve.symm.trans (files.resolve_of_locate hlocate)
    exact hnew hmem
  | unreadable _ hread' => cases hread.symm.trans hread'
  | malformed _ hread' hparse' =>
    cases hread.symm.trans hread'
    cases hparse.symm.trans hparse'

theorem visit_eq_error_iff :
    files.visit visited path = .error fault ↔ files.Faulty visited path fault := by
  refine ⟨.of_visit, fun h => ?_⟩
  cases hv : files.visit visited path with
  | error fault' => rw [h.unique (.of_visit hv)]
  | ok v =>
    obtain ⟨hopens, hnew⟩ := exists_visit_iff.mp ⟨v, hv, rfl, rfl⟩
    exact absurd h (hopens.not_faulty hnew)

theorem Faulty.congr {earlier : List Location} (hmem : ∀ location, location ∈ visited ↔
    location ∈ earlier) (h : files.Faulty visited path fault) :
    files.Faulty earlier path fault := by
  have hrepeats : files.Repeats visited path ↔ files.Repeats earlier path := by
    simp only [repeats_iff, hmem]
  cases h with
  | circular h => exact .circular (hrepeats.mp h)
  | unreadable hnew hread => exact .unreadable (hnew ∘ hrepeats.mpr) hread
  | malformed hnew hread hparse => exact .malformed (hnew ∘ hrepeats.mpr) hread hparse

theorem Faulty.ne_noDirectory (h : files.Faulty visited path fault) : fault ≠ .noDirectory := by
  cases h <;> exact nofun

theorem Opens.exists_basePath? {location : Location} {config : Config}
    (h : files.Opens path location config) (base : String) :
    ∃ target, basePath? path base = some target := by
  obtain ⟨directory, hdirectory⟩ :=
    Path.exists_parent? (names_ne_nil_of_locate h.1 h.isFile)
  exact ⟨_, by rw [basePath?, hdirectory]; rfl⟩

theorem FailsAt.of_loadFrom {e : LoadError} (hvisited : visited.Nodup)
    (h : files.loadFrom visited path = .error e) :
    ∃ line last, files.Leads path line last ∧ ((line.map Prod.snd).reverse ++ visited).Nodup ∧
      files.Faulty ((line.map Prod.snd).reverse ++ visited) last e.fault ∧
      e.extending = line.map fun c => Path.normalize c.1 := by
  fun_induction Files.loadFrom files visited path generalizing e with
  | case1 visited path fault hvisit =>
    cases h
    exact ⟨[], path, .here, hvisited, visit_eq_error_iff.mp hvisit, rfl⟩
  | case2 => cases h
  | case3 visited path v hvisit base hbase hnone =>
    obtain ⟨hopens, -⟩ := exists_visit_iff.mp ⟨v, hvisit, rfl, rfl⟩
    obtain ⟨target, htarget⟩ := hopens.exists_basePath? base
    cases hnone.symm.trans htarget
  | case4 visited path v hvisit base hbase target htarget e' hfails ih =>
    cases h
    obtain ⟨hopens, hnew⟩ := exists_visit_iff.mp ⟨v, hvisit, rfl, rfl⟩
    obtain ⟨line, last, hleads, hdistinct, hfaulty, hextending⟩ :=
      ih (List.nodup_cons.mpr ⟨hnew, hvisited⟩) hfails
    refine ⟨(path, v.location) :: line, last, .next hopens hbase htarget hleads, ?_, ?_, ?_⟩
    · simpa using hdistinct
    · simpa [LoadError.within] using hfaulty
    · simp [LoadError.within, hextending]
  | case5 => cases h

theorem Leads.loadFrom_eq {line : List (String × Location)} {last : String}
    (h : files.Leads path line last) (hdistinct : ((line.map Prod.snd).reverse ++ visited).Nodup)
    (hfaulty : files.Faulty ((line.map Prod.snd).reverse ++ visited) last fault) :
    files.loadFrom visited path = .error ⟨line.map fun c => Path.normalize c.1, fault⟩ := by
  induction h generalizing visited with
  | here =>
    rw [loadFrom, visit_eq_error_iff.mpr (by simpa using hfaulty)]
    rfl
  | @next path base target last location config line hopens hbase htarget hleads ih =>
    rw [List.map_cons, List.reverse_cons, List.append_assoc, List.singleton_append]
      at hdistinct hfaulty
    have hnew := (List.nodup_cons.mp (List.nodup_append.mp hdistinct).2.1).1
    obtain ⟨v, hvisit, rfl, rfl⟩ := exists_visit_iff.mpr ⟨hopens, hnew⟩
    rw [loadFrom, hvisit]
    simp [hbase, htarget, ih hdistinct hfaulty, LoadError.within]

theorem loadConfig_eq_error_iff {e : LoadError} :
    files.loadConfig path = .error e ↔ ∃ line last, files.FailsAt path line last e := by
  constructor
  · intro h
    obtain ⟨line, last, hleads, hdistinct, hfaulty, hextending⟩ := FailsAt.of_loadFrom .nil h
    exact ⟨line, last, hleads, by simpa using hdistinct, hfaulty.congr (by simp), hextending⟩
  · rintro ⟨line, last, hleads, hdistinct, hfaulty, hextending⟩
    have h : files.loadFrom [] path = .error ⟨_, e.fault⟩ :=
      hleads.loadFrom_eq (by simpa using hdistinct) (hfaulty.congr (by simp))
    rwa [← hextending] at h

end Files

theorem Project.load_of_loadConfig_error {files : Files} {project : String} {t : FileTree}
    {e : LoadError} (hfind : files.find project = .ok t)
    (h : files.loadConfig (places project t).2 = .error e) :
    load files project = failed (e.fault.diagnostic (Path.normalize (places project t).2)) := by
  simp only [load, loadWith, hfind, h]

namespace Files

/-- Loading a configuration fails exactly at the first on its line that cannot be used. The
messages are one for each configuration that led there, the first one in front, and then those of
the fault, which is one of a file. A project with that configuration has one diagnostic, and the
fault decides which. -/
theorem loadConfig_fails_at_first_fault (files : Files) (path : String) (e : LoadError) :
    (files.loadConfig path = .error e ↔ ∃ line last, files.FailsAt path line last e) ∧
    ∀ line last, files.FailsAt path line last e →
      e.messages = (line.map fun c => "while resolving extends of " ++ Path.normalize c.1) ++
        e.fault.messages ∧
      e.fault ≠ .noDirectory ∧
      ∀ project t, files.find project = .ok t → (Project.places project t).2 = path →
        ∃ d, Project.load files project = Project.failed d ∧ e.fault.code? = some d.code := by
  refine ⟨loadConfig_eq_error_iff, fun line last h => ?_⟩
  have hfault := h.faulty.ne_noDirectory
  refine ⟨?_, hfault, fun project t hfind hplace => ?_⟩
  · rw [LoadError.messages, h.extending, List.map_map]
    rfl
  · have hload := loadConfig_eq_error_iff.mpr ⟨line, last, h⟩
    have hproject := Project.load_of_loadConfig_error hfind (hplace ▸ hload)
    exact ⟨_, hproject, ConfigFault.code?_eq_diagnostic_code hfault _⟩

def ownBaseText : String :=
  "\x7b\"extends\":\"./a.json\"\x7d"

/-- A configuration that extends itself. -/
def ownBase : Files where
  root := .directory [("a.json", .file ownBaseText.toUTF8)]
  current := []

theorem ownBase_fails_at_itself :
    ownBase.loadConfig "a.json" = .error ⟨["a.json"], .circular "./a.json"⟩ ∧
      ∃ d, Project.load ownBase "a.json" = Project.failed d ∧ d.code = 18000 := by
  have hget : ownBase.root.get? ["a.json"] = some (.file ownBaseText.toUTF8) := by
    simp [ownBase, FileTree.get?, FileTree.entries]
  have hlocate : ownBase.locate "a.json" = .ok ["a.json"] := by
    have hsize : "a.json".utf8ByteSize = 6 := by decide
    simp [locate, resolve, Text.split, step, ownBase, FileTree.get?, maxPath, maxName, hsize]
  have hparse : Config.parse ownBaseText = .ok { base := some "./a.json" } := by cbv
  have htarget : basePath? "a.json" "./a.json" = some "./a.json" := by
    have hname : withJson "./a.json" = "./a.json" := by decide
    rw [basePath?, hname]
    simp [Path.parent?, Path.anchor, Path.trailing, Text.split, Path.join, Path.isAbsolute,
      Path.isEmptyComponent]
  have hresolve : ownBase.resolve "./a.json" = .ok ["a.json"] := by
    have hname : "a.json".utf8ByteSize = 6 := by decide
    simp [resolve, Text.split, step, ownBase, FileTree.get?, maxName, hname, bind, Except.bind,
      pure, Except.pure]
  have hrepeats : ownBase.Repeats [["a.json"]] "./a.json" :=
    ownBase.repeats_iff.mpr ⟨_, List.mem_cons_self, hresolve⟩
  have hfaulty : ownBase.Faulty [["a.json"]] "./a.json" (.circular "./a.json") := by
    have hpath : Path.normalize "./a.json" = "./a.json" := by decide
    exact hpath ▸ .circular hrepeats
  have hfails : ownBase.FailsAt "a.json" [("a.json", ["a.json"])] "./a.json"
      ⟨["a.json"], .circular "./a.json"⟩ :=
    ⟨.next ⟨hlocate, _, readText_of_locate hlocate hget, hparse⟩ rfl htarget .here, by simp,
      hfaulty, by decide⟩
  obtain ⟨hload, hreports⟩ := loadConfig_fails_at_first_fault ownBase "a.json"
    ⟨["a.json"], .circular "./a.json"⟩
  obtain ⟨-, -, hproject⟩ := hreports _ _ hfails
  have hfind : ownBase.find "a.json" = .ok (.file ownBaseText.toUTF8) := by
    simp [find, hlocate, hget, bind, Except.bind, pure, Except.pure]
  obtain ⟨d, hd, hcode⟩ := hproject "a.json" _ hfind rfl
  exact ⟨hload.mpr ⟨_, _, hfails⟩, d, hd, (Option.some.inj hcode).symm⟩

end Files

end TypeAtlas
