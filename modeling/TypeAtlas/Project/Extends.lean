import TypeAtlas.Files.Locations
import TypeAtlas.Files.Path
import TypeAtlas.Project.Config

/-! Loading a configuration together with those it extends. -/

namespace TypeAtlas

inductive ConfigFault where
  | unreadable (path : String) (cause : FileFault)
  | malformed (path : String) (cause : DecodeError)
  | circular (path : String)
  /-- The path has no directory in which a path that is not absolute could begin. -/
  | noDirectory
deriving DecidableEq

/-- A fault and the configurations that led to it by extending each other, the first one in
front. -/
structure LoadError where
  extending : List String
  fault : ConfigFault
deriving DecidableEq

namespace ConfigFault

def messages : ConfigFault → List String
  | unreadable path cause => ["cannot read file '" ++ path ++ "'", cause.message]
  | malformed path cause =>
    ["failed to parse file '" ++ path ++ "': failed to parse tsconfig JSON: " ++ cause.message]
  | circular path => ["circularity detected while resolving configuration: " ++ path]
  | noDirectory => ["tsconfig has no parent directory"]

end ConfigFault

namespace LoadError

def messages (e : LoadError) : List String :=
  e.extending.map ("while resolving extends of " ++ ·) ++ e.fault.messages

def within (path : String) (e : LoadError) : LoadError :=
  { e with extending := path :: e.extending }

end LoadError

/-- Names of configurations may do without their extension. -/
def withJson (name : String) : String :=
  if ".json".toList.isSuffixOf name.toList then name else name ++ ".json"

/-- The path of the configuration that the one at `path` extends under the name `base`. -/
def basePath? (path base : String) : Option String :=
  (Path.parent? path).map fun directory => Path.join directory (withJson base)

namespace Files

variable (files : Files)

/-- A configuration that has been read, with its location, which has not been visited before. -/
structure Visit (visited : List Location) where
  location : Location
  config : Config
  mem : location ∈ files.locations
  not_mem : location ∉ visited

/-- A path leads to a file that has been visited. It may be too long to read the file by it. -/
def Repeats (visited : List Location) (path : String) : Prop :=
  match files.resolve path with
  | .ok location => location ∈ visited
  | .error _ => False

instance (visited : List Location) (path : String) : Decidable (files.Repeats visited path) :=
  match h : files.resolve path with
  | .ok location => decidable_of_iff (location ∈ visited) (by simp [Repeats, h])
  | .error _ => .isFalse (by simp [Repeats, h])

theorem repeats_iff {visited : List Location} {path : String} :
    files.Repeats visited path ↔ ∃ location ∈ visited, files.resolve path = .ok location := by
  cases h : files.resolve path <;> simp [Repeats, h]

theorem not_mem_of_not_repeats {visited : List Location} {path : String} {location : Location}
    (hl : files.locate path = .ok location) (h : ¬ files.Repeats visited path) :
    location ∉ visited := fun hmem =>
  h (files.repeats_iff.2 ⟨location, hmem, files.resolve_of_locate hl⟩)

def visit (visited : List Location) (path : String) : Except ConfigFault (files.Visit visited) :=
  if hv : files.Repeats visited path then .error (.circular (Path.normalize path))
  else
    match hl : files.locate path with
    | .error cause => .error (.unreadable (Path.normalize path) cause)
    | .ok location =>
      match ht : files.readText path with
      | .error cause => .error (.unreadable (Path.normalize path) cause)
      | .ok text =>
        match Config.parse text with
        | .error cause => .error (.malformed (Path.normalize path) cause)
        | .ok config =>
          .ok ⟨location, config, files.mem_locations_of_readText hl ht,
            files.not_mem_of_not_repeats hl hv⟩

/-- Loads the configuration at `path`, of which those at the locations `visited` are extensions.
Every step visits a file that has not been visited before. -/
def loadFrom (visited : List Location) (path : String) : Except LoadError Config :=
  match files.visit visited path with
  | .error fault => .error ⟨[], fault⟩
  | .ok v =>
    match v.config.base with
    | none => .ok v.config
    | some base =>
      match basePath? path base with
      | none => .error ⟨[], .noDirectory⟩
      | some target =>
        match loadFrom (v.location :: visited) target with
        | .error e => .error (e.within (Path.normalize path))
        | .ok loaded => .ok (v.config.extend loaded)
termination_by (files.unvisited visited).length
decreasing_by exact files.unvisited_cons_lt v.mem v.not_mem

/-- The configuration at a path, with what it takes over from those it extends. -/
def loadConfig (path : String) : Except LoadError Config :=
  files.loadFrom [] path

end Files

end TypeAtlas
