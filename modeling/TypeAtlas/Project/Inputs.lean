import TypeAtlas.Diagnostics.Diagnostic
import TypeAtlas.Files.SourceName
import TypeAtlas.Project.Extends
import TypeAtlas.Project.Patterns
import TypeAtlas.Text.Ascending

/-! The input files of a project: those that its configuration lists, and those below the
directory of the configuration that it includes by patterns. -/

namespace TypeAtlas

namespace Config

/-- The options of a configuration; without any, all of them are left out. -/
def optionsOrNone (c : Config) : CompilerOptions :=
  c.options.getD {}

def everything : List String :=
  ["**/*"]

def packageDirectories : List String :=
  ["node_modules", "bower_components", "jspm_packages"]

/-- The patterns for inputs that are found by a search. A configuration that lists files searches
only if it says so. -/
def includePatterns (c : Config) : List String :=
  match c.includes, c.files with
  | some patterns, _ => patterns
  | none, some _ => []
  | none, none => everything

/-- The patterns for what a search leaves out: by default packages and the outputs. -/
def excludePatterns (c : Config) : List String :=
  c.excludes.getD (packageDirectories ++ c.optionsOrNone.outDir.toList)

def listedPath (directory file : String) : String :=
  Path.normalize <|
    if Path.isAbsolute file then file
    else Path.join directory (String.ofList (Patterns.dropLeading ['.', '/'] file.toList))

def listedFiles (c : Config) (directory : String) : List String :=
  ((c.files.getD []).map (listedPath directory)).filter SourceName.isSupported

def relativePath (location : Location) : String :=
  Path.normalize ("/".intercalate location)

def pathBelow (directory : String) (location : Location) : String :=
  Path.join directory ("/".intercalate location)

/-- A search does not enter packages, excluded directories and those with a path that is too long.
It enters the directory in which it begins in any case. -/
def enters (directory : String) (excludes : List Glob.Pattern) (location : Location) : Bool :=
  match location.getLast? with
  | none => true
  | some name =>
    !packageDirectories.contains name && !Patterns.isMatch excludes (relativePath location) &&
      (pathBelow directory location).utf8ByteSize < Files.maxPath

def isIncluded (includes excludes : List Glob.Pattern) (location : Location) : Bool :=
  let path := relativePath location
  SourceName.isSupported path && Patterns.isMatch includes path && !Patterns.isMatch excludes path

def foundFiles (c : Config) (directory : String) (t : FileTree) : List String :=
  if c.includePatterns.isEmpty then []
  else
    let includes := Patterns.read c.includePatterns
    let excludes := Patterns.read c.excludePatterns
    let found := FileTree.filesAt (enters directory excludes) [] t
    (found.filter (isIncluded includes excludes)).map fun location =>
      Path.normalize (pathBelow directory location)

def inputs (c : Config) (directory : String) (t : FileTree) : List String :=
  Text.ascending (c.listedFiles directory ++ c.foundFiles directory t)

end Config

/-- What is known of a project: its options and inputs, and why it cannot be used. -/
structure Project where
  /-- `none` if the configuration cannot be read. -/
  options : Option CompilerOptions
  fileNames : List String
  errors : List Diagnostic
deriving DecidableEq

/-- The diagnostic of a configuration that cannot be used. It names the path at which the fault
was met, and without one the path `start` of the configuration that was asked for. -/
def ConfigFault.diagnostic (start : String) : ConfigFault → Diagnostic
  | .unreadable path _ => MessageTemplate.unreadableFile.diagnostic [path]
  | .malformed path cause =>
    MessageTemplate.unparsableFile.diagnostic
      [path, "failed to parse tsconfig JSON: " ++ cause.message]
  | .circular path => MessageTemplate.circularity.diagnostic [path]
  | .noDirectory => MessageTemplate.unreadableFile.diagnostic [start]

namespace Project

def failed (error : Diagnostic) : Project :=
  { options := none, fileNames := [], errors := [error] }

def noInputs (c : Config) (path : String) : Diagnostic :=
  MessageTemplate.noInputs.diagnostic
    [path, (Codec.list .string).write (c.includes.getD Config.everything),
      (Codec.list .string).write c.excludePatterns]

/-- The project of a configuration, the path of which is `path`. -/
def ofConfig (c : Config) (path directory : String) (t : FileTree) : Project :=
  let fileNames := c.inputs directory t
  { options := some c.optionsOrNone
    fileNames
    errors := if fileNames.isEmpty then [noInputs c (Path.normalize path)] else [] }

def directoryOf (path : String) : String :=
  match Path.parent? path with
  | some directory => if directory.isEmpty then "." else directory
  | none => "."

/-- The directory of a project and the path of its configuration, where the project is given by
either of them. -/
def places (path : String) : FileTree → String × String
  | .directory _ => (path, Path.join path "tsconfig.json")
  | .file _ => (directoryOf path, path)

/-- The project at a path. `find` says what is at a path, with everything below it, and
`loadConfig` loads a configuration. -/
def loadWith (find : String → Except FileFault FileTree)
    (loadConfig : String → Except LoadError Config) (path : String) : Project :=
  match find path with
  | .error _ => failed (MessageTemplate.unreadableProject.diagnostic [Path.normalize path])
  | .ok t =>
    let (directory, configPath) := places path t
    match loadConfig configPath with
    | .error e => failed (e.fault.diagnostic (Path.normalize configPath))
    | .ok c =>
      match find directory with
      | .ok t => ofConfig c configPath directory t
      | .error _ => ofConfig c configPath directory default

def load (files : Files) (path : String) : Project :=
  loadWith files.find files.loadConfig path

def encode (p : Project) : Json :=
  .record
    [("options", CompilerOptions.codec.nullable.encode p.options),
      ("fileNames", (Codec.list .string).encode p.fileNames),
      ("errors", .array (p.errors.map Diagnostic.encode))]

end Project

end TypeAtlas
