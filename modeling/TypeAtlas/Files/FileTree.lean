import TypeAtlas.Text.Replace

/-! Files and directories, and how a path leads to one of them. There are no links: every file has
one location, and `..` leads to the directory above. -/

namespace TypeAtlas

inductive FileTree where
  | file (contents : ByteArray)
  | directory (entries : List (String × FileTree))

/-- Where a file is: the names on the way from the root. -/
abbrev Location := List String

instance : LawfulBEq Location :=
  inferInstance

namespace FileTree

instance : Inhabited FileTree :=
  ⟨.directory []⟩

def entries : FileTree → List (String × FileTree)
  | file _ => []
  | directory entries => entries

def isDirectory : FileTree → Bool
  | file _ => false
  | directory _ => true

def get? (t : FileTree) : Location → Option FileTree
  | [] => some t
  | name :: location => (t.entries.lookup name).bind fun t => t.get? location

def putEntry (name : String) (t : FileTree) : List (String × FileTree) → List (String × FileTree)
  | [] => [(name, t)]
  | (key, old) :: rest => if key = name then (key, t) :: rest else (key, old) :: putEntry name t rest

/-- Changes what is at a location below, which is an empty directory where there was nothing.
Directories that are missing on the way are made. -/
def update (f : FileTree → FileTree) : Location → FileTree → FileTree
  | [], t => f t
  | name :: location, t =>
    .directory (putEntry name (update f location ((t.entries.lookup name).getD default)) t.entries)

def write (t : FileTree) (location : Location) (contents : ByteArray) : FileTree :=
  t.update (fun _ => .file contents) location

def makeDirectory (t : FileTree) (location : Location) : FileTree :=
  t.update id location

mutual

/-- The files below a directory, each by the names that lead to it. Only directories that `enter`
admits are searched. -/
def filesIn (enter : Location → Bool) (location : Location) :
    List (String × FileTree) → List Location
  | [] => []
  | (name, t) :: rest => filesAt enter (location ++ [name]) t ++ filesIn enter location rest

def filesAt (enter : Location → Bool) (location : Location) : FileTree → List Location
  | .file _ => [location]
  | .directory entries => if enter location then filesIn enter location entries else []

end

end FileTree

inductive FileFault where
  | notFound
  | notADirectory
  | isADirectory
  | invalidText
  /-- A path with the character zero in it. -/
  | invalidPath
  | nameTooLong
deriving DecidableEq

def FileFault.message : FileFault → String
  | .notFound => "No such file or directory"
  | .notADirectory => "Not a directory"
  | .isADirectory => "Is a directory"
  | .invalidText => "Not valid UTF-8"
  | .invalidPath => "The path contains a NUL character"
  | .nameTooLong => "File name too long"

/-- All files, and the directory in which paths begin that are not absolute. -/
structure Files where
  root : FileTree
  current : Location

namespace Files

variable (files : Files)

def maxName : Nat :=
  255

/-- The length in bytes that a path stays below. -/
def maxPath : Nat :=
  4096

def step (location : Location) (component : String) : Except FileFault Location :=
  match files.root.get? location with
  | some (.directory entries) =>
    if component = "" || component = "." then .ok location
    else if component = ".." then .ok location.dropLast
    else if maxName < component.utf8ByteSize then .error .nameTooLong
    else if (entries.lookup component).isSome then .ok (location ++ [component])
    else .error .notFound
  | some (.file _) => .error .notADirectory
  | none => .error .notFound

/-- Where the names in a path lead, step by step, however long the path is. -/
def resolve (path : String) : Except FileFault Location :=
  let start := if path.toList.head? = some '/' then [] else files.current
  ((Text.split '/' path.toList).map String.ofList).foldlM files.step start

/-- Where a path leads that a file or a directory can be opened by. -/
def locate (path : String) : Except FileFault Location :=
  if path.toList.contains '\x00' then .error .invalidPath
  else if path.isEmpty then .error .notFound
  else if maxPath ≤ path.utf8ByteSize then .error .nameTooLong
  else files.resolve path

theorem resolve_of_locate {path : String} {location : Location}
    (h : files.locate path = .ok location) : files.resolve path = .ok location := by
  unfold locate at h
  split at h
  · cases h
  · split at h
    · cases h
    · split at h
      · cases h
      · exact h

def find (path : String) : Except FileFault FileTree := do
  let location ← files.locate path
  match files.root.get? location with
  | some t => return t
  | none => .error .notFound

def readText (path : String) : Except FileFault String := do
  match ← files.find path with
  | .directory _ => .error .isADirectory
  | .file contents =>
    match String.fromUTF8? contents with
    | some text => return text
    | none => .error .invalidText

end Files

end TypeAtlas
