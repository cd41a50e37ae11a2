import TypeAtlas.Command.Run

/-! The program at the terminal. It gathers the files that a command is about and runs the
command over them. -/

open TypeAtlas

namespace Terminal

def usage : String :=
  "Usage: typeatlas [--pretty <true|false>] <command>\n\n" ++
    "  config [project] [--json]          list the inputs of a project\n" ++
    "  classify <program> [--json] [--all] show the flags of the nodes of a program\n" ++
    "  heritage <program> [--json]        show what classes and interfaces inherit\n" ++
    "  help [command]                     show this text"

def version : String :=
  "typeatlas 0.1.0"

def describe : UsageError → String
  | .help | .noArguments => usage
  | .version => version
  | .missingCommand => "error: a command is required"
  | .unknownCommand => "error: unknown command"
  | .missingPath => "error: a path is required"
  | .unknownArgument => "error: unexpected argument"
  | .invalidValue => "error: invalid or missing value"
  | .unexpectedValue => "error: an option takes no value"
  | .repeatedOption => "error: an option is given twice"

/-- The paths on the way to a path, and the path itself. -/
def ways (path : String) : List String :=
  let components := Text.split '/' path.toList
  (List.range components.length).map fun i =>
    String.ofList (List.intercalate ['/'] (components.take (i + 1)))

def learn (files : Files) (path : String) : IO Files := do
  let mut root := files.root
  for way in ways path do
    try
      let place ← IO.FS.realPath way
      if ← place.isDir then root := root.makeDirectory (Path.components place.toString)
      else root := root.write (Path.components place.toString) (← IO.FS.readBinFile place)
    catch _ => pure ()
  return { files with root }

/-- The files below a directory, without their contents. Links that lead back are not followed,
and packages are left empty. -/
partial def list (above : List String) (path : String) : IO FileTree := do
  let place ← IO.FS.realPath path
  if !(← place.isDir) then return .file .empty
  if above.contains place.toString then return default
  let entries ← (← place.readDir).toList.mapM fun entry => do
    if Config.packageDirectories.contains entry.fileName then return (entry.fileName, default)
    return (entry.fileName, ← list (place.toString :: above) entry.path.toString)
  return .directory entries

/-- Adds the configurations that the one at a path extends. -/
partial def learnBases (files : Files) (path : String) (seen : List String) : IO Files := do
  match files.loadConfig path with
  | .error ⟨_, .unreadable missing _⟩ =>
    if seen.contains missing then return files
    learnBases (← learn files missing) path (missing :: seen)
  | _ => return files

def gather (command : Command) : IO Files := do
  let current := Path.components (← IO.currentDir).toString
  let files : Files := { root := (default : FileTree).makeDirectory current, current }
  match command with
  | .classify path _ _ | .heritage path _ => learn files path
  | .config project _ =>
    let files ← learn files project
    match files.find project, files.locate project with
    | .ok t, .ok location =>
      let (directory, config) := Project.places project t
      let below ← list [] directory
      let top := if t.isDirectory then location else location.dropLast
      let files := { files with root := files.root.update (fun _ => below) top }
      learnBases (← learn files config) config []
    | _, _ => return files

end Terminal

def main (args : List String) : IO UInt32 := do
  match Arguments.read args with
  | .error e =>
    let text := Terminal.describe e
    if e.status = 0 then IO.println text else IO.eprintln text
    return .ofNat e.status
  | .ok a =>
    let files ← Terminal.gather a.command
    match a.run files (← (← IO.getStdout).isTty) with
    | .ok report =>
      IO.print report.text
      return .ofNat report.status
    | .error e =>
      IO.eprintln e.render
      return .ofNat CommandError.status
