import TypeAtlas.Command.Arguments
import TypeAtlas.Command.Classification
import TypeAtlas.Command.HeritageReport
import TypeAtlas.Diagnostics.Rendering
import TypeAtlas.Project.Inputs

/-! Running commands over files. -/

namespace TypeAtlas

namespace Project

/-- The inputs, one on each line, and behind them the errors. -/
def render (colored : Bool) (p : Project) : String :=
  Report.ofLines
    (p.fileNames ++
      if p.errors.isEmpty then []
      else [Diagnostics.render colored p.errors, "", Diagnostics.summary p.errors])

def report (json colored : Bool) (p : Project) : Report where
  status := if p.errors.isEmpty then Report.success else Report.hasErrors
  text := if json then p.encode.toIndented ++ "\n" else p.render colored

end Project

inductive CommandError where
  | unreadable (path : String) (cause : FileFault)
  | malformed (path : String) (cause : DecodeError)
deriving DecidableEq

namespace CommandError

def messages : CommandError → List String
  | unreadable path cause => ["failed to read snapshot: " ++ path, cause.message]
  | malformed path cause => ["failed to parse snapshot: " ++ path, cause.message]

def status : Nat :=
  2

def render (e : CommandError) : String :=
  "error: " ++ ": ".intercalate e.messages

end CommandError

namespace Files

def loadProgram (files : Files) (path : String) : Except CommandError Program :=
  match files.readText path with
  | .error cause => .error (.unreadable path cause)
  | .ok text =>
    match Program.codec.read text with
    | .error cause => .error (.malformed path cause)
    | .ok p => .ok p

end Files

def Command.run (files : Files) (colored : Bool) : Command → Except CommandError Report
  | .config project json => .ok ((Project.load files project).report json colored)
  | .classify path json all =>
    (files.loadProgram path).map fun p => p.reportClassifications json all
  | .heritage path json => (files.loadProgram path).map fun p => p.reportHeritage json

/-- Runs the command that the arguments name; without a wish there are colours if `terminal`
holds. -/
def Arguments.run (files : Files) (terminal : Bool) (a : Arguments) : Except CommandError Report :=
  a.command.run files (a.pretty.getD terminal)

end TypeAtlas
