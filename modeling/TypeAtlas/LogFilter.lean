import TypeAtlas.Text.Blank

/-! What of its own work the program logs, and how. -/

namespace TypeAtlas

inductive LogFormat where
  | text
  /-- Lines that are indented by the spans around them. -/
  | tree
  | json
deriving DecidableEq

/-- The format with a given name. Letters may have any case, and any other text stands for plain
lines. -/
def LogFormat.ofName (name : String) : LogFormat :=
  let word := String.ofList (Text.small (Text.trim name.toList))
  if word = "tree" then .tree else if word = "json" then .json else .text

namespace LogFilter

def levels : List String :=
  ["off", "error", "warn", "info", "debug", "trace"]

def targets : List String :=
  ["tstools", "tstools_common", "tstools_syntax", "tstools_binder", "tstools_analysis"]

def standard : String :=
  "warn,tstools=info,tstools_analysis=debug"

/-- The directives that a setting stands for. A level alone is that of the program's own parts;
everything else then logs warnings only. -/
def directives (setting : String) : String :=
  let value := Text.trim setting.toList
  let level := String.ofList (Text.small value)
  if value.isEmpty then standard
  else if levels.contains level then
    ",".intercalate ("warn" :: targets.map fun target => target ++ "=" ++ level)
  else String.ofList value

end LogFilter

end TypeAtlas
