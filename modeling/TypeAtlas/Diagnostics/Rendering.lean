import TypeAtlas.Diagnostics.Diagnostic

/-! Diagnostics as text for a terminal, plain or in colours. -/

namespace TypeAtlas

/-- The colours of a report, as the parameters of a terminal's colour sequence. -/
inductive Colour where
  | cyan
  | boldRed
  | boldYellow
  | boldBlue
  | boldCyan
  | brightBlue
  | dim

namespace Colour

def parameters : Colour → String
  | cyan => "36"
  | boldRed => "1;31"
  | boldYellow => "1;33"
  | boldBlue => "1;34"
  | boldCyan => "1;36"
  | brightBlue => "94"
  | dim => "2"

def reset : String :=
  "\x1b[0m"

def start (c : Colour) : String :=
  "\x1b[" ++ c.parameters ++ "m"

/-- A text in a colour, with the terminal's own colour behind it. The colour begins anew behind
each reset in the text itself. -/
def paint (c : Colour) (s : String) : String :=
  c.start ++ String.ofList (Text.replaceAll reset.toList (reset ++ c.start).toList s.toList) ++ reset

def paintIf (colored : Bool) (c : Colour) (s : String) : String :=
  if colored then c.paint s else s

end Colour

def Category.colour : Category → Colour
  | error => .boldRed
  | warning => .boldYellow
  | suggestion => .boldBlue
  | message => .boldCyan

/-- `file:start`; there is no location without a file. -/
def location? (colored : Bool) (file : String) (start : UInt32) : Option String :=
  if file.isEmpty then none
  else some (Colour.cyan.paintIf colored (file ++ ":" ++ toString start.toNat))

namespace RelatedInformation

def render (colored : Bool) (r : RelatedInformation) : String :=
  Colour.dim.paintIf colored "  Related" ++ ": " ++
    (location? colored r.file r.start).getD "<global>" ++ " - " ++ r.text

end RelatedInformation

namespace Diagnostic

/-- ` TS6064`; the code zero is not shown. -/
def renderCode (colored : Bool) (code : UInt32) : String :=
  if code = 0 then "" else " " ++ Colour.brightBlue.paintIf colored ("TS" ++ toString code.toNat)

/-- `file:start - error TS6064: text`, and a line for each related information. -/
def render (colored : Bool) (d : Diagnostic) : String :=
  ((location? colored d.file d.start).map (· ++ " - ")).getD "" ++
    d.category.colour.paintIf colored d.category.label ++ renderCode colored d.code ++ ": " ++
    d.text ++ String.join (d.related.map fun r => "\n" ++ r.render colored)

end Diagnostic

namespace Diagnostics

def render (colored : Bool) (diagnostics : List Diagnostic) : String :=
  String.intercalate "\n" (diagnostics.map (Diagnostic.render colored))

def summary (diagnostics : List Diagnostic) : String :=
  let count := diagnostics.countP fun d => d.category = .error
  "Found " ++ toString count ++ if count = 1 then " error." else " errors."

end Diagnostics

end TypeAtlas
