import TypeAtlas.Text.Blank

/-! JSON with comments and with commas behind last items, and how it becomes plain JSON. Both
steps leave the strings of the text alone. -/

namespace TypeAtlas

namespace Jsonc

inductive Region where
  | outside
  | string
  /-- In a string, behind a backslash. -/
  | escaped
  | lineComment
  | blockComment
deriving DecidableEq

/-- A text without its comments, read from a region on. The line breaks in comments stay, so that
every line keeps its number. A comment that is not closed reaches to the end of the text. -/
def withoutComments : Region → List Char → List Char
  | _, [] => []
  | .outside, '/' :: '/' :: rest => withoutComments .lineComment rest
  | .outside, '/' :: '*' :: rest => withoutComments .blockComment rest
  | .outside, c :: rest => c :: withoutComments (if c = '"' then .string else .outside) rest
  | .string, c :: rest =>
    c :: withoutComments (if c = '\\' then .escaped else if c = '"' then .outside else .string) rest
  | .escaped, c :: rest => c :: withoutComments .string rest
  | .lineComment, c :: rest =>
    if c = '\n' then c :: withoutComments .outside rest else withoutComments .lineComment rest
  | .blockComment, '*' :: '/' :: rest => withoutComments .outside rest
  | .blockComment, c :: rest =>
    if c = '\n' then c :: withoutComments .blockComment rest
    else withoutComments .blockComment rest

/-- The next character that is not blank closes an object or an array. -/
def isClosing (rest : List Char) : Bool :=
  match rest.dropWhile Text.isBlank with
  | '}' :: _ => true
  | ']' :: _ => true
  | _ => false

/-- A text without the commas in front of closing brackets, read from a region on. Comments are
not known here, so the other regions are those of strings. -/
def withoutTrailingCommas : Region → List Char → List Char
  | _, [] => []
  | .string, c :: rest =>
    c :: withoutTrailingCommas
      (if c = '\\' then .escaped else if c = '"' then .outside else .string) rest
  | .escaped, c :: rest => c :: withoutTrailingCommas .string rest
  | region, c :: rest =>
    if c = ',' ∧ isClosing rest = true then withoutTrailingCommas region rest
    else c :: withoutTrailingCommas (if c = '"' then .string else .outside) rest

def plain (text : String) : String :=
  String.ofList (withoutTrailingCommas .outside (withoutComments .outside text.toList))

end Jsonc

end TypeAtlas
