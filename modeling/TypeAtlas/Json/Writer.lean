import TypeAtlas.Json.Spelling

/-! Writing JSON text, on one line without spaces or indented by two. -/

namespace TypeAtlas

namespace Json

def quoted (spelling : List Char) : List Char :=
  '"' :: spelling ++ ['"']

mutual

def compact : Json → List Char
  | .null => ['n', 'u', 'l', 'l']
  | .bool true => ['t', 'r', 'u', 'e']
  | .bool false => ['f', 'a', 'l', 's', 'e']
  | .number spelling => spelling
  | .string spelling => quoted spelling
  | .array [] => ['[', ']']
  | .array (v :: items) => '[' :: compact v ++ compactItems items
  | .object [] => ['{', '}']
  | .object ((key, v) :: members) => '{' :: quoted key ++ ':' :: compact v ++ compactMembers members
  | .broken => []

/-- The items behind the first one, each with its comma, and the closing bracket. -/
def compactItems : List Json → List Char
  | [] => [']']
  | v :: items => ',' :: compact v ++ compactItems items

/-- The members behind the first one, each with its comma, and the closing brace. -/
def compactMembers : List (List Char × Json) → List Char
  | [] => ['}']
  | (key, v) :: members => ',' :: quoted key ++ ':' :: compact v ++ compactMembers members

end

def newLine (depth : Nat) : List Char :=
  '\n' :: List.replicate (2 * depth) ' '

mutual

/-- Each item and member on a line of its own, two blanks deeper than its container. -/
def indented (depth : Nat) : Json → List Char
  | .null => ['n', 'u', 'l', 'l']
  | .bool true => ['t', 'r', 'u', 'e']
  | .bool false => ['f', 'a', 'l', 's', 'e']
  | .number spelling => spelling
  | .string spelling => quoted spelling
  | .array [] => ['[', ']']
  | .array (v :: items) =>
    '[' :: newLine (depth + 1) ++ indented (depth + 1) v ++ indentedItems depth items
  | .object [] => ['{', '}']
  | .object ((key, v) :: members) =>
    '{' :: newLine (depth + 1) ++ quoted key ++ ':' :: ' ' :: indented (depth + 1) v ++
      indentedMembers depth members
  | .broken => []

def indentedItems (depth : Nat) : List Json → List Char
  | [] => newLine depth ++ [']']
  | v :: items => ',' :: newLine (depth + 1) ++ indented (depth + 1) v ++ indentedItems depth items

def indentedMembers (depth : Nat) : List (List Char × Json) → List Char
  | [] => newLine depth ++ ['}']
  | (key, v) :: members =>
    ',' :: newLine (depth + 1) ++ quoted key ++ ':' :: ' ' :: indented (depth + 1) v ++
      indentedMembers depth members

end

def toCompact (v : Json) : String :=
  String.ofList v.compact

def toIndented (v : Json) : String :=
  String.ofList (v.indented 0)

end Json

end TypeAtlas
