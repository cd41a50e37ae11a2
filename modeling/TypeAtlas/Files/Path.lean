import TypeAtlas.Text.Replace

/-! Paths as text. A slash separates the components, and a slash in front makes a path absolute.
Empty components and `.` name no file of their own, so a path keeps them, but they do not count
where a component is asked for. -/

namespace TypeAtlas

namespace Path

def normalize (path : String) : String :=
  String.ofList (path.toList.map fun c => if c = '\\' then '/' else c)

def isAbsolute (path : String) : Bool :=
  path.toList.head? = some '/'

/-- A path seen from a directory. An absolute path stands for itself. -/
def join (directory path : String) : String :=
  if isAbsolute path then path
  else if directory.isEmpty || directory.toList.getLast? = some '/' then directory ++ path
  else directory ++ "/" ++ path

def isEmptyComponent (component : List Char) : Bool :=
  component.isEmpty || component = ['.']

def components (path : String) : List String :=
  ((Text.split '/' path.toList).filter fun c => !isEmptyComponent c).map String.ofList

/-- What a path begins with besides its components: the root, or a dot for the current
directory. -/
def anchor : List Char → List Char
  | '/' :: _ => ['/']
  | ['.'] => ['.']
  | '.' :: '/' :: _ => ['.']
  | _ => []

/-- The components behind the anchor, the last one first, without the empty ones at the end of the
path. -/
def trailing (path : List Char) : List (List Char) :=
  (Text.split '/' (path.drop (anchor path).length)).reverse.dropWhile isEmptyComponent

/-- The path without its last component. The root and the empty path have no parent. -/
def parent? (path : String) : Option String :=
  match anchor path.toList, trailing path.toList with
  | ['.'], [] => some ""
  | _, [] => none
  | start, _ :: above =>
    let kept := (above.dropWhile isEmptyComponent).reverse
    some (String.ofList (start ++ List.intercalate ['/'] kept))

/-- Whether the last component has a dot behind its first character. -/
def hasExtension (path : String) : Bool :=
  match trailing path.toList with
  | [] => false
  | component :: _ => component != ['.', '.'] && (component.drop 1).contains '.'

end Path

end TypeAtlas
