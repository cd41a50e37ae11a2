import TypeAtlas.Files.Path
import TypeAtlas.Glob.Matching
import TypeAtlas.Glob.Nesting
import TypeAtlas.Text.Blank

/-! The patterns by which a project includes and excludes files. -/

namespace TypeAtlas

namespace Patterns

def dropLeading (part s : List Char) : List Char :=
  if part.isPrefixOf s then s.drop part.length else s

/-- A pattern without blanks around it, without `./` in front and without slashes at its end. -/
def normalize (pattern : String) : String :=
  let path := (Path.normalize (String.ofList (Text.trim pattern.toList))).toList
  String.ofList ((dropLeading ['.', '/'] path).reverse.dropWhile (· = '/')).reverse

def hasWildcard (pattern : String) : Bool :=
  pattern.toList.any fun c => c = '*' || c = '?'

/-- The patterns that a normalized one stands for. One without wildcards and without an extension
names a directory, and so everything below it as well. -/
def expand (pattern : String) : List String :=
  if pattern.isEmpty then []
  else if hasWildcard pattern || Path.hasExtension pattern then [pattern]
  else [pattern, pattern ++ "/**/*"]

def wellFormed (patterns : List String) : List Glob.Pattern :=
  (patterns.flatMap fun pattern => expand (normalize pattern)).filterMap Glob.read

/-- The patterns of a list, without those that are not well formed. The patterns are used together,
so one that is nested too deeply leaves none. -/
def read (patterns : List String) : List Glob.Pattern :=
  if (wellFormed patterns).all (Glob.nesting · ≤ Glob.maxNesting) then wellFormed patterns else []

def isMatch (patterns : List Glob.Pattern) (path : String) : Bool :=
  patterns.any fun pattern => Glob.isMatch pattern path

end Patterns

end TypeAtlas
