import TypeAtlas.Text.Replace

/-! The names of source files and of what is made from them. -/

namespace TypeAtlas

namespace SourceName

/-- A name that ends in `extension` and has something in front of it. -/
def hasExtension (name extension : String) : Bool :=
  extension.toList.length < name.toList.length && extension.toList.isSuffixOf name.toList

def extensions : List String :=
  [".ts", ".tsx", ".d.ts"]

def isSupported (name : String) : Bool :=
  extensions.any (hasExtension name)

/-- The name of the output: the first `.ts` in the name becomes `.js`. -/
def output (name : String) : String :=
  String.ofList (Text.replaceFirst ".ts".toList ".js".toList name.toList)

end SourceName

end TypeAtlas
