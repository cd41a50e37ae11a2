/-! What a command answers. -/

namespace TypeAtlas

structure Report where
  status : Nat
  text : String
deriving DecidableEq

namespace Report

def success : Nat :=
  0

def hasErrors : Nat :=
  1

def ofLines (lines : List String) : String :=
  String.join (lines.map (· ++ "\n"))

end Report

end TypeAtlas
