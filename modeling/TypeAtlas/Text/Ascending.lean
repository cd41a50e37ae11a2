/-! Texts in ascending order, each once. The order is that of their characters' numbers. -/

namespace TypeAtlas

namespace Text

/-- A list in which equal neighbours have become one. -/
def mergeNeighbours : List String → List String
  | a :: b :: rest =>
    if a = b then mergeNeighbours (b :: rest) else a :: mergeNeighbours (b :: rest)
  | texts => texts

def ascending (texts : List String) : List String :=
  mergeNeighbours (texts.mergeSort (· ≤ ·))

end Text

end TypeAtlas
