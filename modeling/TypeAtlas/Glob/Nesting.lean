import TypeAtlas.Glob.Pattern

/-! How deeply a pattern is nested. A pattern is read as a regular expression over bytes, in which
a group, a repetition, a class, a sequence of several parts and a choice between several are one
level each. -/

namespace TypeAtlas

namespace Glob

/-- Parts that stand beside each other: their number, and the levels in the deepest of them. -/
structure Extent where
  parts : Nat
  depth : Nat
deriving DecidableEq

namespace Extent

def empty : Extent :=
  ⟨0, 0⟩

def beside (e f : Extent) : Extent :=
  ⟨e.parts + f.parts, max e.depth f.depth⟩

def levels (e : Extent) : Nat :=
  if 2 ≤ e.parts then e.depth + 1 else e.depth

def joined (e : Extent) : Extent :=
  ⟨1, e.levels⟩

/-- All parts as one part with a level of its own, such as a group. -/
def enclosed (e : Extent) : Extent :=
  ⟨1, e.levels + 1⟩

end Extent

def characterExtent (c : Char) : Extent :=
  ⟨c.utf8Size, 0⟩

def rangeExtent (r : Char × Char) : Extent :=
  if r.1 = r.2 then characterExtent r.1 else ⟨r.1.utf8Size + r.2.utf8Size - 1, 0⟩

mutual

/-- What a token adds to a sequence. A choice adds nothing if all its alternatives are empty. -/
def extent : Token → Extent
  | .literal c => characterExtent c
  | .any => ⟨1, 1⟩
  | .star => ⟨1, 2⟩
  | .anyFront => ⟨1, 4⟩
  | .anyBelow => ⟨2, 1⟩
  | .anyBetween => ⟨1, 4⟩
  | .inSet set => ((set.ranges.map rangeExtent).foldl Extent.beside .empty).enclosed
  | .choice alternatives =>
    let e := extentOfAny alternatives
    if e.parts = 0 then .empty else e.enclosed

def extentOfSequence : List Token → Extent
  | [] => .empty
  | token :: tokens => (extent token).beside (extentOfSequence tokens)

def extentOfAny : List (List Token) → Extent
  | [] => .empty
  | tokens :: alternatives =>
    let e := extentOfSequence tokens
    if e.parts = 0 then extentOfAny alternatives else e.joined.beside (extentOfAny alternatives)

end

/-- The levels of a pattern. The beginning and the end of the text are parts of it, so it is always
a sequence. -/
def nesting (pattern : Pattern) : Nat :=
  (extentOfSequence pattern).depth + 1

def maxNesting : Nat :=
  250

end Glob

end TypeAtlas
