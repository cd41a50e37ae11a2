import TypeAtlas.Glob.Pattern

/-! Which paths a pattern matches. A path is matched as the bytes of its text. A pattern may match
several beginnings of it, so matching marks the places of the text where a match can end, and each
token moves the marks in one pass over the text. -/

namespace TypeAtlas

namespace Glob

def bytes (s : List Char) : List UInt8 :=
  s.flatMap String.utf8EncodeChar

def slash : UInt8 :=
  '/'.toUInt8

/-- A range joins the last byte of its first character to the first byte of its last one; the
other bytes of the two characters are members as well. -/
def inRange (r : Char × Char) (b : UInt8) : Bool :=
  let first := String.utf8EncodeChar r.1
  let last := String.utf8EncodeChar r.2
  first.contains b || last.contains b ||
    r.1 != r.2 && first.getLast?.any (· ≤ b) && last.head?.any (b ≤ ·)

namespace ByteSet

def contains (set : ByteSet) (b : UInt8) : Bool :=
  set.negated != set.ranges.any fun r => inRange r b

end ByteSet

mutual

def isVacuous : Token → Bool
  | .choice alternatives => areVacuous alternatives
  | _ => false

def isVacuousSequence : List Token → Bool
  | [] => true
  | token :: tokens => isVacuous token && isVacuousSequence tokens

def areVacuous : List (List Token) → Bool
  | [] => true
  | tokens :: alternatives => isVacuousSequence tokens && areVacuous alternatives

end

/-- Whether a match can end at each of the places of a text, which are one in front of each byte
and one at the end. -/
abbrev Marks := List Bool

namespace Marks

def start (s : List UInt8) : Marks :=
  true :: s.map fun _ => false

def cleared (marks : Marks) : Marks :=
  marks.map fun _ => false

def union (marks others : Marks) : Marks :=
  List.zipWith (· || ·) marks others

/-- `step`, where `reached` is the mark of the first place. -/
def stepFrom (p : UInt8 → Bool) (reached : Bool) : List UInt8 → Marks → Marks
  | b :: rest, mark :: marks => reached :: stepFrom p (mark && p b) rest marks
  | _, _ => [reached]

/-- Moves the marks over one byte with the property `p`. -/
def step (p : UInt8 → Bool) (s : List UInt8) (marks : Marks) : Marks :=
  stepFrom p false s marks

/-- `spread`, where `reached` says that the first place is marked from in front of it. -/
def spreadFrom (p : UInt8 → Bool) (reached : Bool) : List UInt8 → Marks → Marks
  | b :: rest, mark :: marks =>
    (reached || mark) :: spreadFrom p ((reached || mark) && p b) rest marks
  | _, mark :: _ => [reached || mark]
  | _, [] => [reached]

/-- Moves the marks over any number of bytes with the property `p`. -/
def spread (p : UInt8 → Bool) (s : List UInt8) (marks : Marks) : Marks :=
  spreadFrom p false s marks

def throughSlash (s : List UInt8) (marks : Marks) : Marks :=
  step (· == slash) s marks

def throughAll (s : List UInt8) (marks : Marks) : Marks :=
  spread (fun _ => true) s marks

def atEnd (marks : Marks) : Bool :=
  marks.getLast?.any id

mutual

/-- Moves the marks through a token. Alternatives that match the empty text only do not count beside
others. -/
def through : Token → List UInt8 → Marks → Marks
  | .literal c, s, marks =>
    (String.utf8EncodeChar c).foldl (fun marks b => step (· == b) s marks) marks
  | .any, s, marks => step (· != slash) s marks
  | .star, s, marks => spread (· != slash) s marks
  | .anyFront, s, marks => union marks (throughSlash s (throughAll s marks))
  | .anyBelow, s, marks => throughAll s (throughSlash s marks)
  | .anyBetween, s, marks =>
    union (throughSlash s marks) (throughSlash s (throughAll s (throughSlash s marks)))
  | .inSet set, s, marks => step set.contains s marks
  | .choice alternatives, s, marks =>
    if areVacuous alternatives then marks else throughAny alternatives s marks

def throughSequence : List Token → List UInt8 → Marks → Marks
  | [], _, marks => marks
  | token :: tokens, s, marks => throughSequence tokens s (through token s marks)

def throughAny : List (List Token) → List UInt8 → Marks → Marks
  | [], _, marks => marks.cleared
  | tokens :: alternatives, s, marks =>
    if isVacuousSequence tokens then throughAny alternatives s marks
    else union (throughSequence tokens s marks) (throughAny alternatives s marks)

end

end Marks

/-- Whether a pattern matches a whole path. `**` alone matches every path. -/
def isMatch (pattern : Pattern) (path : String) : Bool :=
  let s := bytes path.toList
  pattern matches [.anyFront] || (Marks.throughSequence pattern s (Marks.start s)).atEnd

end Glob

end TypeAtlas
