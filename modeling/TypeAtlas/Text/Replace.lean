/-! Splitting a text at a character and replacing a part of it. -/

namespace TypeAtlas

namespace Text

/-- The pieces of a text between the occurrences of `sep`: always one more than there are
occurrences. -/
def split (sep : Char) : List Char → List (List Char)
  | [] => [[]]
  | c :: rest =>
    match split sep rest with
    | [] => [[c]]
    | piece :: pieces => if c = sep then [] :: piece :: pieces else (c :: piece) :: pieces

theorem split_ne_nil (sep : Char) (s : List Char) : split sep s ≠ [] := by
  cases s with
  | nil => simp [split]
  | cons c rest =>
    simp only [split]
    split
    · simp
    · split <;> simp

/-- `replaceAll` with the first `skip` characters belonging to an occurrence already replaced. -/
def replaceFrom (part new : List Char) : Nat → List Char → List Char
  | _, [] => []
  | skip + 1, _ :: rest => replaceFrom part new skip rest
  | 0, c :: rest =>
    if part.isPrefixOf (c :: rest) then new ++ replaceFrom part new (part.length - 1) rest
    else c :: replaceFrom part new 0 rest

/-- Every occurrence of a non-empty `part`, from left to right and without overlaps, replaced. -/
def replaceAll (part new : List Char) (s : List Char) : List Char :=
  replaceFrom part new 0 s

def replaceFirst (part new : List Char) : List Char → List Char
  | [] => []
  | c :: rest =>
    if part.isPrefixOf (c :: rest) then new ++ (c :: rest).drop part.length
    else c :: replaceFirst part new rest

end Text

end TypeAtlas
