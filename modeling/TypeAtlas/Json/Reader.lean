import TypeAtlas.Json.Spelling

/-! Reading JSON text. The reader takes the longest value at the front of a text and gives it
with the text behind it, or, where the text stops being JSON, with `broken` in the place of the
fault and nothing behind it. -/

namespace TypeAtlas

namespace Json

def isSpace (c : Char) : Bool :=
  c = ' ' || c = '\t' || c = '\n' || c = '\r'

def skipSpace (s : List Char) : List Char :=
  s.dropWhile isSpace

/-- Splits the text behind an opening quote at the closing one. -/
def scanString : List Char → Option (List Char × List Char)
  | [] => none
  | '"' :: rest => some ([], rest)
  | '\\' :: 'u' :: a :: b :: c :: d :: rest => do
    let _ ← hexWord a b c d
    let (spelling, rest) ← scanString rest
    return ('\\' :: 'u' :: a :: b :: c :: d :: spelling, rest)
  | '\\' :: letter :: rest => do
    let _ ← unescapeShort letter
    let (spelling, rest) ← scanString rest
    return ('\\' :: letter :: spelling, rest)
  | c :: rest =>
    if c = '\\' ∨ c.toNat < 0x20 then none
    else do
      let (spelling, rest) ← scanString rest
      return (c :: spelling, rest)

def scanDigits (s : List Char) : Option (List Char × List Char) :=
  match s.takeWhile Char.isDigit with
  | [] => none
  | digits => some (digits, s.dropWhile Char.isDigit)

/-- Digits of which the first is zero only if it is the only one. -/
def scanInteger (s : List Char) : Option (List Char × List Char) := do
  let (digits, rest) ← scanDigits s
  if digits.head? = some '0' ∧ digits ≠ ['0'] then none else return (digits, rest)

def scanFraction (s : List Char) : Option (List Char × List Char) :=
  match s with
  | '.' :: rest => do
    let (digits, rest) ← scanDigits rest
    return ('.' :: digits, rest)
  | s => some ([], s)

def scanExponent (s : List Char) : Option (List Char × List Char) :=
  match s with
  | c :: rest =>
    if c = 'e' ∨ c = 'E' then
      match rest with
      | sign :: after =>
        if sign = '+' ∨ sign = '-' then do
          let (digits, rest) ← scanDigits after
          return (c :: sign :: digits, rest)
        else do
          let (digits, rest) ← scanDigits rest
          return (c :: digits, rest)
      | [] => none
    else some ([], s)
  | [] => some ([], [])

def scanUnsigned (s : List Char) : Option (List Char × List Char) := do
  let (integer, rest) ← scanInteger s
  let (fraction, rest) ← scanFraction rest
  let (exponent, rest) ← scanExponent rest
  return (integer ++ fraction ++ exponent, rest)

def scanNumber (s : List Char) : Option (List Char × List Char) :=
  match s with
  | '-' :: rest => do
    let (spelling, rest) ← scanUnsigned rest
    return ('-' :: spelling, rest)
  | s => scanUnsigned s

mutual

/-- The value at the front of a text. Every value takes a character and every item behind a
comma takes two, so twice the length of the text is fuel enough. -/
def readValue : Nat → List Char → Json × Option (List Char)
  | 0, _ => (.broken, none)
  | fuel + 1, s =>
    match skipSpace s with
    | 'n' :: 'u' :: 'l' :: 'l' :: rest => (.null, some rest)
    | 't' :: 'r' :: 'u' :: 'e' :: rest => (.bool true, some rest)
    | 'f' :: 'a' :: 'l' :: 's' :: 'e' :: rest => (.bool false, some rest)
    | '"' :: rest =>
      match scanString rest with
      | some (spelling, rest) => (.string spelling, some rest)
      | none => (.broken, none)
    | '[' :: rest =>
      match skipSpace rest with
      | ']' :: rest => (.array [], some rest)
      | rest => let (items, rest) := readItems fuel rest; (.array items, rest)
    | '{' :: rest =>
      match skipSpace rest with
      | '}' :: rest => (.object [], some rest)
      | rest => let (members, rest) := readMembers fuel rest; (.object members, rest)
    | s =>
      match scanNumber s with
      | some (spelling, rest) => (.number spelling, some rest)
      | none => (.broken, none)

def readItems : Nat → List Char → List Json × Option (List Char)
  | 0, _ => ([.broken], none)
  | fuel + 1, s =>
    match readValue fuel s with
    | (v, none) => ([v, .broken], none)
    | (v, some rest) =>
      match skipSpace rest with
      | ',' :: rest => let (items, rest) := readItems fuel rest; (v :: items, rest)
      | ']' :: rest => ([v], some rest)
      | _ => ([v, .broken], none)

def readMembers : Nat → List Char → List (List Char × Json) × Option (List Char)
  | 0, _ => ([([], .broken)], none)
  | fuel + 1, s =>
    match skipSpace s with
    | '"' :: rest =>
      match scanString rest with
      | none => ([([], .broken)], none)
      | some (key, rest) =>
        match skipSpace rest with
        | ':' :: rest =>
          match readValue fuel rest with
          | (v, none) => ([(key, v), ([], .broken)], none)
          | (v, some rest) =>
            match skipSpace rest with
            | ',' :: rest => let (members, rest) := readMembers fuel rest; ((key, v) :: members, rest)
            | '}' :: rest => ([(key, v)], some rest)
            | _ => ([(key, v), ([], .broken)], none)
        | _ => ([(key, .broken)], none)
    | _ => ([([], .broken)], none)

end

/-- The value at the front of a text, and whether nothing but white space follows it. -/
def read (s : List Char) : Json × Bool :=
  let (v, rest) := readValue (2 * s.length + 2) s
  (v, rest.any fun rest => (skipSpace rest).isEmpty)

end Json

end TypeAtlas
