import TypeAtlas.Json.Basic

/-! The spelling of strings in JSON: `escape` writes a text between quotes, `unescape` reads it
back. Reading fails only on an unknown escape and on half of a surrogate pair. -/

namespace TypeAtlas

namespace Json

def shortEscapes : List (Char × Char) :=
  [('"', '"'), ('\\', '\\'), ('b', '\x08'), ('f', '\x0c'), ('n', '\n'), ('r', '\r'), ('t', '\t')]

/-- A quote, a backslash and the control characters below the blank are escaped, the short way
where there is one; every other character stands for itself. -/
def escapeChar (c : Char) : List Char :=
  match shortEscapes.find? (·.2 = c) with
  | some (letter, _) => ['\\', letter]
  | none =>
    if c.toNat < 0x20 then
      ['\\', 'u', '0', '0', Nat.digitChar (c.toNat / 16), Nat.digitChar (c.toNat % 16)]
    else [c]

def escape (s : List Char) : List Char :=
  s.flatMap escapeChar

def unescapeShort (letter : Char) : Option Char :=
  if letter = '/' then some '/' else (shortEscapes.find? (·.1 = letter)).map (·.2)

def hexValue (c : Char) : Option Nat :=
  if c.isDigit then some (c.toNat - '0'.toNat)
  else if 'a' ≤ c ∧ c ≤ 'f' then some (c.toNat - 'a'.toNat + 10)
  else if 'A' ≤ c ∧ c ≤ 'F' then some (c.toNat - 'A'.toNat + 10)
  else none

def hexWord (a b c d : Char) : Option Nat := do
  return (((← hexValue a) * 16 + (← hexValue b)) * 16 + (← hexValue c)) * 16 + (← hexValue d)

/-- A character that stands for itself or is escaped by one letter, or a code of four hexadecimal
digits. -/
inductive Piece where
  | char (c : Char)
  | code (n : Nat)

def pieces : List Char → Option (List Piece)
  | [] => some []
  | '\\' :: 'u' :: a :: b :: c :: d :: rest => do
    let n ← hexWord a b c d
    return .code n :: (← pieces rest)
  | '\\' :: letter :: rest => do
    let c ← unescapeShort letter
    return .char c :: (← pieces rest)
  | c :: rest => do
    return .char c :: (← pieces rest)

def isHighSurrogate (n : Nat) : Bool :=
  0xD800 ≤ n && n < 0xDC00

def isLowSurrogate (n : Nat) : Bool :=
  0xDC00 ≤ n && n < 0xE000

/-- Two codes that form a surrogate pair are one character; half a pair is none. -/
def joinPieces : List Piece → Option (List Char)
  | [] => some []
  | .char c :: rest => (joinPieces rest).map (c :: ·)
  | .code n :: rest =>
    if isHighSurrogate n then
      match rest with
      | .code m :: rest =>
        if isLowSurrogate m then
          (joinPieces rest).map (Char.ofNat (0x10000 + (n - 0xD800) * 0x400 + (m - 0xDC00)) :: ·)
        else none
      | _ => none
    else if isLowSurrogate n then none
    else (joinPieces rest).map (Char.ofNat n :: ·)

def unescape (spelling : List Char) : Option (List Char) :=
  (pieces spelling).bind joinPieces

def ofString (s : String) : Json :=
  .string (escape s.toList)

/-- An object with its members by name. -/
def record (members : List (String × Json)) : Json :=
  .object (members.map fun (name, v) => (escape name.toList, v))

def text? : Json → Option String
  | .string spelling => (unescape spelling).map String.ofList
  | _ => none

end Json

end TypeAtlas
