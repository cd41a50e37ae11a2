import TypeAtlas.Json.Spelling
import TypeAtlas.Text.Blank
import TypeAtlas.Text.Replace

/-! Sets of flags as text: the names of the flags with bars between them, and the bits that have no
name as one hexadecimal number. -/

namespace TypeAtlas

structure FlagNames where
  single : List (String × UInt32)
  /-- The names for several flags at once, which are read but never written. -/
  groups : List (String × UInt32)

namespace FlagNames

variable (f : FlagNames)

def known : UInt32 :=
  f.single.foldl (fun bits flag => bits ||| flag.2) 0

/-- The names of the flags in a set, in the order of their declaration. -/
def namesOf (bits : UInt32) : List String :=
  (f.single.filter fun flag => bits &&& flag.2 != 0).map Prod.fst

def unknown (bits : UInt32) : UInt32 :=
  bits &&& ~~~f.known

def bar : List Char :=
  [' ', '|', ' ']

def hexadecimal (bits : UInt32) : List Char :=
  '0' :: 'x' :: Nat.toDigits 16 bits.toNat

def parts (bits : UInt32) : List (List Char) :=
  (f.namesOf bits).map String.toList ++
    if f.unknown bits = 0 then [] else [hexadecimal (f.unknown bits)]

def write (bits : UInt32) : List Char :=
  List.intercalate bar (f.parts bits)

def hexadecimalValue? (digits : List Char) : Option Nat :=
  match digits with
  | [] => none
  | _ => digits.foldlM (fun n c => (Json.hexValue c).map (16 * n + ·)) 0

/-- A number of 32 bits, which may have a plus sign. -/
def readHexadecimal (digits : List Char) : Option UInt32 :=
  let unsigned :=
    match digits with
    | '+' :: rest => rest
    | _ => digits
  (hexadecimalValue? unsigned).bind fun n => if n < UInt32.size then some (.ofNat n) else none

def readPart (part : List Char) : Option UInt32 :=
  match part with
  | '0' :: 'x' :: digits => readHexadecimal digits
  | _ => (f.single ++ f.groups).lookup (String.ofList part)

/-- The set that a text names. A text of blanks is the empty set, and blanks around a part do not
count. -/
def read (text : List Char) : Option UInt32 :=
  if (Text.trim text).isEmpty then some 0
  else do
    let sets ← ((Text.split '|' text).map Text.trim).mapM f.readPart
    return sets.foldl (· ||| ·) 0

end FlagNames

end TypeAtlas
