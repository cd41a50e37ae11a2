/-! White space as Unicode has it, and text without its outer blanks. -/

namespace TypeAtlas

namespace Text

/-- The characters of Unicode's property White_Space. -/
def isBlank (c : Char) : Bool :=
  let n := c.toNat
  (9 ≤ n && n ≤ 13) || n == 0x20 || n == 0x85 || n == 0xA0 || n == 0x1680 ||
    (0x2000 ≤ n && n ≤ 0x200A) || n == 0x2028 || n == 0x2029 || n == 0x202F || n == 0x205F ||
    n == 0x3000

def trim (s : List Char) : List Char :=
  ((s.dropWhile isBlank).reverse.dropWhile isBlank).reverse

/-- A text with its ASCII letters made small. The words it is compared with have ASCII letters
only, and no other character has one of their letters as its small form. -/
def small (s : List Char) : List Char :=
  s.map Char.toLower

end Text

end TypeAtlas
