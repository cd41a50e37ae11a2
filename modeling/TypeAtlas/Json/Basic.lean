/-! JSON as it is written. Numbers and strings keep their spelling, and objects keep the order
and the repetitions of their members, so that a decoder can tell `1` from `1.0` and see a
member that comes twice. -/

namespace TypeAtlas

inductive Json where
  | null
  | bool (value : Bool)
  | number (spelling : List Char)
  /-- The characters between the quotes. -/
  | string (spelling : List Char)
  | array (items : List Json)
  | object (members : List (List Char × Json))
  /-- The place where the text stops being JSON. What stands before it has been read, so a
  decoder that goes from left to right meets faults in the order of the text. -/
  | broken

namespace Json

def natural? : Json → Option Nat
  | .number spelling =>
    if spelling ≠ [] ∧ spelling.all Char.isDigit then some (Nat.ofDigitChars 10 spelling 0) else none
  | _ => none

def ofNat (n : Nat) : Json :=
  .number (Nat.toDigits 10 n)

def ofWord (w : UInt32) : Json :=
  ofNat w.toNat

theorem natural?_ofNat (n : Nat) : (ofNat n).natural? = some n := by
  have digits : (Nat.toDigits 10 n).all Char.isDigit = true :=
    List.all_eq_true.2 fun _ h => Nat.isDigit_of_mem_toDigits (by decide) (by decide) h
  simp [natural?, ofNat, Nat.toDigits_ne_nil, digits, Nat.ofDigitChars_ten_toDigits]

end Json

end TypeAtlas
