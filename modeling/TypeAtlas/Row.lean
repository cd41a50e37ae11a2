import TypeAtlas.Json.Codec

/-! References from one row of a program's tables to another. In exchanged data a reference is a
32-bit number, of which the largest names nothing. -/

namespace TypeAtlas

inductive Sheet where
  | nodes
  | symbols
  | records

structure Row (sheet : Sheet) where
  index : Nat
  index_lt : index < 4294967295
deriving DecidableEq

abbrev NodeId := Row .nodes

abbrev SymbolId := Row .symbols

/-- A node, or the absence of one. -/
abbrev NodeRef := Option NodeId

/-- A symbol, or the absence of one. -/
abbrev SymbolRef := Option SymbolId

/-- A row of the records that belong to one shape of node, or the absence of one. -/
abbrev RecordRef := Option (Row .records)

namespace Row

variable {sheet : Sheet}

def ofIndex (index : Nat) : Option (Row sheet) :=
  if h : index < 4294967295 then some ⟨index, h⟩ else none

def ofWord (w : UInt32) : Option (Row sheet) :=
  ofIndex w.toNat

def toWord : Option (Row sheet) → UInt32
  | some row => .ofNat row.index
  | none => 4294967295

theorem ofWord_toWord (ref : Option (Row sheet)) : ofWord (toWord ref) = ref := by
  cases ref with
  | none => simp [toWord, ofWord, ofIndex]
  | some row =>
    have h := row.index_lt
    have hn : (UInt32.ofNat row.index).toNat = row.index :=
      UInt32.toNat_ofNat_of_lt' (Nat.lt_trans h (by decide))
    simp [toWord, ofWord, ofIndex, hn, h]

/-- `#3` for the row 3 and `<none>` for no row. -/
def display : Option (Row sheet) → String
  | some row => "#" ++ toString row.index
  | none => "<none>"

def codec : Codec (Option (Row sheet)) :=
  Codec.word.via toWord ofWord

end Row

end TypeAtlas
