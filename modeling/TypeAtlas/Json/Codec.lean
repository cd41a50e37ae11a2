import TypeAtlas.Json.Reader
import TypeAtlas.Json.Writer

/-! Values as JSON and back. A codec writes a value and reads it again; it also reads what it
would not write, for instance a record as a list of its members' values. Faults are told in the
order of the text. -/

namespace TypeAtlas

inductive DecodeError where
  /-- Not JSON, or a value of another kind, or a number out of range. -/
  | malformed
  | missingField (name : String)
  | duplicateField (name : String)
  | invalidBoolean (text : String)
deriving DecidableEq

def DecodeError.message : DecodeError → String
  | .malformed => "malformed JSON"
  | .missingField name => "missing field `" ++ name ++ "`"
  | .duplicateField name => "duplicate field `" ++ name ++ "`"
  | .invalidBoolean text =>
    "invalid boolean value: '" ++ text ++ "'. Expected true, false, 'true', or 'false'"

structure Codec (α : Type) where
  encode : α → Json
  decode : Json → Except DecodeError α

namespace Codec

/-- What is written is read back. -/
def Faithful (c : Codec α) : Prop :=
  ∀ a, c.decode (c.encode a) = .ok a

def via (c : Codec α) (forth : β → α) (back : α → β) : Codec β where
  encode b := c.encode (forth b)
  decode v := (c.decode v).map back

theorem Faithful.via {c : Codec α} (h : c.Faithful) {forth : β → α} {back : α → β}
    (hback : ∀ b, back (forth b) = b) : (c.via forth back).Faithful := by
  intro b
  simp [Codec.via, h (forth b), hback, Except.map]

def bool : Codec Bool where
  encode := .bool
  decode
    | .bool b => .ok b
    | _ => .error .malformed

theorem bool_faithful : bool.Faithful := fun _ => rfl

def string : Codec String where
  encode := Json.ofString
  decode v :=
    match v.text? with
    | some s => .ok s
    | none => .error .malformed

/-- Numbers of 32 bits, written without sign, point and exponent. -/
def word : Codec UInt32 where
  encode w := .ofNat w.toNat
  decode v :=
    match v.natural? with
    | some n => if n < UInt32.size then .ok (.ofNat n) else .error .malformed
    | none => .error .malformed

theorem word_faithful : word.Faithful := by
  intro w
  have := w.toNat_lt_size
  simp [word, Json.natural?_ofNat, this]

/-- Numbers of 16 bits, written without sign, point and exponent. -/
def halfWord : Codec UInt16 where
  encode w := .ofNat w.toNat
  decode v :=
    match v.natural? with
    | some n => if n < UInt16.size then .ok (.ofNat n) else .error .malformed
    | none => .error .malformed

theorem halfWord_faithful : halfWord.Faithful := by
  intro w
  have := w.toNat_lt_size
  simp [halfWord, Json.natural?_ofNat, this]

def nullable (c : Codec α) : Codec (Option α) where
  encode
    | some a => c.encode a
    | none => .null
  decode
    | .null => .ok none
    | v => (c.decode v).map some

def list (c : Codec α) : Codec (List α) where
  encode items := .array (items.map c.encode)
  decode
    | .array items => items.mapM c.decode
    | _ => .error .malformed

theorem Faithful.list {c : Codec α} (h : c.Faithful) : c.list.Faithful := by
  intro items
  show (items.map c.encode).mapM c.decode = .ok items
  induction items with
  | nil => rfl
  | cons a items ih => simp [List.mapM_cons, h a, ih, bind, Except.bind, pure, Except.pure]

def array (c : Codec α) : Codec (Array α) :=
  c.list.via Array.toList List.toArray

def read (c : Codec α) (text : String) : Except DecodeError α :=
  let (v, ended) := Json.read text.toList
  match c.decode v with
  | .error e => .error e
  | .ok a => if ended then .ok a else .error .malformed

def write (c : Codec α) (a : α) : String :=
  (c.encode a).toCompact

end Codec

end TypeAtlas
