import TypeAtlas.Json.Codec

/-! Records as JSON. A record is written as an object with its fields in their order. It is read
from such an object, in which other members are passed over, or from a list of the fields'
values. -/

namespace TypeAtlas

structure Field (α : Type) where
  name : String
  /-- `none` where the member is left out. -/
  encode : α → Option Json
  decode : Json → Except DecodeError α
  /-- The value that an object without the member stands for. -/
  unnamed : Option α
  /-- The value that a list which ends before the member stands for. -/
  unlisted : Option α

namespace Field

def required (name : String) (c : Codec α) : Field α where
  name
  encode a := some (c.encode a)
  decode := c.decode
  unnamed := none
  unlisted := none

/-- A value or `null`, which an object may leave out. -/
def nullable (name : String) (c : Codec α) : Field (Option α) where
  name
  encode a := some (c.nullable.encode a)
  decode := c.nullable.decode
  unnamed := some none
  unlisted := none

def defaulted (name : String) (c : Codec α) (value : α) : Field α where
  name
  encode a := some (c.encode a)
  decode := c.decode
  unnamed := some value
  unlisted := some value

def optional (name : String) (c : Codec α) : Field (Option α) where
  name
  encode a := a.map c.encode
  decode := c.nullable.decode
  unnamed := some none
  unlisted := some none

end Field

inductive Fields : List Type → Type 1 where
  | nil : Fields []
  | cons (field : Field α) (fields : Fields types) : Fields (α :: types)

namespace Fields

@[reducible] def Values : List Type → Type
  | [] => Unit
  | α :: types => α × Values types

@[reducible] def Slots : List Type → Type
  | [] => Unit
  | α :: types => Option α × Slots types

def empty : (types : List Type) → Slots types
  | [] => ()
  | _ :: types => (none, empty types)

def encode : Fields types → Values types → List (List Char × Json)
  | .nil, () => []
  | .cons field fields, (a, values) =>
    match field.encode a with
    | some v => (Json.escape field.name.toList, v) :: fields.encode values
    | none => fields.encode values

/-- Puts the value of one member into its slot. A member of another name only has to be JSON. -/
def put : Fields types → Slots types → String → Json → Except DecodeError (Slots types)
  | .nil, (), _, .broken => .error .malformed
  | .nil, (), _, _ => .ok ()
  | .cons field fields, (slot, slots), key, v =>
    if field.name = key then
      match slot with
      | some _ => .error (.duplicateField key)
      | none => (field.decode v).map fun a => (some a, slots)
    else (fields.put slots key v).map fun slots => (slot, slots)

def putAll (fields : Fields types) : Slots types → List (List Char × Json) →
    Except DecodeError (Slots types)
  | slots, [] => .ok slots
  | slots, (key, v) :: members =>
    match Json.unescape key with
    | none => .error .malformed
    | some key => do
      let slots ← fields.put slots (String.ofList key) v
      fields.putAll slots members

def close : Fields types → Slots types → Except DecodeError (Values types)
  | .nil, () => .ok ()
  | .cons field fields, (slot, slots) =>
    match slot.or field.unnamed with
    | none => .error (.missingField field.name)
    | some a => (fields.close slots).map fun values => (a, values)

def ofItems : Fields types → List Json → Except DecodeError (Values types)
  | .nil, [] => .ok ()
  | .nil, _ :: _ => .error .malformed
  | .cons field fields, [] =>
    match field.unlisted with
    | none => .error .malformed
    | some a => (fields.ofItems []).map fun values => (a, values)
  | .cons field fields, v :: items => do
    let a ← field.decode v
    let values ← fields.ofItems items
    return (a, values)

def codec (fields : Fields types) : Codec (Values types) where
  encode values := .object (fields.encode values)
  decode
    | .object members => do
      let slots ← fields.putAll (empty types) members
      fields.close slots
    | .array items => fields.ofItems items
    | _ => .error .malformed

/-- The codec of a structure that has the fields' values as its parts. -/
def record (fields : Fields types) (forth : α → Values types)
    (back : Values types → α) : Codec α :=
  fields.codec.via forth back

end Fields

end TypeAtlas
