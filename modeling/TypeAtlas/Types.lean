import TypeAtlas.Json.Record
import TypeAtlas.Table
import TypeAtlas.Row

/-! What a type checker said about a program: its types, and the type or symbol that some nodes
refer to. -/

namespace TypeAtlas

abbrev TypeId := UInt32

structure TypeEntry where
  /-- The symbol that declares the type, if it has one. -/
  symbol : Option SymbolRef
  properties : List SymbolRef
deriving DecidableEq

structure TypeTable where
  types : Array TypeEntry := #[]
  /-- The type that a type reference names, by the number of its node. -/
  nodeTypes : Table UInt32 TypeId := .empty
  /-- The symbol that an expression refers to, by the number of its node. -/
  nodeSymbols : Table UInt32 SymbolRef := .empty

namespace TypeTable

def empty : TypeTable :=
  {}

instance : Inhabited TypeTable :=
  ⟨empty⟩

def entry? (t : TypeTable) (type : TypeId) : Option TypeEntry :=
  t.types[type.toNat]?

def typeAt? (t : TypeTable) (n : NodeRef) : Option TypeId :=
  if n.isSome then t.nodeTypes.get? (Row.toWord n) else none

def symbolAt? (t : TypeTable) (n : NodeRef) : Option SymbolRef :=
  if n.isSome then t.nodeSymbols.get? (Row.toWord n) else none

def declaringSymbol? (t : TypeTable) (type : TypeId) : Option SymbolRef :=
  (t.entry? type).bind TypeEntry.symbol

def properties (t : TypeTable) (type : TypeId) : List SymbolRef :=
  match t.entry? type with
  | some entry => entry.properties
  | none => []

def add (t : TypeTable) (entry : TypeEntry) : TypeTable × TypeId :=
  ({ t with types := t.types.push entry }, .ofNat t.types.size)

def setTypeAt (t : TypeTable) (n : NodeRef) (type : TypeId) : TypeTable :=
  { t with nodeTypes := t.nodeTypes.insert (Row.toWord n) type }

def setSymbolAt (t : TypeTable) (n : NodeRef) (s : SymbolRef) : TypeTable :=
  { t with nodeSymbols := t.nodeSymbols.insert (Row.toWord n) s }

end TypeTable

def TypeEntry.codec : Codec TypeEntry :=
  Fields.record
    (.cons (.defaulted "symbol" (Codec.nullable Row.codec) none) <|
      .cons (.defaulted "properties" (Codec.list Row.codec) []) .nil)
    (fun e => (e.symbol, e.properties, ()))
    (fun (symbol, properties, ()) => { symbol, properties })

def TypeTable.codec : Codec TypeTable :=
  Fields.record
    (.cons (.required "types" (Codec.array TypeEntry.codec)) <|
      .cons (.defaulted "node_types" (Table.numberedCodec Codec.word) .empty) <|
      .cons (.defaulted "node_symbols" (Table.numberedCodec Row.codec) .empty) .nil)
    (fun t => (t.types, t.nodeTypes, t.nodeSymbols, ()))
    (fun (types, nodeTypes, nodeSymbols, ()) => { types, nodeTypes, nodeSymbols })

end TypeAtlas
