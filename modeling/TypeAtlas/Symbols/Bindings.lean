import TypeAtlas.Symbols.Symbol
import TypeAtlas.Table

/-! What a program's names are bound to: the symbols, the symbol of each declaring node, and the
symbol that a name stands for at the level of the file. -/

namespace TypeAtlas

structure Bindings where
  symbols : Array Symbol := #[]
  /-- The symbol that a node declares, by the number of the node. -/
  nodeSymbols : Table UInt32 SymbolRef := .empty
  fileLocals : Table String SymbolRef := .empty

namespace Bindings

def empty : Bindings :=
  {}

instance : Inhabited Bindings :=
  ⟨empty⟩

def symbol? (b : Bindings) (s : SymbolRef) : Option Symbol :=
  s.bind fun id => b.symbols[id.index]?

def nodeSymbol? (b : Bindings) (n : NodeRef) : Option SymbolRef :=
  if n.isSome then b.nodeSymbols.get? (Row.toWord n) else none

def next (b : Bindings) : SymbolRef :=
  Row.ofIndex b.symbols.size

def push (b : Bindings) (s : Symbol) : Bindings :=
  { b with symbols := b.symbols.push s }

def alloc (b : Bindings) (flags : UInt32) (name : String) : Bindings × SymbolRef :=
  (b.push { flags, name }, b.next)

def modify (b : Bindings) (s : SymbolRef) (f : Symbol → Symbol) : Bindings :=
  match s with
  | none => b
  | some id => { b with symbols := b.symbols.modify id.index f }

def link (b : Bindings) (n : NodeRef) (s : SymbolRef) : Bindings :=
  { b with nodeSymbols := b.nodeSymbols.insert (Row.toWord n) s }

def setLocal (b : Bindings) (name : String) (s : SymbolRef) : Bindings :=
  { b with fileLocals := b.fileLocals.insert name s }

/-- The symbol that a declaration of `name` merges into: the one that the name stands for, if the
two have a flag in common. -/
def mergeTarget? (b : Bindings) (flags : UInt32) (name : String) : Option SymbolRef :=
  (b.fileLocals.get? name).filter fun s => (b.symbol? s).any (·.hasAnyFlag flags)

end Bindings

/-- A symbol with one more declaration. The first declaration with a flag of values becomes the
value declaration. -/
def Symbol.declare (s : Symbol) (declaration : NodeRef) (flags : UInt32) : Symbol :=
  let s := { s with flags := s.flags ||| flags }
  match declaration with
  | none => s
  | some _ =>
    { s with
      declarations := s.declarations ++ [declaration]
      valueDeclaration :=
        if flags &&& SymbolFlags.value != 0 && s.valueDeclaration.isNone then declaration
        else s.valueDeclaration }

namespace Bindings

/-- The symbols with one more declaration of an existing one. -/
def record (b : Bindings) (s : SymbolRef) (declaration : NodeRef) (flags : UInt32) : Bindings :=
  let b := b.modify s (·.declare declaration flags)
  if declaration.isSome then b.link declaration s else b

/-- A declaration of `name` at the level of the file. It merges into the symbol that the name
stands for, or gives the name a new one. -/
def declare (b : Bindings) (declaration : NodeRef) (flags : UInt32) (name : String) :
    Bindings × SymbolRef :=
  match b.mergeTarget? flags name with
  | some s => (b.record s declaration flags, s)
  | none =>
    let (b, s) := b.alloc flags name
    ((b.setLocal name s).record s declaration flags, s)

/-- A member of `parent`. Members are always new symbols and are not known by name in the file. -/
def declareMember (b : Bindings) (parent : SymbolRef) (declaration : NodeRef) (flags : UInt32)
    (name : String) : Bindings × SymbolRef :=
  let s := b.next
  let b := b.push { flags, name, parent }
  (b.record s declaration flags, s)

def largestTag (b : Bindings) : UInt32 :=
  b.symbols.foldl (fun largest s => max largest (s.tag.getD 0)) 0

/-- Tags the untagged symbols of a list with the numbers from `next` on. -/
def tagFrom (next : UInt32) : List Symbol → List Symbol
  | [] => []
  | s :: rest =>
    match s.tag with
    | some _ => s :: tagFrom next rest
    | none => { s with tag := some next } :: tagFrom (next + 1) rest

/-- Gives every untagged symbol a tag above all tags given so far. -/
def assignTags (b : Bindings) : Bindings :=
  { b with symbols := (tagFrom (b.largestTag + 1) b.symbols.toList).toArray }

end Bindings

end TypeAtlas
