import TypeAtlas.Program
import TypeAtlas.Symbols.Context
import TypeAtlas.Tree.Imports

/-! The members that declarations inherit. A walk follows every type reference of the heritage
clauses of a declaration to the declarations of the type it names, takes what they inherit first,
and then the members of the type itself. Nothing is left out as seen before: a type reached on two
paths gives its members twice, and only the depth of the walk is bounded, so that a circle of
declarations ends in an error. -/

namespace TypeAtlas

inductive HeritageError where
  | unresolvedType (reference : NodeRef)
  | missingTypeSymbol (reference : NodeRef)
  | unknownSymbol (symbol : SymbolRef)
  | tooDeep (depth : Nat) (declaration : NodeRef)
deriving DecidableEq

def HeritageError.message : HeritageError → String
  | .unresolvedType r => "no type resolved for heritage reference " ++ Row.display r
  | .missingTypeSymbol r => "type of heritage reference " ++ Row.display r ++ " has no declaring symbol"
  | .unknownSymbol s =>
    "symbol " ++ toString (Row.toWord s).toNat ++
      " returned by the resolver is not in the symbol table"
  | .tooDeep depth d =>
    "heritage chain deeper than " ++ toString depth ++ " levels at " ++ Row.display d ++
      " (cyclic extends?)"

def maxHeritageDepth : Nat :=
  256

/-- The declarations whose heritage a type passes on: the value declaration of its symbol, or all
declarations of a symbol without one, such as an interface. -/
def Symbol.bases (s : Symbol) : List NodeRef :=
  if s.valueDeclaration.isSome then [s.valueDeclaration] else s.declarations

namespace Program

variable (p : Program)

def symbol (s : SymbolRef) : Except HeritageError Symbol :=
  match p.bindings.symbol? s with
  | some symbol => .ok symbol
  | none => .error (.unknownSymbol s)

def typeOf (reference : NodeRef) : Except HeritageError TypeId :=
  match p.types.typeAt? reference with
  | some type => .ok type
  | none => .error (.unresolvedType reference)

def declaredType (reference : NodeRef) : Except HeritageError (TypeId × Symbol) := do
  let type ← p.typeOf reference
  match p.types.declaringSymbol? type with
  | none => .error (.missingTypeSymbol reference)
  | some s => return (type, ← p.symbol s)

def heritageReferences (declaration : NodeRef) : NodeList :=
  ((p.arena.heritageClauses? declaration).getD []).flatMap p.arena.clauseTypes

/-- The property itself if an exporting container holds it, and nothing otherwise. -/
def exportedProperty (property : SymbolRef) : Except HeritageError (List SymbolRef) := do
  let symbol ← p.symbol property
  return if symbol.inExportContext p.arena then [property] else []

/-- What a declaration inherits, by a walk that may still go down `budget - 1` levels. -/
def inheritedWithin : Nat → NodeRef → Except HeritageError (List SymbolRef)
  | 0, declaration => .error (.tooDeep maxHeritageDepth declaration)
  | budget + 1, declaration => do
    let members ← (p.heritageReferences declaration).mapM fun reference => do
      let (type, symbol) ← p.declaredType reference
      let inherited ← symbol.bases.mapM (inheritedWithin budget)
      let own ← (p.types.properties type).mapM p.exportedProperty
      return inherited.flatten ++ own.flatten
    return members.flatten

/-- The exported members of all ancestors of a declaration, the farthest ones first. -/
def inherited (declaration : NodeRef) : Except HeritageError (List SymbolRef) :=
  p.inheritedWithin (maxHeritageDepth + 1) declaration

/-- The members of the abstract classes that an `extends` clause names itself. -/
def abstractMembers (clause : NodeRef) : Except HeritageError (List SymbolRef) := do
  let members ← (p.arena.clauseTypes clause).mapM fun reference => do
    let (type, symbol) ← p.declaredType reference
    return if symbol.isAbstractClass p.arena then p.types.properties type else []
  return members.flatten

/-- The members of the types that an `implements` clause names itself. -/
def implementedMembers (clause : NodeRef) : Except HeritageError (List SymbolRef) := do
  let members ← (p.arena.clauseTypes clause).mapM fun reference =>
    return p.types.properties (← p.typeOf reference)
  return members.flatten

/-- The source file of the module that an import or an export names by a text. -/
def importedFile? (n : NodeRef) : NodeRef := do
  let name := p.arena.externalModuleName n
  if p.arena.kind? name = some .stringLiteral then
    let s ← p.types.symbolAt? name
    let symbol ← p.bindings.symbol? s
    p.arena.sourceFileOf? symbol.firstDeclaration
  else none

end Program

end TypeAtlas
