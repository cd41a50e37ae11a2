import TypeAtlas.Assertion
import TypeAtlas.Flags.Modifiers
import TypeAtlas.Symbols.Bindings
import TypeAtlas.Tree.Declarations

/-! Questions about a symbol and the place of its declarations in the tree. Questions about the
surroundings of a symbol start at its value declaration, so a symbol without one, such as an
interface, is in no context at all. -/

namespace TypeAtlas

namespace Symbol

def inExportContext (s : Symbol) (a : Arena) : Bool :=
  (a.ancestry s.valueDeclaration).any fun id =>
    (a.node? id).any fun node => node.flags &&& NodeFlags.exportContext != 0

def isUnder (s : Symbol) (a : Arena) (flags : Modifiers) : Bool :=
  (a.ancestry s.valueDeclaration).any fun id => a.hasModifier id flags

def inAmbientContext (s : Symbol) (a : Arena) : Bool :=
  s.isUnder a Modifiers.ambient

def isExported (s : Symbol) (a : Arena) : Bool :=
  s.isUnder a Modifiers.export

/-- A class that only its own module can see. A class has a value declaration; one without is a
fault of the data, unless its context answers the question already. -/
def isInternalClass (s : Symbol) (a : Arena) : Except BrokenAssertion Bool :=
  if !s.hasAnyFlag SymbolFlags.classLike || s.inExportContext a || s.inAmbientContext a then
    .ok false
  else do
    assert s.valueDeclaration.isSome ("class symbol '" ++ s.name ++ "' has a value declaration")
    return !a.hasModifier s.valueDeclaration Modifiers.export

def isAbstractClass (s : Symbol) (a : Arena) : Bool :=
  s.valueDeclaration.isSome && a.hasModifier s.valueDeclaration Modifiers.abstract

/-- Interfaces always belong to what a module offers. -/
def isInternalInterface (_ : Symbol) : Bool :=
  false

/-- The first declaration is a module or namespace with `declare`. -/
def isAmbientModule (s : Symbol) (a : Arena) : Bool :=
  a.kind? s.firstDeclaration = some .moduleDeclaration &&
    ((a.modifiers? s.firstDeclaration).getD []).any fun token => a.kind? token = some .declareKeyword

/-- A module whose first declaration is a source file that does not only declare. -/
def isSourceCodeModule (s : Symbol) (a : Arena) : Bool :=
  a.isSourceCodeFile s.firstDeclaration

def nameNode (s : Symbol) (a : Arena) : NodeRef :=
  s.declarations.findSome? a.declaredName

def sourceFile (s : Symbol) (a : Arena) : NodeRef :=
  if a.kind? s.firstDeclaration = some .sourceFile then s.firstDeclaration else none

end Symbol

namespace Bindings

/-- The tag of a symbol: its own, or else that of the symbol that its value declaration
declares. -/
def tagOf? (b : Bindings) (s : Symbol) : Option UInt32 :=
  s.tag.or <| do
    let declared ← b.nodeSymbol? s.valueDeclaration
    let symbol ← b.symbol? declared
    symbol.tag

/-- A text that tells a symbol from all others. Tags begin at one, and a symbol whose tag is zero
has no such text. -/
def identity? (b : Bindings) (s : SymbolRef) : Option String := do
  let symbol ← b.symbol? s
  let tag ← b.tagOf? symbol
  if tag = 0 then none else return toString tag.toNat

end Bindings

end TypeAtlas
