import TypeAtlas.Row
import TypeAtlas.Symbols.SymbolFlags

/-! Named entities of a program. -/

namespace TypeAtlas

structure Symbol where
  flags : UInt32
  name : String
  declarations : List NodeRef := []
  /-- The first declaration that gives the symbol a value. -/
  valueDeclaration : NodeRef := none
  /-- The tag by which the symbol is known elsewhere, once it has been given one. -/
  tag : Option UInt32 := none
  parent : SymbolRef := none
deriving DecidableEq

namespace Symbol

def hasAnyFlag (s : Symbol) (flags : UInt32) : Bool :=
  s.flags &&& flags != 0

def firstDeclaration (s : Symbol) : NodeRef :=
  s.declarations.head?.join

end Symbol

end TypeAtlas
