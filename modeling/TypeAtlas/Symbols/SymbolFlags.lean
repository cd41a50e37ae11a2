/-! Flags on symbols: which sorts of declarations a symbol has. -/

namespace TypeAtlas

namespace SymbolFlags

def property : UInt32 := 0x4

def classLike : UInt32 := 0x20

def interface : UInt32 := 0x40

/-- All flags of symbols that stand for values: variables, properties, functions, classes, enums
and their members, object literals, value modules, methods and accessors. -/
def value : UInt32 := 0x1B3BF

end SymbolFlags

end TypeAtlas
