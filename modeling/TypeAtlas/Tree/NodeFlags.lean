/-! Flags on nodes, as the parser and the binder of a program left them. -/

namespace TypeAtlas

namespace NodeFlags

/-- The inner declaration of a dotted namespace (`namespace A.B`). -/
def nestedNamespace : UInt32 := 0x8

/-- A declaration whose container exports its members. -/
def exportContext : UInt32 := 0x80

end NodeFlags

end TypeAtlas
