import TypeAtlas.Json.Record
import TypeAtlas.Symbols.Bindings

/-! The exchange format of symbols. -/

namespace TypeAtlas

def Symbol.codec : Codec Symbol :=
  Fields.record
    (.cons (.required "flags" Codec.word) <| .cons (.required "escaped_name" Codec.string) <|
      .cons (.required "declarations" (Codec.list Row.codec)) <|
      .cons (.defaulted "value_declaration" Row.codec none) <|
      .cons (.defaulted "id" (Codec.nullable Codec.word) none) <|
      .cons (.defaulted "parent" Row.codec none) .nil)
    (fun s => (s.flags, s.name, s.declarations, s.valueDeclaration, s.tag, s.parent, ()))
    (fun (flags, name, declarations, valueDeclaration, tag, parent, ()) =>
      { flags, name, declarations, valueDeclaration, tag, parent })

/-- A table that stands alone in an object, under the name `symbols`. -/
def symbolsAlone (c : Codec α) : Codec α :=
  Fields.record (.cons (.required "symbols" c) .nil) (fun a => (a, ())) (fun (a, ()) => a)

def Bindings.codec : Codec Bindings :=
  Fields.record
    (.cons (.required "symbols" (symbolsAlone (Codec.array Symbol.codec))) <|
      .cons (.required "node_symbols" (Table.numberedCodec Row.codec)) <|
      .cons (.required "file_locals" (symbolsAlone (Table.namedCodec Row.codec))) .nil)
    (fun b => (b.symbols, b.nodeSymbols, b.fileLocals, ()))
    (fun (symbols, nodeSymbols, fileLocals, ()) => { symbols, nodeSymbols, fileLocals })

end TypeAtlas
