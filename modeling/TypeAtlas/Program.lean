import TypeAtlas.Symbols.Format
import TypeAtlas.Tree.Format
import TypeAtlas.Types

/-! A checked program: its tree, what its names are bound to, and what a type checker said about
it. -/

namespace TypeAtlas

structure Program where
  arena : Arena := .empty
  bindings : Bindings := .empty
  types : TypeTable := .empty

namespace Program

instance : Inhabited Program :=
  ⟨{}⟩

def codec : Codec Program :=
  Fields.record
    (.cons (.required "arena" Arena.codec) <| .cons (.required "binder" Bindings.codec) <|
      .cons (.required "types" TypeTable.codec) .nil)
    (fun p => (p.arena, p.bindings, p.types, ()))
    (fun (arena, bindings, types, ()) => { arena, bindings, types })

/-- The names of symbols, without the references that lead to none. -/
def symbolNames (p : Program) (symbols : List SymbolRef) : List String :=
  (symbols.filterMap p.bindings.symbol?).map Symbol.name

end Program

end TypeAtlas
